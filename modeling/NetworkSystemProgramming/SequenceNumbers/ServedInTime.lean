import Mathlib.Algebra.Order.BigOperators.Group.List
import Mathlib.Algebra.Order.Group.Nat
import Mathlib.Algebra.Ring.Nat
import NetworkSystemProgramming.SequenceNumbers.LostResponses

/-!
# Every client is served

In a run in which no client is killed, no `read` of the server fails and each client FIFO is
opened in time, something can always happen until every client has its response; and every
step takes away from what is left to do.
-/

namespace SequenceNumbers

open StepSystems StepSystem

/-- Nobody is killed, no `read` fails, and the server opens no FIFO too early. -/
def Calm (act : Act) (s : State) : Prop :=
  match act with
  | .readFails | .killed _ => False
  | act => OpenedInTime act s

instance (act : Act) (s : State) : Decidable (Calm act s) :=
  match act with
  | .readFails | .killed _ => .isFalse id
  | .openClient ok => inferInstanceAs (Decidable (OpenedInTime (.openClient ok) s))
  | .readRequest | .writeResponse _ | .closeClient | .advance | .client _ => .isTrue trivial

def calmService (v : Version) (pop : Population) : StepSystem State Act :=
  (fifoService v pop).restrict Calm

/-- The server has not opened the FIFO for the request yet. -/
def Awaiting (s : State) (r : Request) : Prop :=
  r ∈ s.requests ∨ s.server.pc = .openFifo ∧ s.server.req = r

/-- The server is going to write the response. -/
def Answering (s : State) (r : Request) : Prop :=
  s.server.pc = .write ∧ s.server.req = r ∧ s.server.clientFd = some (clientFifo r.pid)

/-- What a client at its place can count on. -/
def ClientPc.Expects (v : Version) (s : State) (r : Request) : ClientPc → Prop
  | .mkfifo | .send => True
  | .openFifo => Awaiting s r
  | .opening => v = .blocking ∧ Awaiting s r
  | .read => s.fifo (clientFifo r.pid) ≠ [] ∨ Answering s r ∨ v = .nonblocking ∧ Awaiting s r
  | .exited => (s.clients r.pid).received ≠ []

structure OnTheWay (v : Version) (pop : Population) (s : State) : Prop where
  expects : ∀ r ∈ pop.clients, (s.clients r.pid).pc.Expects v s r
  held : ∀ name, s.server.clientFd = some name →
    (s.server.pc = .write ∨ s.server.pc = .close) ∧ name = clientFifo s.server.req.pid

section
variable {v : Version} {pop : Population} {act : Act} {s t : State} {r : Request}

theorem Population.eq_of_pid (pop : Population) {r r' : Request} (client : r ∈ pop.clients)
    (client' : r' ∈ pop.clients) (same : r.pid = r'.pid) : r = r' :=
  List.inj_on_of_nodup_map pop.distinct client client' same

theorem Population.request_of_mem (pop : Population) (client : r ∈ pop.clients) :
    pop.request r.pid = some r := by
  cases found : pop.request r.pid with
  | none =>
    have all := List.find?_eq_none.mp found
    exact absurd (by simp) (all r client)
  | some r' =>
    have own : r'.pid = r.pid := by simpa using List.find?_some found
    rw [pop.eq_of_pid (List.mem_of_find?_eq_some found) client own]

/-- A request that is still in the server FIFO is not the one at hand. -/
theorem Requests.apart (requests : Requests pop s) (busy : s.server.pc ≠ .read)
    (queued : r ∈ s.requests) : r.pid ≠ s.server.req.pid := by
  intro same
  have once := requests.once
  rw [State.sent, current_busy busy, List.map_append, List.nodup_append] at once
  exact once.2.2 s.server.req.pid (by simp) r.pid (List.mem_map_of_mem queued) same.symm

/-- The request at hand is that of the client whose FIFO is to be opened. -/
theorem Awaiting.current (requests : Requests pop s) (awaiting : Awaiting s r)
    (pc : s.server.pc = .openFifo) (own : r.pid = s.server.req.pid) : s.server.req = r := by
  rcases awaiting with queued | ⟨-, same⟩
  · exact absurd own (requests.apart (by simp [pc]) queued)
  · exact same

theorem Awaiting.queued (awaiting : Awaiting s r) (pc : s.server.pc ≠ .openFifo) :
    r ∈ s.requests := awaiting.resolve_right fun ⟨here, _⟩ => pc here

/-- What a client expects does not depend on the other clients. -/
theorem OnTheWay.of_client {pid : Nat} {c : Client} {requests : List Request}
    {fifo : String → List Int} (onTheWay : OnTheWay v pop s) (more : s.requests ⊆ requests)
    (kept : ∀ other, other ≠ pid → fifo (clientFifo other) = s.fifo (clientFifo other))
    (own : ∀ r ∈ pop.clients, r.pid = pid →
      c.pc.Expects v ({ s with requests, fifo }.setClient pid c) r) :
    OnTheWay v pop ({ s with requests, fifo }.setClient pid c) := by
  refine ⟨?_, onTheWay.held⟩
  intro r client
  by_cases self : r.pid = pid
  · have expects := own r client self
    rwa [← self, setClient_self] at *
  · have expects := onTheWay.expects r client
    have awaiting : Awaiting s r → Awaiting ({ s with requests, fifo }.setClient pid c) r :=
      Or.imp_left fun queued => more queued
    rw [setClient_other _ c self]
    change (s.clients r.pid).pc.Expects v _ r
    cases pc : (s.clients r.pid).pc with
    | mkfifo | send => trivial
    | openFifo =>
      rw [pc] at expects
      exact awaiting expects
    | opening =>
      rw [pc] at expects
      exact ⟨expects.1, awaiting expects.2⟩
    | read =>
      rw [pc] at expects
      rcases expects with there | answers | ⟨version, waits⟩
      · refine Or.inl ?_
        change fifo (clientFifo r.pid) ≠ []
        rwa [kept r.pid self]
      · exact Or.inr (Or.inl answers)
      · exact Or.inr (Or.inr ⟨version, awaiting waits⟩)
    | exited =>
      rw [pc] at expects
      change (({ s with requests, fifo }.setClient pid c).clients r.pid).received ≠ []
      rw [setClient_other _ c self]
      exact expects

theorem OnTheWay.client_step (onTheWay : OnTheWay v pop s) (requests : Requests pop s)
    (client : r ∈ pop.clients) (step : clientStep v r s = some t) : OnTheWay v pop t := by
  have expects := onTheWay.expects r client
  have kept : ∀ other, other ≠ r.pid → s.fifo (clientFifo other) = s.fifo (clientFifo other) :=
    fun _ _ => rfl
  cases pc : (s.clients r.pid).pc with
  | mkfifo =>
    simp only [clientStep, pc] at step
    cases step
    exact onTheWay.of_client (List.Subset.refl _) kept fun _ _ _ => trivial
  | send =>
    simp only [clientStep, pc] at step
    cases step
    refine onTheWay.of_client (List.subset_append_left _ _) kept ?_
    intro r' client' own
    rw [pop.eq_of_pid client' client own]
    exact Or.inl (List.mem_append_right _ (List.mem_singleton_self r))
  | openFifo =>
    rw [pc] at expects
    simp only [clientStep, pc] at step
    cases step
    refine onTheWay.of_client (List.Subset.refl _) kept ?_
    intro r' client' own
    rw [pop.eq_of_pid client' client own]
    by_cases version : v = .nonblocking
    · rw [if_pos (Or.inl version)]
      exact Or.inr (Or.inr ⟨version, expects⟩)
    · have unopened : s.server.clientFd ≠ some (clientFifo r.pid) := by
        intro held
        obtain ⟨place, name⟩ := onTheWay.held _ held
        have queued := Awaiting.queued expects (by rcases place with h | h <;> simp [h])
        exact requests.apart (by rcases place with h | h <;> simp [h]) queued
          (clientFifo_injective name)
      rw [if_neg (not_or.mpr ⟨version, unopened⟩)]
      refine ⟨?_, expects⟩
      cases v with
      | blocking => rfl
      | nonblocking => exact absurd rfl version
  | opening => simp [clientStep, pc] at step
  | read =>
    rw [pc] at expects
    simp only [clientStep, pc] at step
    split at step
    · cases step
      refine onTheWay.of_client (List.Subset.refl _) ?_ ?_
      · intro other differs
        rw [Function.update_of_ne fun same => differs (clientFifo_injective same)]
      · intro r' _ own
        change (State.clients _ r'.pid).received ≠ []
        rw [own, setClient_self]
        simp
    · rename_i empty
      split at step
      · rename_i ended
        rcases expects with there | ⟨-, -, held⟩ | ⟨version, -⟩
        · exact absurd empty there
        · exact absurd held ended.2
        · rw [ended.1] at version
          cases version
      · cases step
  | exited => simp [clientStep, pc] at step

/-- A step of the server that neither wakes a client nor fills a FIFO. -/
theorem OnTheWay.of_server (onTheWay : OnTheWay v pop s) (clients : t.clients = s.clients)
    (fifo : t.fifo = s.fifo)
    (awaiting : ∀ r ∈ pop.clients, (s.clients r.pid).pc ≠ .exited → Awaiting s r → Awaiting t r)
    (answering : ∀ r ∈ pop.clients, (s.clients r.pid).pc = .read → Answering s r → Answering t r)
    (held : ∀ name, t.server.clientFd = some name →
      (t.server.pc = .write ∨ t.server.pc = .close) ∧ name = clientFifo t.server.req.pid) :
    OnTheWay v pop t := by
  refine ⟨?_, held⟩
  intro r client
  have expects := onTheWay.expects r client
  rw [clients]
  cases pc : (s.clients r.pid).pc with
  | mkfifo | send => trivial
  | openFifo =>
    rw [pc] at expects
    exact awaiting r client (by simp [pc]) expects
  | opening =>
    rw [pc] at expects
    exact ⟨expects.1, awaiting r client (by simp [pc]) expects.2⟩
  | read =>
    rw [pc] at expects
    rcases expects with there | answers | ⟨version, waits⟩
    · exact Or.inl (fifo ▸ there)
    · exact Or.inr (Or.inl (answering r client pc answers))
    · exact Or.inr (Or.inr ⟨version, awaiting r client (by simp [pc]) waits⟩)
  | exited =>
    rw [pc] at expects
    change (t.clients r.pid).received ≠ []
    rw [clients]
    exact expects

/-- The client whose FIFO is opened waits for it, or for the response. -/
theorem OnTheWay.opened (onTheWay : OnTheWay v pop s) (requests : Requests pop s)
    (rules : FifoRules pop (.openClient true) s) (pc : s.server.pc = .openFifo) :
    OnTheWay v pop (openClient v true s) := by
  have reading : (s.clients s.server.req.pid).pc.reading = true := by
    rw [← requests.current_reader (by simp [pc])]
    exact rules.symm
  refine ⟨?_, ?_⟩
  · intro r client
    have expects := onTheWay.expects r client
    by_cases own : r.pid = s.server.req.pid
    · rw [← own] at reading
      have answers : Awaiting s r → Answering (openClient v true s) r := by
        intro awaiting
        have current : s.server.req = r := awaiting.current requests pc own
        exact ⟨rfl, current, by rw [own]; rfl⟩
      change (wake (clientFifo s.server.req.pid) s.clients r.pid).pc.Expects v _ r
      cases place : (s.clients r.pid).pc with
      | opening =>
        rw [place] at expects
        have woken : (wake (clientFifo s.server.req.pid) s.clients r.pid).pc = .read := by
          simp [wake, own, own ▸ place]
        rw [woken]
        exact Or.inr (Or.inl (answers expects.2))
      | read =>
        rw [place] at expects
        have same : wake (clientFifo s.server.req.pid) s.clients r.pid = s.clients r.pid := by
          simp [wake, place]
        rw [same, place]
        rcases expects with there | ⟨other, -⟩ | ⟨-, awaiting⟩
        · exact Or.inl there
        · rw [pc] at other
          cases other
        · exact Or.inr (Or.inl (answers awaiting))
      | mkfifo | send | openFifo | exited =>
        rw [place] at reading
        cases reading
    · have differs : clientFifo r.pid ≠ clientFifo s.server.req.pid := fun same =>
        own (clientFifo_injective same)
      have same : wake (clientFifo s.server.req.pid) s.clients r.pid = s.clients r.pid := by
        simp [wake, differs]
      have queued : Awaiting s r → r ∈ s.requests := by
        rintro (queued | ⟨-, rfl⟩)
        · exact queued
        · exact absurd rfl own
      change (wake (clientFifo s.server.req.pid) s.clients r.pid).pc.Expects v _ r
      rw [same]
      cases place : (s.clients r.pid).pc with
      | mkfifo | send => trivial
      | openFifo =>
        rw [place] at expects
        exact Or.inl (queued expects)
      | opening =>
        rw [place] at expects
        exact ⟨expects.1, Or.inl (queued expects.2)⟩
      | read =>
        rw [place] at expects
        rcases expects with there | ⟨other, -⟩ | ⟨version, awaiting⟩
        · exact Or.inl there
        · rw [pc] at other
          cases other
        · exact Or.inr (Or.inr ⟨version, Or.inl (queued awaiting)⟩)
      | exited =>
        rw [place] at expects
        change (wake (clientFifo s.server.req.pid) s.clients r.pid).received ≠ []
        rw [same]
        exact expects
  · rintro name ⟨⟩
    exact ⟨Or.inl rfl, rfl⟩

/-- The client for which the server writes finds the response. -/
theorem OnTheWay.wrote (onTheWay : OnTheWay v pop s) {name : String}
    (pc : s.server.pc = .write) (fd : s.server.clientFd = some name) :
    OnTheWay v pop { s with
      server := { s.server with pc := .close }
      fifo := Function.update s.fifo name (s.fifo name ++ [s.server.seqNum])
      delivered := s.delivered ++ [⟨s.server.seqNum, s.server.req⟩] } := by
  refine ⟨?_, fun name held => ⟨Or.inr rfl, (onTheWay.held name held).2⟩⟩
  intro r client
  have expects := onTheWay.expects r client
  have elsewhere : s.server.pc ≠ .openFifo := by simp [pc]
  have filled : clientFifo r.pid = name →
      Function.update s.fifo name (s.fifo name ++ [s.server.seqNum]) (clientFifo r.pid) ≠ [] := by
    rintro rfl
    simp
  change (s.clients r.pid).pc.Expects v _ r
  cases place : (s.clients r.pid).pc with
  | mkfifo | send => trivial
  | openFifo =>
    rw [place] at expects
    exact Or.inl (expects.queued elsewhere)
  | opening =>
    rw [place] at expects
    exact ⟨expects.1, Or.inl (expects.2.queued elsewhere)⟩
  | read =>
    rw [place] at expects
    rcases expects with there | ⟨-, -, own⟩ | ⟨version, awaiting⟩
    · refine Or.inl ?_
      by_cases same : clientFifo r.pid = name
      · exact filled same
      · simpa [same] using there
    · rw [fd, Option.some.injEq] at own
      exact Or.inl (filled own.symm)
    · exact Or.inr (Or.inr ⟨version, Or.inl (awaiting.queued elsewhere)⟩)
  | exited =>
    rw [place] at expects
    exact expects

theorem OnTheWay.server_step (onTheWay : OnTheWay v pop s) (requests : Requests pop s)
    (rules : FifoRules pop act s) (calm : Calm act s)
    (server : ∀ pid, act ≠ .client pid ∧ act ≠ .killed pid) (step : Moves v pop s act t) :
    OnTheWay v pop t := by
  cases step with
  | @readRequest first rest pc queue =>
    refine onTheWay.of_server rfl rfl ?_ ?_ ?_
    · intro r _ _ awaiting
      have queued := awaiting.queued (by simp [pc])
      rw [queue] at queued
      rcases List.mem_cons.mp queued with rfl | later
      · exact Or.inr ⟨rfl, rfl⟩
      · exact Or.inl later
    · rintro r _ _ ⟨place, -⟩
      rw [pc] at place
      cases place
    · intro name held
      have place := (onTheWay.held name held).1
      simp [pc] at place
  | readFails => exact calm.elim
  | opened pc => exact onTheWay.opened requests rules pc
  | gaveUp pc =>
    have gone := requests.gone_of_failed pc rules calm
    refine onTheWay.of_server rfl rfl ?_ ?_ ?_
    · rintro r _ alive (queued | ⟨-, rfl⟩)
      · exact Or.inl queued
      · exact absurd gone alive
    · rintro r _ _ ⟨place, -⟩
      rw [pc] at place
      cases place
    · rintro name ⟨⟩
  | wentOn pc =>
    have gone := requests.gone_of_failed pc rules calm
    refine onTheWay.of_server rfl rfl ?_ ?_ ?_
    · rintro r _ alive (queued | ⟨-, rfl⟩)
      · exact Or.inl queued
      · exact absurd gone alive
    · rintro r _ _ ⟨place, -⟩
      rw [pc] at place
      cases place
    · rintro name ⟨⟩
  | wrote pc fd => exact onTheWay.wrote pc fd
  | writeFailed pc =>
    refine onTheWay.of_server rfl rfl ?_ ?_ ?_
    · intro r _ _ awaiting
      exact Or.inl (awaiting.queued (by simp [pc]))
    · rintro r client reads ⟨-, own, fd⟩
      -- the client reads, so the `write` does not fail
      have reader : s.hasReader pop (clientFifo r.pid) = true := by
        rw [hasReader_own client, reads]
        rfl
      simp only [FifoRules, fd, reader] at rules
      cases rules
    · intro name held
      exact ⟨Or.inr rfl, (onTheWay.held name held).2⟩
  | closed pc =>
    refine onTheWay.of_server rfl rfl ?_ ?_ ?_
    · intro r _ _ awaiting
      exact Or.inl (awaiting.queued (by simp [pc]))
    · rintro r _ _ ⟨place, -⟩
      rw [pc] at place
      cases place
    · rintro name ⟨⟩
  | advanced pc =>
    refine onTheWay.of_server rfl rfl ?_ ?_ ?_
    · intro r _ _ awaiting
      exact Or.inl (awaiting.queued (by simp [pc]))
    · rintro r _ _ ⟨place, -⟩
      rw [pc] at place
      cases place
    · rintro name ⟨⟩
  | @created pid | @opens pid | @received pid => exact absurd rfl (server pid).1
  | @sent r => exact absurd rfl (server r.pid).1
  | @ended _ pid side =>
    rcases side with rfl | rfl
    · exact absurd rfl (server pid).1
    · exact absurd rfl (server pid).2

theorem OnTheWay.step (onTheWay : OnTheWay v pop s) (requests : Requests pop s)
    (step : (calmService v pop).step act s t) : OnTheWay v pop t := by
  obtain ⟨calm, rules, step⟩ := step
  cases act with
  | client pid =>
    obtain ⟨r, found, moved⟩ := Option.bind_eq_some_iff.mp step
    exact onTheWay.client_step requests (List.mem_of_find?_eq_some found) moved
  | killed => exact calm.elim
  | readRequest | readFails | openClient | writeResponse | closeClient | advance =>
    exact onTheWay.server_step requests rules calm (by simp) (next_moves step)

theorem OnTheWay.initial : OnTheWay v pop State.initial where
  expects := fun _ _ => trivial
  held := by rintro name ⟨⟩

theorem calm_bookkeeping (reach : (calmService v pop).Reachable s) :
    OnTheWay v pop s ∧ Requests pop s ∧ Responses s := by
  have known : ∀ r, (calmService v pop).Reachable r → Requests pop r ∧ Responses r := fun r reach =>
    reachable_bookkeeping (restrict_reachable (restrict_reachable reach))
  refine ⟨?_, known s reach⟩
  refine reach.invariant_of known ?_ ?_
  · rintro _ rfl
    exact OnTheWay.initial
  · exact fun act r t known onTheWay step => onTheWay.step known.1 step

/-! ## Something can happen -/

theorem client_moves (client : r ∈ pop.clients) (step : clientStep v r s = some t) :
    (calmService v pop).step (.client r.pid) s t := by
  refine ⟨trivial, trivial, ?_⟩
  change (pop.request r.pid).bind _ = some t
  rw [pop.request_of_mem client]
  exact step

/-- A server with a request to serve can go on, or the client whose FIFO it is to open can. -/
theorem server_moves (requests : Requests pop s)
    (busy : s.server.pc ≠ .read ∨ s.requests ≠ []) :
    ∃ act t, (calmService v pop).step act s t := by
  cases pc : s.server.pc with
  | read =>
    obtain ⟨first, rest, queue⟩ := List.exists_cons_of_ne_nil (busy.resolve_left (not_not.mpr pc))
    have step : serverStep v .readRequest s = some { s with
        server := { s.server with pc := .openFifo, req := first }, requests := rest } := by
      simp only [serverStep, pc, queue]
    exact ⟨.readRequest, _, trivial, trivial, step⟩
  | openFifo =>
    have client := requests.known _ (current_mem_sent (by simp [pc]))
    by_cases early : (s.clients s.server.req.pid).pc = .openFifo
    · exact ⟨_, _, client_moves client (by simp only [clientStep, early]; exact rfl)⟩
    · have step : serverStep v (.openClient (s.hasReader pop (clientFifo s.server.req.pid))) s =
          some (openClient v (s.hasReader pop (clientFifo s.server.req.pid)) s) := by
        simp only [serverStep, pc]
      exact ⟨.openClient _, _, early, rfl, step⟩
  | write =>
    have step : ∃ ok t, FifoRules pop (.writeResponse ok) s ∧
        serverStep v (.writeResponse ok) s = some t := by
      cases fd : s.server.clientFd with
      | none =>
        refine ⟨false, { s with server := { s.server with pc := .close } }, ?_, ?_⟩
        · simp only [FifoRules, fd]
        · simp only [serverStep, pc, writeResponse]
      | some name =>
        cases reader : s.hasReader pop name with
        | false =>
          refine ⟨false, { s with server := { s.server with pc := .close } }, ?_, ?_⟩
          · simp only [FifoRules, fd, reader]
          · simp only [serverStep, pc, writeResponse]
        | true =>
          have written : ∃ t, serverStep v (.writeResponse true) s = some t := by
            simp only [serverStep, pc, writeResponse, fd]
            exact ⟨_, rfl⟩
          obtain ⟨t, step⟩ := written
          refine ⟨true, t, ?_, step⟩
          simp only [FifoRules, fd, reader]
    obtain ⟨ok, t, rules, step⟩ := step
    exact ⟨.writeResponse ok, t, trivial, rules, step⟩
  | close =>
    have step : serverStep v .closeClient s =
        some { s with server := { s.server with pc := .advance, clientFd := none } } := by
      simp only [serverStep, pc]
    exact ⟨.closeClient, _, trivial, trivial, step⟩
  | advance =>
    have step : serverStep v .advance s = some { s with server :=
        { s.server with seqNum := addInt s.server.seqNum s.server.req.seqLen } }.toLoopHead := by
      simp only [serverStep, pc]
    exact ⟨.advance, _, trivial, trivial, step⟩

theorem Awaiting.busy (awaiting : Awaiting s r) : s.server.pc ≠ .read ∨ s.requests ≠ [] := by
  rcases awaiting with queued | ⟨place, -⟩
  · exact Or.inr (List.ne_nil_of_mem queued)
  · exact Or.inl (by simp [place])

theorem OnTheWay.moves (onTheWay : OnTheWay v pop s) (requests : Requests pop s)
    (client : r ∈ pop.clients) (waits : (s.clients r.pid).pc ≠ .exited) :
    ∃ act t, (calmService v pop).step act s t := by
  have expects := onTheWay.expects r client
  cases pc : (s.clients r.pid).pc with
  | mkfifo | send | openFifo =>
    exact ⟨_, _, client_moves client (by simp only [clientStep, pc]; exact rfl)⟩
  | opening =>
    rw [pc] at expects
    exact server_moves requests expects.2.busy
  | read =>
    rw [pc] at expects
    rcases expects with there | ⟨place, -⟩ | ⟨-, awaiting⟩
    · obtain ⟨n, rest, response⟩ := List.exists_cons_of_ne_nil there
      exact ⟨_, _, client_moves client (by simp only [clientStep, pc, response]; exact rfl)⟩
    · exact server_moves requests (Or.inl (by simp [place]))
    · exact server_moves requests awaiting.busy
  | exited => exact absurd pc waits

/-! ## What is left to do -/

def ClientPc.left : ClientPc → Nat
  | .mkfifo => 10
  | .send => 9
  | .openFifo => 3
  | .opening => 2
  | .read => 1
  | .exited => 0

def ServerPc.left : ServerPc → Nat
  | .read => 0
  | .openFifo => 4
  | .write => 3
  | .close => 2
  | .advance => 1

def State.left (pop : Population) (s : State) : Nat :=
  (pop.clients.map fun r => (s.clients r.pid).pc.left).sum + 5 * s.requests.length +
    s.server.pc.left

theorem sum_drop {l : List Request} {f g : Request → Nat} {k : Nat} (le : ∀ x ∈ l, g x ≤ f x)
    (member : r ∈ l) (drop : g r + k ≤ f r) : (l.map g).sum + k ≤ (l.map f).sum := by
  induction l with
  | nil => exact absurd member List.not_mem_nil
  | cons x l ih =>
    have first := le x List.mem_cons_self
    have others := fun y member => le y (List.mem_cons_of_mem x member)
    have rest : (l.map g).sum ≤ (l.map f).sum := List.sum_le_sum others
    rw [List.map_cons, List.map_cons, List.sum_cons, List.sum_cons]
    rcases List.mem_cons.mp member with rfl | later
    · omega
    · have less := ih others later
      omega

theorem left_setClient {c : Client} {k : Nat} (client : r ∈ pop.clients)
    (drop : c.pc.left + k ≤ (s.clients r.pid).pc.left) :
    (pop.clients.map fun r' => ((s.setClient r.pid c).clients r'.pid).pc.left).sum + k ≤
      (pop.clients.map fun r' => (s.clients r'.pid).pc.left).sum := by
  refine sum_drop ?_ client ?_
  · intro r' _
    by_cases self : r'.pid = r.pid
    · rw [self, setClient_self]
      omega
    · exact Nat.le_of_eq (by rw [setClient_other s c self])
  · rwa [setClient_self]

theorem clientStep_left (client : r ∈ pop.clients) (step : clientStep v r s = some t) :
    t.left pop < s.left pop := by
  have set (s : State) {c : Client} (k : Nat) (drop : c.pc.left + k ≤ (s.clients r.pid).pc.left) :
      (s.setClient r.pid c).left pop + k ≤ s.left pop := by
    have less := left_setClient (s := s) client drop
    simp only [State.left, State.setClient] at less ⊢
    omega
  cases pc : (s.clients r.pid).pc with
  | mkfifo =>
    simp only [clientStep, pc] at step
    cases step
    exact set s 1 (by rw [pc]; exact Nat.le_refl 10)
  | send =>
    simp only [clientStep, pc] at step
    cases step
    have less := set { s with requests := s.requests ++ [r] }
      (c := { s.clients r.pid with pc := .openFifo }) 6 (by rw [pc]; exact Nat.le_refl 9)
    have longer : State.left pop { s with requests := s.requests ++ [r] } = s.left pop + 5 := by
      simp only [State.left, List.length_append, List.length_singleton]
      omega
    dsimp only at less ⊢
    omega
  | openFifo =>
    simp only [clientStep, pc] at step
    cases step
    refine set s 1 ?_
    rw [pc]
    split
    · exact Nat.le_succ_of_le (Nat.le_refl 2)
    · exact Nat.le_refl 3
  | opening => simp [clientStep, pc] at step
  | read =>
    simp only [clientStep, pc] at step
    split at step
    · cases step
      exact set _ 1 (by change 0 + 1 ≤ (s.clients r.pid).pc.left; rw [pc]; exact Nat.le_refl 1)
    · split at step
      · cases step
        exact set s 1 (by rw [pc]; exact Nat.le_refl 1)
      · cases step
  | exited => simp [clientStep, pc] at step

/-- The server wakes clients, so they have no more to do than before. -/
theorem left_wake (pop : Population) (s : State) (name : String) :
    (pop.clients.map fun r => (wake name s.clients r.pid).pc.left).sum ≤
      (pop.clients.map fun r => (s.clients r.pid).pc.left).sum := by
  refine List.sum_le_sum ?_
  intro r _
  rcases wake_pc name s.clients r.pid with same | ⟨-, waits, woken⟩
  · rw [same]
  · rw [waits, woken]
    exact Nat.le_succ 1

theorem serverStep_left (calm : Calm act s) (server : ∀ pid, act ≠ .client pid ∧ act ≠ .killed pid)
    (step : Moves v pop s act t) : t.left pop < s.left pop := by
  cases step with
  | readRequest pc queue =>
    simp only [State.left, pc, queue, ServerPc.left, List.length_cons]
    omega
  | readFails => exact calm.elim
  | opened pc =>
    have less := left_wake pop s (clientFifo s.server.req.pid)
    simp only [State.left, pc, ServerPc.left]
    omega
  | gaveUp pc | wentOn pc | wrote pc | writeFailed pc | closed pc | advanced pc =>
    simp only [State.left, State.toLoopHead, pc, ServerPc.left]
    omega
  | @created pid | @opens pid | @received pid => exact absurd rfl (server pid).1
  | @sent r => exact absurd rfl (server r.pid).1
  | @ended _ pid side =>
    rcases side with rfl | rfl
    · exact absurd rfl (server pid).1
    · exact absurd rfl (server pid).2

theorem step_left (step : (calmService v pop).step act s t) : t.left pop < s.left pop := by
  obtain ⟨calm, -, step⟩ := step
  cases act with
  | client pid =>
    obtain ⟨r, found, moved⟩ := Option.bind_eq_some_iff.mp step
    exact clientStep_left (List.mem_of_find?_eq_some found) moved
  | killed => exact calm.elim
  | readRequest | readFails | openClient | writeResponse | closeClient | advance =>
    exact serverStep_left calm (by simp) (next_moves step)

end

/-- When nobody is killed and every client FIFO is opened in time, each client comes to its end
with exactly one response. -/
theorem every_client_served (v : Version) (pop : Population) {s : State}
    (reach : (calmService v pop).Reachable s) :
    Inevitable (calmService v pop)
      (fun t : State => ∀ r ∈ pop.clients,
        (t.clients r.pid).pc = .exited ∧ ∃ n, (t.clients r.pid).received = [n]) s := by
  have ends : Inevitable (calmService v pop)
      (fun t : State => ∀ r ∈ pop.clients, (t.clients r.pid).pc = .exited) s := by
    refine Inevitable.of_measure (calmService v pop).Reachable Nat.lt_wfRel.wf (State.left pop) ?_ ?_
      s reach
    · intro t reach unfinished
      obtain ⟨onTheWay, requests, -⟩ := calm_bookkeeping reach
      have waiting : ∃ r ∈ pop.clients, (t.clients r.pid).pc ≠ .exited := by
        by_contra all
        refine unfinished fun r client => ?_
        by_contra waits
        exact all ⟨r, client, waits⟩
      obtain ⟨r, client, waits⟩ := waiting
      exact onTheWay.moves requests client waits
    · exact fun act r t reach step => ⟨reach.next step, step_left step⟩
  refine ends.mono ?_
  intro t run exited r client
  obtain ⟨onTheWay, -, responses⟩ := calm_bookkeeping (reach.run run)
  have place := exited r client
  have expects := onTheWay.expects r client
  rw [place] at expects
  obtain ⟨n, rest, received⟩ := List.exists_cons_of_ne_nil expects
  have single := (responses.single r.pid).1
  rw [received, List.length_cons] at single
  have nothing : rest = [] := List.eq_nil_of_length_eq_zero (by omega)
  exact ⟨place, n, by rw [received, nothing]⟩

private def waitingClients : Population where
  clients := [⟨7, 1⟩, ⟨8, 1⟩]
  distinct := by decide
  positive := by decide

/-- Client 8 is in its `open` when the server reads the request of client 7. -/
private def sevenFirst : List Act :=
  [.client 7, .client 8, .client 7, .client 8, .client 8, .readRequest]

theorem waiting_client_served :
    ∃ s, (s.clients 8).pc = .opening ∧ s.server.pc = .openFifo ∧
      Inevitable (calmService .blocking waitingClients)
        (fun t : State => ∀ r ∈ waitingClients.clients,
          (t.clients r.pid).pc = .exited ∧ ∃ n, (t.clients r.pid).received = [n]) s := by
  have waits : (follow (guarded (fun act s => Calm act s ∧ FifoRules waitingClients act s)
      (next .blocking waitingClients)) sevenFirst State.initial).map
      (fun s => ((s.clients 8).pc, s.server.pc)) = some (.opening, .openFifo) := by
    decide +kernel
  obtain ⟨s, run, same⟩ := Option.map_eq_some_iff.mp waits
  obtain ⟨opening, place⟩ := Prod.mk.inj same
  have reach : (calmService .blocking waitingClients).Reachable s := by
    rw [calmService, fifoService, restrict_restrict]
    exact (Reachable.initial rfl).run (follow_guarded_run run)
  exact ⟨s, opening, place, every_client_served .blocking waitingClients reach⟩

end SequenceNumbers
