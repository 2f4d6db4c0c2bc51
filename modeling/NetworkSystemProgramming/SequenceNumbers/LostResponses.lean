import NetworkSystemProgramming.SequenceNumbers.Responses

/-!
# Responses that are lost

A client creates its FIFO before it sends the request, so that the server finds it;
but an `open` for writing with `O_NONBLOCK` fails as long as nobody has the FIFO open
for reading, and the client opens it only after the request is sent.
-/

namespace SequenceNumbers

open StepSystems StepSystem

variable {v : Version} {pop : Population} {act : Act} {s t : State}

/-- The client has its FIFO open for reading, or is waiting in `open` for a writer: the
kernel counts both as readers. -/
def ClientPc.reading : ClientPc → Bool
  | .opening => true
  | .read => true
  | _ => false

/-- A FIFO has a reader. -/
def State.hasReader (pop : Population) (s : State) (name : String) : Bool :=
  pop.clients.any fun r => (s.clients r.pid).pc.reading && clientFifo r.pid == name

/-- The kernel's rules for FIFOs: ENXIO without a reader, EPIPE once the reader is gone. -/
def FifoRules (pop : Population) (act : Act) (s : State) : Prop :=
  match act with
  | .openClient ok => ok = s.hasReader pop (clientFifo s.server.req.pid)
  | .writeResponse ok => ok = match s.server.clientFd with
    | some name => s.hasReader pop name
    | none => false
  | _ => True

instance (pop : Population) (act : Act) (s : State) : Decidable (FifoRules pop act s) :=
  match act with
  | .openClient _ => inferInstanceAs (Decidable (_ = _))
  | .writeResponse _ => inferInstanceAs (Decidable (_ = _))
  | .readRequest | .readFails | .closeClient | .advance | .client _ | .killed _ => .isTrue trivial

/-- The server and well-behaved clients on FIFOs with these rules. -/
def fifoService (v : Version) (pop : Population) : StepSystem State Act :=
  (service v pop).restrict (FifoRules pop)

/-- The client will wait, or is waiting, for a response. -/
def ClientPc.waits : ClientPc → Prop
  | .openFifo => True
  | .opening => True
  | .read => True
  | _ => False

/-- The server is done with the request of the client, has delivered nothing for it,
and the client is still going to wait. -/
def Lost (s : State) (pid : Nat) : Prop :=
  (∃ r ∈ s.handled, r.pid = pid) ∧ (∀ d ∈ s.delivered, d.request.pid ≠ pid) ∧
    (s.clients pid).pc.waits

/-- The server opens a client FIFO only after the client has begun to open it. -/
def OpenedInTime (act : Act) (s : State) : Prop :=
  match act with
  | .openClient _ => (s.clients s.server.req.pid).pc ≠ .openFifo
  | _ => True

instance (act : Act) (s : State) : Decidable (OpenedInTime act s) :=
  match act with
  | .openClient _ => inferInstanceAs (Decidable (_ ≠ _))
  | .readRequest | .readFails | .writeResponse _ | .closeClient | .advance | .client _ | .killed _ =>
    .isTrue trivial

/-- The request at hand, or one that the server is done with, was answered unless its
client is gone. -/
def Settled (s : State) (r : Request) : Prop :=
  (s.clients r.pid).pc = .exited ∨ ∃ d ∈ s.delivered, d.request.pid = r.pid

structure InTime (s : State) : Prop where
  handled : ∀ r ∈ s.handled, Settled s r
  closing : s.server.pc = .close ∨ s.server.pc = .advance → Settled s s.server.req
  writing : s.server.pc = .write → (s.clients s.server.req.pid).pc = .exited ∨
    (s.clients s.server.req.pid).pc = .read ∧
      s.server.clientFd = some (clientFifo s.server.req.pid)

theorem hasReader_iff {name : String} : s.hasReader pop name = true ↔
    ∃ r ∈ pop.clients, (s.clients r.pid).pc.reading = true ∧ clientFifo r.pid = name := by
  simp [State.hasReader]

/-- The only reader of a client FIFO is its client. -/
theorem hasReader_own {r : Request} (client : r ∈ pop.clients) :
    s.hasReader pop (clientFifo r.pid) = (s.clients r.pid).pc.reading := by
  by_cases reads : (s.clients r.pid).pc.reading = true
  · rw [reads]
    exact hasReader_iff.mpr ⟨r, client, reads, rfl⟩
  · rw [Bool.not_eq_true] at reads
    rw [reads, ← Bool.not_eq_true, hasReader_iff]
    rintro ⟨r', _, reads', name⟩
    rw [clientFifo_injective name, reads] at reads'
    cases reads'

/-- A client whose request has been read and that is not yet at its `open` reads from
its FIFO or is gone. -/
theorem ClientPc.after_open {pc : ClientPc} (sent : pc.hasSent) (past : pc ≠ .openFifo) :
    pc.reading = true ∨ pc = .exited := by
  cases pc with
  | mkfifo => cases sent
  | send => cases sent
  | openFifo => exact absurd rfl past
  | opening => exact Or.inl rfl
  | read => exact Or.inl rfl
  | exited => exact Or.inr rfl

theorem Settled.of_setClient {pid : Nat} {c : Client} {r : Request} (settled : Settled s r)
    (ends : (s.clients pid).pc = .exited → c.pc = .exited) :
    Settled (s.setClient pid c) r := by
  rcases settled with gone | answered
  · left
    by_cases self : r.pid = pid
    · rw [self, setClient_self]
      exact ends (self ▸ gone)
    · rw [setClient_other s c self]
      exact gone
  · exact Or.inr answered

theorem InTime.of_setClient {pid : Nat} {c : Client} (inTime : InTime s)
    (ends : (s.clients pid).pc = .exited ∨ (s.clients pid).pc = .read → c.pc = .exited) :
    InTime (s.setClient pid c) := by
  constructor
  · intro r hr
    exact (inTime.handled r hr).of_setClient (fun gone => ends (Or.inl gone))
  · intro pc
    exact (inTime.closing pc).of_setClient (fun gone => ends (Or.inl gone))
  · intro pc
    by_cases self : s.server.req.pid = pid
    · left
      change ((s.setClient pid c).clients s.server.req.pid).pc = .exited
      rw [self, setClient_self]
      rcases inTime.writing pc with gone | ⟨reads, -⟩
      · exact ends (Or.inl (self ▸ gone))
      · exact ends (Or.inr (self ▸ reads))
    · change ((s.setClient pid c).clients s.server.req.pid).pc = .exited ∨
        ((s.setClient pid c).clients s.server.req.pid).pc = .read ∧ _
      rw [setClient_other s c self]
      exact inTime.writing pc

/-- The client of the request at hand is the only reader of the FIFO that the server opens. -/
theorem Requests.current_reader (requests : Requests pop s) (busy : s.server.pc ≠ .read) :
    s.hasReader pop (clientFifo s.server.req.pid) =
      (s.clients s.server.req.pid).pc.reading :=
  hasReader_own (requests.known _ (current_mem_sent busy))

/-- What the rules say of an `open` that fails although the client has begun its own. -/
theorem Requests.gone_of_failed (requests : Requests pop s) (pc : s.server.pc = .openFifo)
    (rules : FifoRules pop (.openClient false) s) (allowed : OpenedInTime (.openClient false) s) :
    (s.clients s.server.req.pid).pc = .exited := by
  have busy : s.server.pc ≠ .read := by simp [pc]
  rcases ClientPc.after_open (requests.past _ (current_mem_sent busy)) allowed with reads | gone
  · have reader := requests.current_reader busy
    rw [reads, ← rules] at reader
    cases reader
  · exact gone

/-- Step lemma: while every client FIFO is opened in time, every request is settled when
the server is done with it. -/
theorem InTime.step (requests : Requests pop s) (inTime : InTime s)
    (step : Moves v pop s act t) (rules : FifoRules pop act s) (allowed : OpenedInTime act s) :
    InTime t := by
  cases step with
  | readRequest pc queue =>
    refine ⟨inTime.handled, ?_, ?_⟩
    · rintro (other | other) <;> cases other
    · intro other
      cases other
  | readFails => exact inTime
  | opened pc =>
    have reads : (s.clients s.server.req.pid).pc.reading = true := by
      rw [← requests.current_reader (by simp [pc])]
      exact rules.symm
    refine ⟨?_, ?_, ?_⟩
    · intro r hr
      rcases inTime.handled r hr with gone | answered
      · left
        simp [wake, gone]
      · exact Or.inr answered
    · rintro (other | other) <;> cases other
    · intro _
      refine Or.inr ⟨?_, rfl⟩
      cases client : (s.clients s.server.req.pid).pc <;>
        simp [client, ClientPc.reading] at reads <;> simp [wake, client]
  | gaveUp pc =>
    refine ⟨?_, ?_, ?_⟩
    · intro r hr
      rcases List.mem_append.mp hr with old | new
      · exact inTime.handled r old
      · obtain rfl : r = s.server.req := List.mem_singleton.mp new
        exact Or.inl (requests.gone_of_failed pc rules allowed)
    · rintro (other | other) <;> cases other
    · intro other
      cases other
  | wentOn pc =>
    refine ⟨inTime.handled, ?_, ?_⟩
    · rintro (other | other) <;> cases other
    · intro _
      exact Or.inl (requests.gone_of_failed pc rules allowed)
  | @wrote name pc fd =>
    refine ⟨?_, ?_, ?_⟩
    · intro r hr
      rcases inTime.handled r hr with gone | ⟨d, hd, own⟩
      · exact Or.inl gone
      · exact Or.inr ⟨d, List.mem_append_left _ hd, own⟩
    · intro _
      exact Or.inr ⟨_, List.mem_append_right _ (List.mem_singleton_self _), rfl⟩
    · intro other
      cases other
  | writeFailed pc =>
    refine ⟨inTime.handled, ?_, ?_⟩
    · intro _
      rcases inTime.writing pc with gone | ⟨reads, fd⟩
      · exact Or.inl gone
      · -- a reader is there, so the rules let the `write` succeed
        have reader := requests.current_reader (by simp [pc])
        simp only [FifoRules, fd, reader, reads, ClientPc.reading] at rules
        cases rules
    · intro other
      cases other
  | closed pc =>
    refine ⟨inTime.handled, ?_, ?_⟩
    · intro _
      exact inTime.closing (Or.inl pc)
    · intro other
      cases other
  | advanced pc =>
    refine ⟨?_, ?_, ?_⟩
    · intro r hr
      rcases List.mem_append.mp hr with old | new
      · exact inTime.handled r old
      · obtain rfl : r = s.server.req := List.mem_singleton.mp new
        exact inTime.closing (Or.inr pc)
    · rintro (other | other) <;> cases other
    · intro other
      cases other
  | created pc => exact inTime.of_setClient (by simp [pc])
  | @sent r client pc =>
    have same : InTime { s with requests := s.requests ++ [r] } :=
      ⟨inTime.handled, inTime.closing, inTime.writing⟩
    exact same.of_setClient (by simp [pc])
  | opens pc => exact inTime.of_setClient (by simp [pc])
  | @received pid n rest pc response =>
    have same : InTime { s with fifo := Function.update s.fifo (clientFifo pid) rest } :=
      ⟨inTime.handled, inTime.closing, inTime.writing⟩
    exact same.of_setClient (fun _ => rfl)
  | ended => exact inTime.of_setClient (fun _ => rfl)

/-- In a run in which every client FIFO is opened in time no response is lost. -/
theorem no_response_lost_in_time (v : Version) (pop : Population) {s : State}
    (reach : ((fifoService v pop).restrict OpenedInTime).Reachable s) (pid : Nat) :
    ¬ Lost s pid := by
  obtain ⟨-, inTime⟩ : Requests pop s ∧ InTime s := by
    refine reach.invariant (I := fun s => Requests pop s ∧ InTime s) ?_ ?_
    · rintro _ rfl
      refine ⟨Requests.start, ⟨fun _ hr => absurd hr List.not_mem_nil, ?_, ?_⟩⟩
      · rintro (other | other) <;> cases other
      · intro other
        cases other
    · rintro act s t ⟨requests, inTime⟩ ⟨allowed, rules, h⟩
      have step := next_moves h
      exact ⟨requests.step step, inTime.step requests step rules allowed⟩
  rintro ⟨⟨r, hr, rfl⟩, undelivered, waits⟩
  rcases inTime.handled r hr with gone | ⟨d, hd, own⟩
  · rw [gone] at waits
    cases waits
  · exact undelivered d hd own

private def oneClient : Population where
  clients := [⟨7, 3⟩]
  distinct := by decide
  positive := by decide

theorem response_in_time_arrives :
    ∃ s, ((fifoService .nonblocking oneClient).restrict OpenedInTime).Reachable s ∧
      (s.clients 7).received = [0] ∧ ¬ Lost s 7 := by
  have served : (follow (guarded (fun act s => OpenedInTime act s ∧ FifoRules oneClient act s)
      (next .nonblocking oneClient))
      [.client 7, .client 7, .readRequest, .client 7, .openClient true, .writeResponse true,
        .client 7]
      State.initial).map (fun s => (s.clients 7).received) = some [0] := by decide +kernel
  obtain ⟨s, hs, received⟩ := Option.map_eq_some_iff.mp served
  have reach : ((fifoService .nonblocking oneClient).restrict OpenedInTime).Reachable s := by
    rw [fifoService, restrict_restrict]
    exact (Reachable.initial rfl).run (follow_guarded_run hs)
  exact ⟨s, reach, received, no_response_lost_in_time .nonblocking oneClient reach 7⟩

/-- The condition cannot be weakened: an `open` that comes too early loses the response
of a client that goes on to wait for it. -/
theorem early_open_loses (v : Version) (pop : Population) {s : State}
    (reach : (fifoService v pop).Reachable s) (pc : s.server.pc = .openFifo)
    (early : (s.clients s.server.req.pid).pc = .openFifo) :
    ∃ t, (fifoService v pop).Run s t ∧ Lost t s.server.req.pid := by
  obtain ⟨requests, responses⟩ := reachable_bookkeeping (restrict_reachable reach)
  have no_reader : s.hasReader pop (clientFifo s.server.req.pid) = false := by
    rw [requests.current_reader (by simp [pc]), early]
    rfl
  have undelivered : ∀ d ∈ s.delivered, d.request.pid ≠ s.server.req.pid := by
    intro d hd same
    have settled := responses.answered.subset (List.mem_map_of_mem hd)
    rw [State.settled, pc] at settled
    have earlier : s.server.req.pid ∈ s.handled.map Request.pid :=
      same ▸ List.mem_map_of_mem (by simpa [ServerPc.settled] using settled)
    have once := requests.once
    rw [State.sent, current_busy (by simp [pc]), List.append_assoc, List.map_append,
      List.nodup_append] at once
    exact once.2.2 _ earlier _ (by simp) rfl
  have waits : (s.clients s.server.req.pid).pc.waits := by
    rw [early]
    trivial
  cases v with
  | blocking =>
    refine ⟨s.toLoopHead, Run.snoc (l := .openClient false) (Run.refl s) ?_, ?_⟩
    · refine ⟨no_reader.symm, ?_⟩
      simp [service, ofNext, next, serverStep, pc, openClient]
    · exact ⟨⟨s.server.req, by simp [State.toLoopHead], rfl⟩, undelivered, waits⟩
  | nonblocking =>
    let s1 : State := { s with server := { s.server with pc := .write, clientFd := none } }
    let s2 : State := { s1 with server := { s1.server with pc := .close } }
    let s3 : State := { s2 with server := { s2.server with pc := .advance, clientFd := none } }
    let s4 : State := { s3 with server :=
      { s3.server with seqNum := addInt s3.server.seqNum s3.server.req.seqLen } }.toLoopHead
    have opened : (fifoService .nonblocking pop).step (.openClient false) s s1 := by
      refine ⟨no_reader.symm, ?_⟩
      simp [service, ofNext, next, serverStep, pc, openClient, s1]
    have written : (fifoService .nonblocking pop).step (.writeResponse false) s1 s2 := ⟨rfl, rfl⟩
    have closed : (fifoService .nonblocking pop).step .closeClient s2 s3 := ⟨trivial, rfl⟩
    have advanced : (fifoService .nonblocking pop).step .advance s3 s4 := ⟨trivial, rfl⟩
    have run := Run.cons opened (Run.cons written (Run.cons closed (Run.cons advanced (Run.refl _))))
    refine ⟨s4, run, ?_⟩
    exact ⟨⟨s.server.req, by simp [s4, s3, s2, s1, State.toLoopHead], rfl⟩, undelivered, waits⟩

/-- The server opens the FIFO between the client's `write` and its `open`. -/
theorem response_lost_in_both_versions :
    (∃ s, (fifoService .blocking oneClient).Reachable s ∧ Lost s 7) ∧
      ∃ s, (fifoService .nonblocking oneClient).Reachable s ∧ Lost s 7 := by
  have lost : ∀ s : State, (s.handled, s.delivered.length, (s.clients 7).pc) =
      ([⟨7, 3⟩], 0, .openFifo) → Lost s 7 := by
    intro s facts
    obtain ⟨handled, delivered, pc⟩ :
        s.handled = [⟨7, 3⟩] ∧ s.delivered = [] ∧ (s.clients 7).pc = .openFifo := by
      simpa using facts
    refine ⟨⟨⟨7, 3⟩, by simp [handled], rfl⟩, ?_, ?_⟩
    · intro d hd
      rw [delivered] at hd
      cases hd
    · rw [pc]
      trivial
  have first : (follow (guarded (FifoRules oneClient) (next .blocking oneClient))
      [.client 7, .client 7, .readRequest, .openClient false] State.initial).map
        (fun s => (s.handled, s.delivered.length, (s.clients 7).pc)) =
      some ([⟨7, 3⟩], 0, .openFifo) := by decide +kernel
  have second : (follow (guarded (FifoRules oneClient) (next .nonblocking oneClient))
      [.client 7, .client 7, .readRequest, .openClient false, .writeResponse false, .closeClient,
        .advance] State.initial).map (fun s => (s.handled, s.delivered.length, (s.clients 7).pc)) =
      some ([⟨7, 3⟩], 0, .openFifo) := by decide +kernel
  obtain ⟨s, hs, facts⟩ := Option.map_eq_some_iff.mp first
  obtain ⟨t, ht, facts'⟩ := Option.map_eq_some_iff.mp second
  exact ⟨⟨s, (Reachable.initial rfl).run (follow_guarded_run hs), lost s facts⟩,
    ⟨t, (Reachable.initial rfl).run (follow_guarded_run ht), lost t facts'⟩⟩

end SequenceNumbers
