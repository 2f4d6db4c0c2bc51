import NetworkSystemProgramming.SequenceNumbers.LostResponses

/-!
# Abnormal clients

`fifo_seqnum_client_abnormal.c` sends a request and never opens its FIFO, so the `read` of
the response fails and the client ends. The server of 44-6 opens the FIFO with `O_NONBLOCK`,
finds no reader and goes on with the next request: it serves the other clients as if the
abnormal ones had not been there.
-/

namespace SequenceNumbers

open StepSystems StepSystem

/-- The clients without the abnormal ones. -/
def Population.without (pop : Population) (abnormal : Nat → Bool) : Population where
  clients := pop.clients.filter (!abnormal ·.pid)
  distinct := pop.distinct.sublist (List.filter_sublist.map Request.pid)
  positive r member := pop.positive r (List.mem_of_mem_filter member)

/-- An abnormal client is gone before the `open` of its FIFO. -/
def NeverOpens (abnormal : Nat → Bool) (act : Act) (s : State) : Prop :=
  match act with
  | .client pid => abnormal pid = true → (s.clients pid).pc ≠ .openFifo
  | _ => True

instance (abnormal : Nat → Bool) (act : Act) (s : State) : Decidable (NeverOpens abnormal act s) :=
  match act with
  | .client _ => inferInstanceAs (Decidable (_ → _ ≠ _))
  | .readRequest | .readFails | .openClient _ | .writeResponse _ | .closeClient | .advance
  | .killed _ => .isTrue trivial

/-- The server among clients of which some are abnormal. -/
def mixedService (v : Version) (pop : Population) (abnormal : Nat → Bool) : StepSystem State Act :=
  (fifoService v pop).restrict (NeverOpens abnormal)

/-- `a` is what is left of `s` without the abnormal clients. -/
structure Without (abnormal : Nat → Bool) (s a : State) : Prop where
  clients : ∀ pid, abnormal pid = false → a.clients pid = s.clients pid
  requests : a.requests = s.requests.filter (!abnormal ·.pid)
  handled : a.handled = s.handled.filter (!abnormal ·.pid)
  fifo : a.fifo = s.fifo
  delivered : a.delivered = s.delivered
  seqNum : a.server.seqNum = s.server.seqNum
  clientFd : a.server.clientFd = s.server.clientFd

/-- The two servers: either both work on the same request, or the one without abnormal
clients is at its loop head, the other too or at the request of an abnormal client. -/
inductive SamePlace (abnormal : Nat → Bool) (s a : Server) : Prop
  | reading (here : s.pc = .read ∨ s.pc = .openFifo ∧ abnormal s.req.pid = true)
      (there : a.pc = .read) (closed : s.clientFd = none)
  | busy (place : s.pc ≠ .read) (normal : abnormal s.req.pid = false) (same : a = s)

structure Erased (abnormal : Nat → Bool) (s a : State) : Prop where
  without : Without abnormal s a
  server : SamePlace abnormal s.server a.server
  unread : ∀ pid, abnormal pid = true → (s.clients pid).pc.reading = false

section
variable {pop : Population} {abnormal : Nat → Bool} {s a t : State}

theorem without_request {pid : Nat} (normal : abnormal pid = false) :
    (pop.without abnormal).request pid = pop.request pid := by
  rw [Population.request, Population.request, Population.without, List.find?_filter]
  congr 1
  funext r
  by_cases own : r.pid = pid
  · simp [own, normal]
  · simp [own]

/-- The FIFOs have the same readers. -/
theorem Erased.hasReader (h : Erased abnormal s a) (name : String) :
    a.hasReader (pop.without abnormal) name = s.hasReader pop name := by
  rw [Bool.eq_iff_iff, hasReader_iff, hasReader_iff]
  constructor
  · rintro ⟨r, member, reads, own⟩
    obtain ⟨client, normal⟩ := List.mem_filter.mp member
    rw [h.without.clients r.pid (by simpa using normal)] at reads
    exact ⟨r, client, reads, own⟩
  · rintro ⟨r, client, reads, own⟩
    have normal : abnormal r.pid = false := by
      by_contra other
      rw [Bool.not_eq_false] at other
      rw [h.unread r.pid other] at reads
      cases reads
    refine ⟨r, List.mem_filter.mpr ⟨client, by simpa using normal⟩, ?_, own⟩
    rwa [h.without.clients r.pid normal]

theorem Erased.rules (h : Erased abnormal s a) {act : Act} (rules : FifoRules pop act s)
    (req : act = .openClient true ∨ act = .openClient false → a.server.req = s.server.req) :
    FifoRules (pop.without abnormal) act a := by
  cases act with
  | openClient ok =>
    have same : a.server.req = s.server.req := by
      cases ok with
      | true => exact req (Or.inl rfl)
      | false => exact req (Or.inr rfl)
    have reader : a.hasReader (pop.without abnormal) (clientFifo s.server.req.pid) =
        s.hasReader pop (clientFifo s.server.req.pid) := h.hasReader _
    change ok = _
    rw [same, reader]
    exact rules
  | writeResponse ok =>
    simp only [FifoRules, h.without.clientFd, h.hasReader]
    exact rules
  | _ => trivial

theorem Erased.setClient {pid : Nat} (h : Erased abnormal s a) (normal : abnormal pid = false)
    (c : Client) : Erased abnormal (s.setClient pid c) (a.setClient pid c) := by
  obtain ⟨without, server, unread⟩ := h
  refine ⟨⟨?_, without.requests, without.handled, without.fifo, without.delivered, without.seqNum,
    without.clientFd⟩, server, ?_⟩
  · intro other kept
    by_cases self : other = pid
    · rw [self, setClient_self, setClient_self]
    · rw [setClient_other _ c self, setClient_other _ c self, without.clients other kept]
  · intro other gone
    have differs : other ≠ pid := by
      rintro rfl
      rw [normal] at gone
      cases gone
    rw [setClient_other _ c differs]
    exact unread other gone

/-- What an abnormal client does is not seen. -/
theorem Erased.setAbnormal {pid : Nat} (h : Erased abnormal s a) (gone : abnormal pid = true)
    {c : Client} (unread : c.pc.reading = false) : Erased abnormal (s.setClient pid c) a := by
  obtain ⟨without, server, others⟩ := h
  refine ⟨⟨?_, without.requests, without.handled, without.fifo, without.delivered, without.seqNum,
    without.clientFd⟩, server, ?_⟩
  · intro other kept
    have differs : other ≠ pid := by
      rintro rfl
      rw [kept] at gone
      cases gone
    rw [setClient_other _ c differs, without.clients other kept]
  · intro other gone'
    by_cases self : other = pid
    · rw [self, setClient_self]
      exact unread
    · rw [setClient_other _ c self]
      exact others other gone'

theorem Erased.client_moves {r : Request} (h : Erased abnormal s a)
    (normal : abnormal r.pid = false) (step : clientStep .blocking r s = some t) :
    ∃ b, clientStep .blocking r a = some b ∧ Erased abnormal t b := by
  have own := h.without.clients r.pid normal
  cases pc : (s.clients r.pid).pc with
  | mkfifo =>
    simp only [clientStep, pc] at step
    cases step
    refine ⟨_, by simp only [clientStep, own, pc], h.setClient normal _⟩
  | send =>
    simp only [clientStep, pc] at step
    cases step
    refine ⟨_, by simp only [clientStep, own, pc]; exact rfl, ?_⟩
    have sent : Erased abnormal { s with requests := s.requests ++ [r] }
        { a with requests := a.requests ++ [r] } := by
      obtain ⟨without, server, unread⟩ := h
      refine ⟨⟨without.clients, ?_, without.handled, without.fifo, without.delivered,
        without.seqNum, without.clientFd⟩, server, unread⟩
      simp [without.requests, normal]
    exact sent.setClient normal _
  | openFifo =>
    simp only [clientStep, pc] at step
    cases step
    refine ⟨_, by simp only [clientStep, own, pc, h.without.clientFd]; exact rfl, ?_⟩
    exact h.setClient normal _
  | opening => simp [clientStep, pc] at step
  | read =>
    simp only [clientStep, pc] at step
    split at step
    · rename_i n rest response
      cases step
      refine ⟨_, by simp only [clientStep, own, pc, h.without.fifo, response]; exact rfl, ?_⟩
      have taken : Erased abnormal
          { s with fifo := Function.update s.fifo (clientFifo r.pid) rest }
          { a with fifo := Function.update s.fifo (clientFifo r.pid) rest } := by
        obtain ⟨without, server, unread⟩ := h
        exact ⟨⟨without.clients, without.requests, without.handled, rfl, without.delivered,
          without.seqNum, without.clientFd⟩, server, unread⟩
      exact taken.setClient normal _
    · rename_i empty
      split at step
      · rename_i ended
        cases step
        refine ⟨_, by simp only [clientStep, own, pc, h.without.fifo, empty,
          h.without.clientFd, if_pos ended], h.setClient normal _⟩
      · cases step
  | exited => simp [clientStep, pc] at step

/-- The FIFO of an abnormal client has no reader. -/
theorem Erased.no_reader (h : Erased abnormal s a) {pid : Nat} (gone : abnormal pid = true) :
    s.hasReader pop (clientFifo pid) = false := by
  rw [← Bool.not_eq_true, hasReader_iff]
  rintro ⟨r, -, reads, own⟩
  rw [clientFifo_injective own, h.unread pid gone] at reads
  cases reads

theorem SamePlace.of_busy {s a : Server} (h : SamePlace abnormal s a)
    (place : s.pc = .write ∨ s.pc = .close ∨ s.pc = .advance) :
    abnormal s.req.pid = false ∧ a = s := by
  cases h with
  | reading here =>
    rcases here with here | ⟨here, -⟩
    · simp [here] at place
    · simp [here] at place
  | busy _ normal same => exact ⟨normal, same⟩

/-- What an abnormal client does before its end. -/
theorem Erased.abnormal_moves {r : Request} (h : Erased abnormal s a)
    (gone : abnormal r.pid = true) (never : (s.clients r.pid).pc ≠ .openFifo)
    (step : clientStep .blocking r s = some t) : Erased abnormal t a := by
  have unread := h.unread r.pid gone
  cases pc : (s.clients r.pid).pc with
  | mkfifo =>
    simp only [clientStep, pc] at step
    cases step
    exact h.setAbnormal gone rfl
  | send =>
    simp only [clientStep, pc] at step
    cases step
    have sent : Erased abnormal { s with requests := s.requests ++ [r] } a := by
      obtain ⟨without, server, unread⟩ := h
      refine ⟨⟨without.clients, ?_, without.handled, without.fifo, without.delivered,
        without.seqNum, without.clientFd⟩, server, unread⟩
      simp [without.requests, gone]
    exact sent.setAbnormal gone rfl
  | openFifo => exact absurd pc never
  | opening | read =>
    rw [pc] at unread
    cases unread
  | exited => simp [clientStep, pc] at step

/-- A step of the server is matched by one without the abnormal clients, or by none. -/
theorem Erased.server_moves {act : Act} (h : Erased abnormal s a) (rules : FifoRules pop act s)
    (server : ∀ pid, act ≠ .client pid ∧ act ≠ .killed pid)
    (step : Moves .blocking pop s act t) :
    ∃ b, (fifoService .blocking (pop.without abnormal)).Run a b ∧ Erased abnormal t b := by
  have erased := h
  obtain ⟨without, place, unread⟩ := h
  cases step with
  | @readRequest r rest pc queue =>
    cases place with
    | busy other => exact absurd pc other
    | reading _ there closed =>
      cases gone : abnormal r.pid with
      | true =>
        have requests : a.requests = rest.filter (!abnormal ·.pid) := by
          rw [without.requests, queue]
          simp [gone]
        exact ⟨a, .refl a, ⟨without.clients, requests, without.handled, without.fifo,
          without.delivered, without.seqNum, without.clientFd⟩,
          .reading (Or.inr ⟨rfl, gone⟩) there closed, unread⟩
      | false =>
        have requests : a.requests = r :: rest.filter (!abnormal ·.pid) := by
          rw [without.requests, queue]
          simp [gone]
        refine ⟨{ a with
            server := { a.server with pc := .openFifo, req := r }
            requests := rest.filter (!abnormal ·.pid) },
          .snoc (l := .readRequest) (.refl a) ⟨trivial, ?_⟩, ?_⟩
        · change serverStep .blocking .readRequest a = _
          simp [serverStep, there, requests]
        · refine ⟨⟨without.clients, rfl, without.handled, without.fifo, without.delivered,
            without.seqNum, without.clientFd⟩, .busy (by simp) gone ?_, unread⟩
          simp [without.seqNum, without.clientFd]
  | readFails => exact ⟨a, .refl a, without, place, unread⟩
  | opened pc =>
    cases place with
    | reading here =>
      rcases here with here | ⟨-, gone⟩
      · rw [pc] at here
        cases here
      · rw [FifoRules, erased.no_reader gone] at rules
        cases rules
    | busy other normal same =>
      have matched : FifoRules (pop.without abnormal) (.openClient true) a :=
        erased.rules rules fun _ => by rw [same]
      refine ⟨openClient .blocking true a, .snoc (l := .openClient true) (.refl a) ⟨matched, ?_⟩, ?_⟩
      · change serverStep .blocking (.openClient true) a = _
        simp [serverStep, same, pc]
      · have woken : ∀ pid, abnormal pid = false →
            wake (clientFifo a.server.req.pid) a.clients pid =
              wake (clientFifo s.server.req.pid) s.clients pid := fun pid kept => by
          simp only [wake, same, without.clients pid kept]
        refine ⟨⟨woken, without.requests, without.handled, without.fifo, without.delivered,
          without.seqNum, ?_⟩, .busy (by simp) normal ?_, ?_⟩
        · simp [openClient, same]
        · simp [openClient, same]
        · intro pid gone
          have asleep := unread pid gone
          rcases wake_pc (clientFifo s.server.req.pid) s.clients pid with kept | ⟨-, waits, -⟩
          · change (wake (clientFifo s.server.req.pid) s.clients pid).pc.reading = false
            rw [kept]
            exact asleep
          · rw [waits] at asleep
            cases asleep
  | gaveUp pc =>
    cases place with
    | reading here there closed =>
      have gone : abnormal s.server.req.pid = true := by
        rcases here with here | ⟨-, gone⟩
        · rw [pc] at here
          cases here
        · exact gone
      refine ⟨a, .refl a, ⟨without.clients, without.requests, ?_, without.fifo, without.delivered,
        without.seqNum, ?_⟩, .reading (Or.inl rfl) there rfl, unread⟩
      · simp [State.toLoopHead, without.handled, gone]
      · rw [without.clientFd, closed]
        rfl
    | busy other normal same =>
      have matched : FifoRules (pop.without abnormal) (.openClient false) a :=
        erased.rules rules fun _ => by rw [same]
      refine ⟨a.toLoopHead, .snoc (l := .openClient false) (.refl a) ⟨matched, ?_⟩, ?_⟩
      · change serverStep .blocking (.openClient false) a = _
        simp [serverStep, same, pc, openClient]
      · refine ⟨⟨without.clients, without.requests, ?_, without.fifo, without.delivered,
          without.seqNum, rfl⟩, .reading (Or.inl rfl) rfl rfl, unread⟩
        simp [State.toLoopHead, without.handled, same, normal]
  | wentOn _ version => cases version
  | @wrote name pc fd =>
    obtain ⟨normal, same⟩ := place.of_busy (Or.inl pc)
    have matched : FifoRules (pop.without abnormal) (.writeResponse true) a :=
      erased.rules rules (by simp)
    refine ⟨{ a with
        server := { a.server with pc := .close }
        fifo := Function.update a.fifo name (a.fifo name ++ [a.server.seqNum])
        delivered := a.delivered ++ [⟨a.server.seqNum, a.server.req⟩] },
      .snoc (l := .writeResponse true) (.refl a) ⟨matched, ?_⟩, ?_⟩
    · change serverStep .blocking (.writeResponse true) a = _
      simp [serverStep, same, pc, writeResponse, fd]
    · refine ⟨⟨without.clients, without.requests, without.handled, ?_, ?_, without.seqNum,
        without.clientFd⟩, .busy (by simp) normal (by rw [same]), unread⟩
      · simp only [without.fifo, same]
      · simp only [without.delivered, same]
  | writeFailed pc =>
    obtain ⟨normal, same⟩ := place.of_busy (Or.inl pc)
    have matched : FifoRules (pop.without abnormal) (.writeResponse false) a :=
      erased.rules rules (by simp)
    refine ⟨{ a with server := { a.server with pc := .close } },
      .snoc (l := .writeResponse false) (.refl a) ⟨matched, ?_⟩, ?_⟩
    · change serverStep .blocking (.writeResponse false) a = _
      simp [serverStep, same, pc, writeResponse]
    · exact ⟨⟨without.clients, without.requests, without.handled, without.fifo, without.delivered,
        without.seqNum, without.clientFd⟩, .busy (by simp) normal (by rw [same]), unread⟩
  | closed pc =>
    obtain ⟨normal, same⟩ := place.of_busy (Or.inr (Or.inl pc))
    refine ⟨{ a with server := { a.server with pc := .advance, clientFd := none } },
      .snoc (l := .closeClient) (.refl a) ⟨trivial, ?_⟩, ?_⟩
    · change serverStep .blocking .closeClient a = _
      simp [serverStep, same, pc]
    · exact ⟨⟨without.clients, without.requests, without.handled, without.fifo, without.delivered,
        without.seqNum, rfl⟩, .busy (by simp) normal (by rw [same]), unread⟩
  | advanced pc =>
    obtain ⟨normal, same⟩ := place.of_busy (Or.inr (Or.inr pc))
    refine ⟨{ a with server :=
        { a.server with seqNum := addInt a.server.seqNum a.server.req.seqLen } }.toLoopHead,
      .snoc (l := .advance) (.refl a) ⟨trivial, ?_⟩, ?_⟩
    · change serverStep .blocking .advance a = _
      simp [serverStep, same, pc]
    · refine ⟨⟨without.clients, without.requests, ?_, without.fifo, without.delivered, ?_, rfl⟩,
        .reading (Or.inl rfl) rfl rfl, unread⟩
      · simp [State.toLoopHead, without.handled, same, normal]
      · simp only [State.toLoopHead, same]
  | @created pid | @opens pid | @received pid => exact absurd rfl (server pid).1
  | @sent r => exact absurd rfl (server r.pid).1
  | @ended _ pid side =>
    rcases side with rfl | rfl
    · exact absurd rfl (server pid).1
    · exact absurd rfl (server pid).2

theorem Erased.step {act : Act} (h : Erased abnormal s a)
    (step : (mixedService .blocking pop abnormal).step act s t) :
    ∃ b, (fifoService .blocking (pop.without abnormal)).Run a b ∧ Erased abnormal t b := by
  obtain ⟨never, rules, step⟩ := step
  cases act with
  | client pid =>
    obtain ⟨r, found, moved⟩ := Option.bind_eq_some_iff.mp step
    obtain rfl : r.pid = pid := by simpa using List.find?_some found
    cases gone : abnormal r.pid with
    | false =>
      obtain ⟨b, matched, erased⟩ := h.client_moves gone moved
      refine ⟨b, .snoc (l := .client r.pid) (.refl a) ⟨trivial, ?_⟩, erased⟩
      change ((pop.without abnormal).request r.pid).bind _ = some b
      rw [without_request gone, found]
      exact matched
    | true => exact ⟨a, .refl a, h.abnormal_moves gone (never gone) moved⟩
  | killed pid =>
    cases step
    cases gone : abnormal pid with
    | false =>
      have own := h.without.clients pid gone
      refine ⟨a.setClient pid { s.clients pid with pc := .exited },
        .snoc (l := .killed pid) (.refl a) ⟨trivial, ?_⟩, h.setClient gone _⟩
      change some _ = some _
      rw [own]
    | true => exact ⟨a, .refl a, h.setAbnormal gone rfl⟩
  | readRequest | readFails | openClient ok | writeResponse ok | closeClient | advance =>
    exact h.server_moves rules (by simp) (serverStep_moves step)

theorem Erased.initial : Erased abnormal State.initial State.initial where
  without := ⟨fun _ _ => rfl, rfl, rfl, rfl, rfl, rfl, rfl⟩
  server := .reading (Or.inl rfl) rfl rfl
  unread := fun _ _ => rfl

end

theorem mixed_simulates (pop : Population) (abnormal : Nat → Bool) :
    Simulates (mixedService .blocking pop abnormal)
      (fifoService .blocking (pop.without abnormal)) (Erased abnormal) where
  start := by
    rintro s rfl
    exact ⟨State.initial, rfl, Erased.initial⟩
  step := fun _ _ _ _ erased step => erased.step step

/-- Whatever the abnormal clients ask for, the counter, the responses, the client FIFOs, the
requests of the other clients and these clients themselves are as in a run without the
abnormal ones. -/
theorem abnormal_clients_unseen (pop : Population) (abnormal : Nat → Bool) {s : State}
    (reach : (mixedService .blocking pop abnormal).Reachable s) :
    ∃ a, (fifoService .blocking (pop.without abnormal)).Reachable a ∧ Without abnormal s a := by
  obtain ⟨a, without, erased⟩ := (mixed_simulates pop abnormal).reachable reach
  exact ⟨a, without, erased.without⟩

private def oneAbnormal : Population where
  clients := [⟨7, 4⟩, ⟨8, 6⟩]
  distinct := by decide
  positive := by decide

/-- The abnormal client 8 asks first, and is gone when the server comes to it; client 7 is
served next. -/
private def abnormalFirst : List Act :=
  [.client 8, .client 8, .client 7, .client 7, .client 7, .killed 8, .readRequest,
    .openClient false, .readRequest, .openClient true, .writeResponse true]

theorem served_behind_abnormal_client :
    ∃ s a : State, s.handled = [⟨8, 6⟩] ∧ s.delivered.map Delivery.seqNum = [0] ∧
      (fifoService .blocking (oneAbnormal.without (· == 8))).Reachable a ∧
      Without (· == 8) s a := by
  have served : (follow
      (guarded (fun act s => NeverOpens (· == 8) act s ∧ FifoRules oneAbnormal act s)
        (next .blocking oneAbnormal)) abnormalFirst State.initial).map
      (fun s => (s.handled, s.delivered.map Delivery.seqNum)) = some ([⟨8, 6⟩], [0]) := by
    decide +kernel
  obtain ⟨s, run, same⟩ := Option.map_eq_some_iff.mp served
  obtain ⟨handled, delivered⟩ := Prod.mk.inj same
  have reach : (mixedService .blocking oneAbnormal (· == 8)).Reachable s := by
    rw [mixedService, fifoService, restrict_restrict]
    exact (Reachable.initial rfl).run (follow_guarded_run run)
  obtain ⟨a, other, without⟩ := abnormal_clients_unseen oneAbnormal (· == 8) reach
  exact ⟨s, a, handled, delivered, other, without⟩

/-- The server of 44-7 counts the numbers that nobody gets. -/
example : (follow
    (guarded (fun act s => NeverOpens (· == 8) act s ∧ FifoRules oneAbnormal act s)
      (next .nonblocking oneAbnormal))
    [.client 8, .client 8, .killed 8, .readRequest, .openClient false, .writeResponse false,
      .closeClient, .advance] State.initial).map
    (fun s => (s.delivered.map Delivery.seqNum, s.server.seqNum)) = some ([], 6) := by
  decide +kernel

end SequenceNumbers
