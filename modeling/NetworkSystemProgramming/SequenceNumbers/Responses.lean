import Mathlib.Data.List.Nodup
import NetworkSystemProgramming.SequenceNumbers.Requests

/-!
# Every response goes to the client whose request it answers

A request is answered at most once, and a client finds in its own FIFO only the
response to its own request.
-/

namespace SequenceNumbers

open StepSystems StepSystem

variable {v : Version} {pop : Population} {act : Act} {s t : State}

theorem clientFifo_injective {a b : Nat} (h : clientFifo a = clientFifo b) : a = b := by
  have names : Nat.repr a = Nat.repr b := (String.append_right_inj _).mp h
  have digits : Nat.toDigits 10 a = Nat.toDigits 10 b := by
    rw [← Nat.toList_repr, ← Nat.toList_repr, names]
  rw [← @Nat.ofDigitChars_ten_toDigits a, digits, Nat.ofDigitChars_ten_toDigits]

/-- The request at hand has been answered, or the answer has failed. -/
def ServerPc.settled : ServerPc → Bool
  | .close => true
  | .advance => true
  | _ => false

/-- The requests that can have been answered. -/
def State.settled (s : State) : List Request :=
  s.handled ++ if s.server.pc.settled then [s.server.req] else []

/-- What was delivered, what lies in the FIFOs, and what was received. -/
structure Responses (s : State) : Prop where
  answered : (s.delivered.map Delivery.request).Sublist s.settled
  opened : ∀ name, s.server.pc = .write → s.server.clientFd = some name →
    name = clientFifo s.server.req.pid
  inFifo : ∀ name, ∀ n ∈ s.fifo name,
    ∃ d ∈ s.delivered, clientFifo d.request.pid = name ∧ d.seqNum = n
  received : ∀ pid, ∀ n ∈ (s.clients pid).received,
    ∃ d ∈ s.delivered, d.request.pid = pid ∧ d.seqNum = n
  single : ∀ pid, (s.clients pid).received.length ≤ 1 ∧
    ((s.clients pid).pc ≠ .exited → (s.clients pid).received = [])

theorem settled_sent (s : State) : s.settled.Sublist s.sent := by
  rw [State.sent, List.append_assoc]
  apply List.Sublist.append (List.Sublist.refl _)
  by_cases settled : s.server.pc.settled = true
  · have busy : s.server.pc ≠ .read := by
      intro idle
      rw [idle] at settled
      cases settled
    rw [if_pos settled, current_busy busy]
    exact List.sublist_append_left _ _
  · rw [if_neg settled]
    exact List.nil_sublist _

/-- A step that delivers and receives nothing. -/
theorem Responses.of_same (responses : Responses s) (delivered : t.delivered = s.delivered)
    (fifo : t.fifo = s.fifo) (settled : s.settled.Sublist t.settled)
    (clients : ∀ pid, (t.clients pid).received = (s.clients pid).received ∧
      ((t.clients pid).pc ≠ .exited → (s.clients pid).pc ≠ .exited))
    (opened : ∀ name, t.server.pc = .write → t.server.clientFd = some name →
      name = clientFifo t.server.req.pid) : Responses t where
  answered := by
    rw [delivered]
    exact responses.answered.trans settled
  opened := opened
  inFifo := by
    rw [fifo, delivered]
    exact responses.inFifo
  received := by
    intro pid n hn
    rw [(clients pid).1] at hn
    rw [delivered]
    exact responses.received pid n hn
  single := by
    intro pid
    obtain ⟨same, running⟩ := clients pid
    obtain ⟨once, before⟩ := responses.single pid
    rw [same]
    exact ⟨once, fun h => before (running h)⟩

theorem Responses.of_setClient {pid : Nat} {pc : ClientPc} (responses : Responses s)
    (running : pc ≠ .exited → (s.clients pid).pc ≠ .exited) :
    Responses (s.setClient pid { s.clients pid with pc }) := by
  refine responses.of_same rfl rfl (List.Sublist.refl _) ?_ responses.opened
  intro other
  by_cases self : other = pid
  · subst self
    rw [setClient_self]
    exact ⟨rfl, running⟩
  · rw [setClient_other s _ self]
    exact ⟨rfl, id⟩

/-- A response that is written belongs to the request at hand. -/
theorem Responses.wrote {name : String} (responses : Responses s) (pc : s.server.pc = .write)
    (fd : s.server.clientFd = some name) :
    Responses { s with
      server := { s.server with pc := .close }
      fifo := Function.update s.fifo name (s.fifo name ++ [s.server.seqNum])
      delivered := s.delivered ++ [⟨s.server.seqNum, s.server.req⟩] } := by
  have owner := responses.opened name pc fd
  constructor
  · have before := responses.answered
    simp only [State.settled, pc, ServerPc.settled] at before
    rw [List.map_append]
    exact List.Sublist.append (by simpa using before) (List.Sublist.refl _)
  · intro _ other
    cases other
  · intro other n hn
    change n ∈ Function.update s.fifo name (s.fifo name ++ [s.server.seqNum]) other at hn
    by_cases self : other = name
    · subst self
      rw [Function.update_self, List.mem_append, List.mem_singleton] at hn
      rcases hn with old | rfl
      · obtain ⟨d, hd, facts⟩ := responses.inFifo _ n old
        exact ⟨d, List.mem_append_left _ hd, facts⟩
      · exact ⟨_, List.mem_append_right _ (List.mem_singleton_self _), owner.symm, rfl⟩
    · rw [Function.update_of_ne self] at hn
      obtain ⟨d, hd, facts⟩ := responses.inFifo _ n hn
      exact ⟨d, List.mem_append_left _ hd, facts⟩
  · intro pid n hn
    obtain ⟨d, hd, facts⟩ := responses.received pid n hn
    exact ⟨d, List.mem_append_left _ hd, facts⟩
  · exact responses.single

/-- A client reads from its own FIFO only, and once. -/
theorem Responses.receive {pid : Nat} {n : Int} {rest : List Int} (responses : Responses s)
    (pc : (s.clients pid).pc = .read) (response : s.fifo (clientFifo pid) = n :: rest) :
    Responses ({ s with fifo := Function.update s.fifo (clientFifo pid) rest }.setClient pid
      ⟨.exited, (s.clients pid).received ++ [n]⟩) := by
  have none_yet : (s.clients pid).received = [] := (responses.single pid).2 (by simp [pc])
  constructor
  · exact responses.answered
  · exact responses.opened
  · intro name m hm
    change m ∈ Function.update s.fifo (clientFifo pid) rest name at hm
    by_cases self : name = clientFifo pid
    · subst self
      rw [Function.update_self] at hm
      exact responses.inFifo _ m (by rw [response]; exact List.mem_cons_of_mem n hm)
    · rw [Function.update_of_ne self] at hm
      exact responses.inFifo name m hm
  · intro other m hm
    by_cases self : other = pid
    · subst self
      rw [setClient_self, none_yet, List.nil_append, List.mem_singleton] at hm
      subst hm
      obtain ⟨d, hd, name, seqNum⟩ := responses.inFifo (clientFifo other) m (by simp [response])
      exact ⟨d, hd, clientFifo_injective name, seqNum⟩
    · rw [setClient_other _ _ self] at hm
      exact responses.received other m hm
  · intro other
    by_cases self : other = pid
    · subst self
      rw [setClient_self, none_yet]
      exact ⟨Nat.le_refl _, fun h => absurd rfl h⟩
    · rw [setClient_other _ _ self]
      exact responses.single other

theorem Responses.step (responses : Responses s) (step : Moves v pop s act t) :
    Responses t := by
  have same : ∀ pid, (s.clients pid).received = (s.clients pid).received ∧
      ((s.clients pid).pc ≠ .exited → (s.clients pid).pc ≠ .exited) := fun _ => ⟨rfl, id⟩
  cases step with
  | readRequest pc queue =>
    refine responses.of_same rfl rfl ?_ same ?_
    · simp [State.settled, pc, ServerPc.settled]
    · intro _ other
      cases other
  | readFails => exact responses
  | opened pc =>
    refine responses.of_same rfl rfl ?_ ?_ ?_
    · simp [State.settled, pc, ServerPc.settled]
    · intro pid
      by_cases waits : clientFifo pid = clientFifo s.server.req.pid ∧ (s.clients pid).pc = .opening
      · simp [wake, waits]
      · simp [wake, waits]
    · rintro name - ⟨⟩
      rfl
  | gaveUp pc =>
    refine responses.of_same rfl rfl ?_ same ?_
    · simp [State.settled, State.toLoopHead, pc, ServerPc.settled]
    · intro _ other
      cases other
  | wentOn pc =>
    refine responses.of_same rfl rfl ?_ same ?_
    · simp [State.settled, pc, ServerPc.settled]
    · rintro name - ⟨⟩
  | wrote pc fd => exact responses.wrote pc fd
  | writeFailed pc =>
    refine responses.of_same rfl rfl ?_ same ?_
    · simp [State.settled, pc, ServerPc.settled]
    · intro _ other
      cases other
  | closed pc =>
    refine responses.of_same rfl rfl ?_ same ?_
    · simp [State.settled, pc, ServerPc.settled]
    · intro _ other
      cases other
  | advanced pc =>
    refine responses.of_same rfl rfl ?_ same ?_
    · simp [State.settled, State.toLoopHead, pc, ServerPc.settled]
    · intro _ other
      cases other
  | created pc => exact responses.of_setClient (by simp [pc])
  | @sent r client pc =>
    have same' : Responses { s with requests := s.requests ++ [r] } :=
      responses.of_same rfl rfl (List.Sublist.refl _) same responses.opened
    exact same'.of_setClient (by simp [pc])
  | opens pc => exact responses.of_setClient (by simp [pc])
  | received pc response => exact responses.receive pc response
  | ended => exact responses.of_setClient (fun h => absurd rfl h)

theorem Responses.start : Responses State.initial where
  answered := List.Sublist.refl _
  opened _ pc := by cases pc
  inFifo _ _ hn := absurd hn List.not_mem_nil
  received _ _ hn := absurd hn List.not_mem_nil
  single _ := ⟨Nat.zero_le _, fun _ => rfl⟩

theorem reachable_bookkeeping (reach : (service v pop).Reachable s) :
    Requests pop s ∧ Responses s := by
  refine reach.invariant (I := fun s => Requests pop s ∧ Responses s) ?_ ?_
  · rintro _ rfl
    exact ⟨Requests.start, Responses.start⟩
  · rintro act s t ⟨requests, responses⟩ h
    have step := next_moves h
    exact ⟨requests.step step, responses.step step⟩

end SequenceNumbers
