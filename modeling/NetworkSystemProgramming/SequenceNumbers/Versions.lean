import Mathlib.Data.List.Basic
import NetworkSystemProgramming.SequenceNumbers.Service

/-!
# The server loops of 44-6 and 44-7

What one turn of either loop delivers and what `seqNum` is after it, for every answer of
the kernel. Behind a failed `open` the loop of 44-7 has no `continue`.
-/

namespace SequenceNumbers

open StepSystems StepSystem

/-- One turn of the loop with the answers of the kernel; a `read` that returns no whole
request is discarded. -/
inductive Turn where
  | discarded
  | request (req : Request) (opens writes : Bool)
  deriving DecidableEq

/-- The response that was written, and `seqNum` after the turn. -/
structure Outcome where
  response : Option Delivery
  seqNum : Int

deriving instance DecidableEq for Delivery, Outcome

/-- The body of the loop of 44-6 behind the `read`. -/
def serveBlocking (seqNum : Int) (req : Request) (opens writes : Bool) : Outcome :=
  if opens then ⟨if writes then some ⟨seqNum, req⟩ else none, addInt seqNum req.seqLen⟩
  else ⟨none, seqNum⟩

/-- The body of the loop of 44-7: a failed `open` is reported and the descriptor is -1. -/
def serveNonblocking (seqNum : Int) (req : Request) (opens writes : Bool) : Outcome :=
  let clientFd := if opens then some (clientFifo req.pid) else none
  ⟨if clientFd.isSome && writes then some ⟨seqNum, req⟩ else none, addInt seqNum req.seqLen⟩

def serveRequest : Version → Int → Request → Bool → Bool → Outcome
  | .blocking => serveBlocking
  | .nonblocking => serveNonblocking

def serveTurn (v : Version) (seqNum : Int) : Turn → Outcome
  | .discarded => ⟨none, seqNum⟩
  | .request req opens writes => serveRequest v seqNum req opens writes

/-- The loop over a sequence of turns. -/
def serveAll (v : Version) : Int → List Turn → List Outcome
  | _, [] => []
  | seqNum, turn :: rest =>
    serveTurn v seqNum turn :: serveAll v (serveTurn v seqNum turn).seqNum rest

/-- The values of an int. -/
def IsInt (n : Int) : Prop := -2147483648 ≤ n ∧ n ≤ INT_MAX

def Turn.IsInt : Turn → Prop
  | .discarded => True
  | .request req _ _ => SequenceNumbers.IsInt req.seqLen

/-- The turn does not fail to open the FIFO of a client that asks for numbers. -/
def Turn.Opens : Turn → Prop
  | .request req false _ => req.seqLen = 0
  | _ => True

theorem addInt_isInt (a b : Int) : IsInt (addInt a b) := by
  simp only [IsInt, addInt, INT_MAX, Int.bmod]
  split <;> omega

theorem addInt_eq_self_iff {n k : Int} (hn : IsInt n) (hk : IsInt k) : addInt n k = n ↔ k = 0 := by
  simp only [IsInt, addInt, INT_MAX, Int.bmod] at hn hk ⊢
  split <;> omega

theorem serveTurn_isInt (v : Version) {seqNum : Int} (h : IsInt seqNum) (turn : Turn) :
    IsInt (serveTurn v seqNum turn).seqNum := by
  cases turn with
  | discarded => exact h
  | request req opens writes =>
    cases v with
    | nonblocking => exact addInt_isInt _ _
    | blocking =>
      cases opens with
      | false => exact h
      | true => exact addInt_isInt _ _

/-- The two loop bodies differ when a client that asks for numbers is given up. -/
theorem serveTurn_agree_iff {seqNum : Int} (h : IsInt seqNum) {turn : Turn} (int : turn.IsInt) :
    serveTurn .nonblocking seqNum turn = serveTurn .blocking seqNum turn ↔ turn.Opens := by
  cases turn with
  | discarded => simp [serveTurn, Turn.Opens]
  | request req opens writes =>
    cases opens with
    | true => simp [serveTurn, serveRequest, serveNonblocking, serveBlocking, Turn.Opens]
    | false =>
      simpa [serveTurn, serveRequest, serveNonblocking, serveBlocking, Turn.Opens] using
        addInt_eq_self_iff h int

theorem serveAll_agree_iff {seqNum : Int} (h : IsInt seqNum) {turns : List Turn}
    (ints : ∀ turn ∈ turns, turn.IsInt) :
    serveAll .nonblocking seqNum turns = serveAll .blocking seqNum turns ↔
      ∀ turn ∈ turns, turn.Opens := by
  induction turns generalizing seqNum with
  | nil => simp [serveAll]
  | cons turn turns ih =>
    have head := serveTurn_agree_iff h (ints turn (by simp))
    have rest := ih (serveTurn_isInt .blocking h turn) (fun t member => ints t (by simp [member]))
    simp only [serveAll, List.cons.injEq, List.forall_mem_cons, ← head]
    constructor
    · rintro ⟨same, tail⟩
      rw [same] at tail
      exact ⟨same, rest.mp tail⟩
    · rintro ⟨same, tail⟩
      rw [same]
      exact ⟨rfl, rest.mpr tail⟩

/-! ## The loops and the step system -/

def seqNumAfter (v : Version) (turns : List Turn) : Int :=
  turns.foldl (fun n turn => (serveTurn v n turn).seqNum) 0

def responses (v : Version) (turns : List Turn) : List Delivery :=
  (serveAll v 0 turns).filterMap Outcome.response

def Turn.requests : Turn → List Request
  | .discarded => []
  | .request req _ _ => [req]

theorem seqNumAfter_snoc (v : Version) (turns : List Turn) (turn : Turn) :
    seqNumAfter v (turns ++ [turn]) = (serveTurn v (seqNumAfter v turns) turn).seqNum := by
  simp [seqNumAfter]

theorem serveAll_snoc (v : Version) (seqNum : Int) (turns : List Turn) (turn : Turn) :
    serveAll v seqNum (turns ++ [turn]) = serveAll v seqNum turns ++
      [serveTurn v (turns.foldl (fun n turn => (serveTurn v n turn).seqNum) seqNum) turn] := by
  induction turns generalizing seqNum with
  | nil => rfl
  | cons first turns ih => simp [serveAll, ih]

theorem responses_snoc (v : Version) (turns : List Turn) (turn : Turn) :
    responses v (turns ++ [turn]) =
      responses v turns ++ (serveTurn v (seqNumAfter v turns) turn).response.toList := by
  rw [responses, serveAll_snoc, List.filterMap_append, ← responses]
  cases found : (serveTurn v (seqNumAfter v turns) turn).response <;>
    simp_all [seqNumAfter]

/-- Where the server is in its loop: behind whole turns, or behind the response of one
more. -/
def Serving (v : Version) (s : State) : Prop :=
  ∃ turns, s.handled = turns.flatMap Turn.requests ∧ s.server.seqNum = seqNumAfter v turns ∧
    match s.server.pc with
    | .read | .openFifo => s.delivered = responses v turns
    | .write => s.delivered = responses v turns ∧ (v = .nonblocking ∨ s.server.clientFd.isSome)
    | .close | .advance => ∃ opens writes, (v = .nonblocking ∨ opens = true) ∧
        s.delivered = responses v (turns ++ [.request s.server.req opens writes])

theorem Serving.step {v : Version} {pop : Population} {act : Act} {s t : State}
    (serving : Serving v s) (h : next v pop act s = some t) : Serving v t := by
  obtain ⟨turns, handled, seqNum, at_pc⟩ := serving
  cases next_moves h with
  | readRequest pc => exact ⟨turns, handled, seqNum, by simpa [pc] using at_pc⟩
  | readFails => exact ⟨turns, handled, seqNum, at_pc⟩
  | opened pc => exact ⟨turns, handled, seqNum, by simpa [pc] using at_pc⟩
  | wentOn pc version => exact ⟨turns, handled, seqNum, by simpa [pc, version] using at_pc⟩
  | gaveUp pc version =>
    subst version
    refine ⟨turns ++ [.request s.server.req false false], ?_, ?_, ?_⟩
    · simp [State.toLoopHead, handled, Turn.requests]
    · rw [seqNumAfter_snoc, ← seqNum]
      rfl
    · rw [pc] at at_pc
      simpa [State.toLoopHead, responses_snoc, serveTurn, serveRequest, serveBlocking] using at_pc
  | @wrote name pc fd =>
    rw [pc] at at_pc
    refine ⟨turns, handled, seqNum, true, true, Or.inr rfl, ?_⟩
    rw [responses_snoc, ← seqNum, at_pc.1]
    cases v <;> rfl
  | writeFailed pc =>
    rw [pc] at at_pc
    refine ⟨turns, handled, seqNum, s.server.clientFd.isSome, false, at_pc.2, ?_⟩
    rw [responses_snoc, at_pc.1]
    cases v <;> cases s.server.clientFd <;>
      simp [serveTurn, serveRequest, serveBlocking, serveNonblocking]
  | closed pc => exact ⟨turns, handled, seqNum, by simpa [pc] using at_pc⟩
  | advanced pc =>
    rw [pc] at at_pc
    obtain ⟨opens, writes, opened, delivered⟩ := at_pc
    refine ⟨turns ++ [.request s.server.req opens writes], ?_, ?_,
      by simpa [State.toLoopHead] using delivered⟩
    · simp [State.toLoopHead, handled, Turn.requests]
    · rw [seqNumAfter_snoc, ← seqNum]
      rcases opened with rfl | rfl
      · rfl
      · cases v <;> rfl
  | created | sent | opens | received | ended => exact ⟨turns, handled, seqNum, at_pc⟩

/-- Whenever the server is at its loop head, what it delivered and its `seqNum` are those
of the loop over the requests that it is done with. -/
theorem loop_of_reachable {v : Version} {pop : Population} {s : State}
    (reach : (service v pop).Reachable s) (pc : s.server.pc = .read) :
    ∃ turns, s.handled = turns.flatMap Turn.requests ∧ s.delivered = responses v turns ∧
      s.server.seqNum = seqNumAfter v turns := by
  have serving : Serving v s := by
    refine reach.invariant (I := Serving v) ?_ ?_
    · rintro s rfl
      exact ⟨[], rfl, rfl, rfl⟩
    · intro act s t serving h
      exact serving.step h
  obtain ⟨turns, handled, seqNum, at_pc⟩ := serving
  rw [pc] at at_pc
  exact ⟨turns, handled, at_pc, seqNum⟩

/-- The steps of one turn of the loop. -/
def turnActs (v : Version) (opens writes : Bool) : List Act :=
  match v, opens with
  | .blocking, false => [.readRequest, .openClient false]
  | _, _ =>
    [.readRequest, .openClient opens, .writeResponse (opens && writes), .closeClient, .advance]

/-- Every answer of the kernel can occur, and the turn ends at the loop head again. -/
theorem turn_of_steps (v : Version) (opens writes : Bool) {s : State} {req : Request}
    {rest : List Request} (pc : s.server.pc = .read) (queue : s.requests = req :: rest) :
    ∃ t, follow (serverStep v) (turnActs v opens writes) s = some t ∧ t.server.pc = .read ∧
      t.requests = rest ∧
      t.delivered = s.delivered ++ (serveRequest v s.server.seqNum req opens writes).response.toList ∧
      t.server.seqNum = (serveRequest v s.server.seqNum req opens writes).seqNum := by
  obtain ⟨⟨_, _, _, _⟩, _, _, _, _, _⟩ := s
  obtain rfl : _ = ServerPc.read := pc
  obtain rfl : _ = req :: rest := queue
  cases v <;> cases opens <;> cases writes <;>
    exact ⟨_, rfl, rfl, rfl, by simp [serveRequest, serveBlocking, serveNonblocking,
      State.toLoopHead, openClient], rfl⟩

/-- The servers deliver the same numbers to the same clients and agree on `seqNum` after
each request exactly when no `open` for a client that asks for numbers fails. -/
theorem versions_agree_iff (turns : List Turn) (ints : ∀ turn ∈ turns, turn.IsInt) :
    serveAll .nonblocking 0 turns = serveAll .blocking 0 turns ↔
      ∀ req writes, Turn.request req false writes ∈ turns → req.seqLen = 0 := by
  rw [serveAll_agree_iff ⟨by decide, by decide⟩ ints]
  constructor
  · intro opens req writes member
    exact opens _ member
  · intro kept turn member
    cases turn with
    | discarded => trivial
    | request req opens writes =>
      cases opens with
      | false => exact kept req writes member
      | true => trivial

theorem versions_agree_on_one_client :
    serveAll .nonblocking 0 [.request ⟨7, 3⟩ true true] =
      serveAll .blocking 0 [.request ⟨7, 3⟩ true true] :=
  (versions_agree_iff [.request ⟨7, 3⟩ true true]
    (by simp [Turn.IsInt, IsInt, INT_MAX])).mpr (by simp)

/-- The FIFO of the first client cannot be opened; the second one gets 0 or 3. -/
theorem versions_differ_after_failed_open :
    ¬ ∀ turns : List Turn, (∀ turn ∈ turns, turn.IsInt) →
      serveAll .nonblocking 0 turns = serveAll .blocking 0 turns := by
  intro claim
  have same := claim [.request ⟨7, 3⟩ false false, .request ⟨8, 1⟩ true true]
    (by simp [Turn.IsInt, IsInt, INT_MAX])
  exact absurd same (by decide)

end SequenceNumbers
