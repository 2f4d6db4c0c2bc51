import Mathlib
import NetworkSystemProgramming.Dispenser
import NetworkSystemProgramming.SequenceNumbers.Responses

/-!
# Ranges handed out by the sequence-number service

The service simulates a dispenser: a written response hands its range out, a failed
`write` leaves the range out, and the counter catches up at the end of the loop body.
-/

namespace SequenceNumbers

open StepSystems StepSystem Dispenser

variable {v : Version} {pop : Population} {act : Act} {s t : State}

/-- What the counter will be at the next loop head. -/
def State.bound (s : State) : Int :=
  if s.server.pc.settled then s.server.seqNum + s.server.req.seqLen else s.server.seqNum

def Delivery.range (d : Delivery) : Int × Int := (d.seqNum, d.request.seqLen)

def total (requests : List Request) : Int := (requests.map Request.seqLen).sum

@[simp] theorem total_append (a b : List Request) : total (a ++ b) = total a + total b := by
  rw [total, List.map_append, List.sum_append, total, total]

@[simp] theorem total_singleton (r : Request) : total [r] = r.seqLen := by simp [total]

/-- The requests sent ask for no more than all clients together. -/
theorem total_sent (requests : Requests pop s) : total s.sent ≤ total pop.clients := by
  have nodup : s.sent.Nodup := List.Nodup.of_map _ requests.once
  obtain ⟨l, perm, sub⟩ := nodup.subperm requests.known
  have same : total l = total s.sent := (perm.map Request.seqLen).sum_eq
  rw [← same]
  apply (sub.map Request.seqLen).sum_le_sum
  intro n hn
  obtain ⟨r, hr, rfl⟩ := List.mem_map.mp hn
  exact Int.le_of_lt (pop.positive r hr)

theorem total_nonneg (requests : Requests pop s) {l : List Request} (part : l ⊆ s.sent) :
    0 ≤ total l := by
  apply List.sum_nonneg
  intro n hn
  obtain ⟨r, hr, rfl⟩ := List.mem_map.mp hn
  exact Int.le_of_lt (pop.positive r (requests.known r (part hr)))

theorem Requests.positive (requests : Requests pop s) (busy : s.server.pc ≠ .read) :
    0 < s.server.req.seqLen :=
  pop.positive _ (requests.known _ (current_mem_sent busy))

/-- How far the counter can have come. -/
def Counted (s : State) : Prop := 0 ≤ s.server.seqNum ∧ s.server.seqNum ≤ total s.handled

/-- The counter does not wrap while the sum of all lengths fits in an int. -/
theorem advance_exact (requests : Requests pop s) (counted : Counted s)
    (fits : total pop.clients ≤ INT_MAX) (pc : s.server.pc = .advance) :
    addInt s.server.seqNum s.server.req.seqLen = s.server.seqNum + s.server.req.seqLen ∧
      0 < s.server.req.seqLen ∧
      s.server.seqNum + s.server.req.seqLen ≤ total (s.handled ++ [s.server.req]) := by
  have busy : s.current = [s.server.req] := current_busy (by simp [pc])
  have positive := requests.positive (by simp [pc])
  have sum := total_sent requests
  have rest : 0 ≤ total s.requests := total_nonneg requests (List.subset_append_right _ _)
  simp only [State.sent, busy, total_append, total_singleton] at sum
  obtain ⟨nonneg, below⟩ := counted
  rw [INT_MAX] at fits
  refine ⟨Int.bmod_eq_of_le (by omega) (by omega), positive, ?_⟩
  rw [total_append, total_singleton]
  omega

theorem Counted.step (requests : Requests pop s) (counted : Counted s)
    (fits : total pop.clients ≤ INT_MAX) (step : Moves v pop s act t) : Counted t := by
  obtain ⟨nonneg, below⟩ := counted
  cases step with
  | gaveUp pc =>
    have positive := requests.positive (by simp [pc])
    refine ⟨nonneg, ?_⟩
    change s.server.seqNum ≤ total (s.handled ++ [s.server.req])
    rw [total_append, total_singleton]
    omega
  | advanced pc =>
    obtain ⟨sum, positive, below'⟩ := advance_exact requests ⟨nonneg, below⟩ fits pc
    simp only [Counted, State.toLoopHead, sum]
    exact ⟨by omega, below'⟩
  | readRequest | readFails | opened | wentOn | wrote | writeFailed | closed | created | sent
  | opens | received | ended => exact ⟨nonneg, below⟩

/-- A state of the service and one of the dispenser agree. -/
def Agree (pop : Population) (s : State) (a : Dispenser.State Int) : Prop :=
  Requests pop s ∧ Counted s ∧ a.next = s.bound ∧ a.handedOut = s.delivered.map Delivery.range

/-- The service is a dispenser that starts at 0. -/
theorem service_refines_dispenser (v : Version) (fits : total pop.clients ≤ INT_MAX) :
    Simulates (service v pop) (dispenser (0 : Int)) (Agree pop) where
  start := by
    rintro _ rfl
    exact ⟨_, rfl, Requests.start, ⟨Int.le_refl _, Int.le_refl _⟩, rfl, rfl⟩
  step := by
    rintro act s t ⟨counter, handedOut⟩ ⟨requests, counted, rfl, rfl⟩ h
    have step := next_moves h
    have requests' := requests.step step
    have counted' := counted.step requests fits step
    have stays : t.bound = s.bound → t.delivered = s.delivered →
        ∃ b, (dispenser (0 : Int)).Run ⟨s.bound, s.delivered.map Delivery.range⟩ b ∧
          Agree pop t b := by
      intro bound delivered
      exact ⟨_, Run.refl _, requests', counted', bound.symm, by rw [delivered]⟩
    cases step with
    | readRequest pc queue =>
      refine stays ?_ rfl
      simp [State.bound, pc, ServerPc.settled]
    | readFails => exact stays rfl rfl
    | opened pc =>
      refine stays ?_ rfl
      simp [State.bound, pc, ServerPc.settled]
    | gaveUp pc =>
      refine stays ?_ rfl
      simp [State.bound, State.toLoopHead, pc, ServerPc.settled]
    | wentOn pc =>
      refine stays ?_ rfl
      simp [State.bound, pc, ServerPc.settled]
    | wrote pc fd =>
      have positive := requests.positive (by simp [pc])
      refine ⟨_, Run.snoc (l := .handOut s.server.req.seqLen) (Run.refl _) (.handOut positive),
        requests', counted', ?_, ?_⟩
      · simp [State.bound, pc, ServerPc.settled]
      · simp [State.bound, pc, ServerPc.settled, Delivery.range]
    | writeFailed pc =>
      have positive := requests.positive (by simp [pc])
      refine ⟨_, Run.snoc (l := .skip s.server.req.seqLen) (Run.refl _) (.skip positive),
        requests', counted', ?_, rfl⟩
      simp [State.bound, pc, ServerPc.settled]
    | closed pc =>
      refine stays ?_ rfl
      simp [State.bound, pc, ServerPc.settled]
    | advanced pc =>
      refine stays ?_ rfl
      obtain ⟨sum, -, -⟩ := advance_exact requests counted fits pc
      simp [State.bound, State.toLoopHead, pc, ServerPc.settled, sum]
    | created pc => exact stays rfl rfl
    | sent client pc => exact stays rfl rfl
    | opens pc => exact stays rfl rfl
    | received pc response => exact stays rfl rfl
    | ended => exact stays rfl rfl

/-- In every interleaving a client receives at most one response, and that one was
computed for its request. As long as all lengths together fit in an int, the ranges delivered
follow one another, and at the loop head they lie below the counter. -/
theorem responses_are_own_and_ordered (v : Version) (pop : Population)
    (reach : (service v pop).Reachable s) :
    (∀ pid, (s.clients pid).received.length ≤ 1 ∧ ∀ n ∈ (s.clients pid).received,
      ∃ d ∈ s.delivered, d.request.pid = pid ∧ d.request ∈ pop.clients ∧ d.seqNum = n) ∧
    (s.delivered.map (fun d => d.request.pid)).Nodup ∧
    (total pop.clients ≤ INT_MAX →
      s.delivered.Pairwise (fun d e =>
        d.seqNum < e.seqNum ∧ d.seqNum + d.request.seqLen ≤ e.seqNum) ∧
      (s.server.pc = .read → ∀ d ∈ s.delivered,
        d.seqNum + d.request.seqLen ≤ s.server.seqNum)) := by
  obtain ⟨requests, responses⟩ := reachable_bookkeeping reach
  have answered := responses.answered
  have part := settled_sent s
  have known : ∀ d ∈ s.delivered, d.request ∈ pop.clients := by
    intro d hd
    exact requests.known _ ((answered.trans part).subset (List.mem_map_of_mem hd))
  refine ⟨?_, ?_, ?_⟩
  · intro pid
    refine ⟨(responses.single pid).1, ?_⟩
    intro n hn
    obtain ⟨d, hd, own, seqNum⟩ := responses.received pid n hn
    exact ⟨d, hd, own, known d hd, seqNum⟩
  · have once := requests.once.sublist ((answered.trans part).map Request.pid)
    rwa [List.map_map] at once
  · intro fits
    obtain ⟨a, ha, -, -, counter, ranges⟩ := (service_refines_dispenser v fits).reachable reach
    obtain ⟨pairwise, below⟩ := reachable_ordered ha
    constructor
    · rw [ranges, List.pairwise_map] at pairwise
      exact pairwise
    · intro pc d hd
      rw [ranges, counter] at below
      have := (below _ (List.mem_map_of_mem hd)).2
      simpa [State.bound, pc, ServerPc.settled, Delivery.range] using this

private def twoClients : Population where
  clients := [⟨7, 3⟩, ⟨8, 5⟩]
  distinct := by decide
  positive := by decide

/-- Client 7 is served while client 8 has only just created its FIFO. -/
private def serveSeven : List Act :=
  [.client 7, .client 8, .client 7, .readRequest, .client 7, .openClient true,
    .writeResponse true, .client 7, .closeClient, .advance]

theorem one_client_served :
    ∃ s, (service .blocking twoClients).Reachable s ∧ (s.clients 7).received = [0] ∧
      ∃ d ∈ s.delivered, d.request.pid = 7 ∧ d.seqNum = 0 ∧
        d.seqNum + d.request.seqLen ≤ s.server.seqNum := by
  have served : (follow (next .blocking twoClients) serveSeven State.initial).map
      (fun s => (s.server.pc, (s.clients 7).received)) = some (.read, [0]) := by decide +kernel
  obtain ⟨s, hs, facts⟩ := Option.map_eq_some_iff.mp served
  obtain ⟨pc, received⟩ := Prod.mk.inj facts
  have reach : (service .blocking twoClients).Reachable s :=
    (Reachable.initial rfl).run (follow_run hs)
  obtain ⟨own, -, ordered⟩ := responses_are_own_and_ordered .blocking twoClients reach
  obtain ⟨-, below⟩ := ordered (by decide)
  obtain ⟨d, hd, pid, -, seqNum⟩ := (own 7).2 0 (by simp [received])
  exact ⟨s, reach, received, d, hd, pid, seqNum, below pc d hd⟩

end SequenceNumbers
