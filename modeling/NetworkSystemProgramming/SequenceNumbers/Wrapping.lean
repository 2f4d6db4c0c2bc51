import NetworkSystemProgramming.SequenceNumbers.Ranges
import NetworkSystemProgramming.SequenceNumbers.Versions

/-!
# When the counter wraps around

`seqNum` is an int that is never checked. The two servers do the same for requests that
are served, and the sum of the lengths decides what the clients get.
-/

namespace SequenceNumbers

/-- The turns of the loop for requests that are answered. -/
def served (requests : List Request) : List Turn := requests.map (Turn.request · true true)

/-- The numbers that a response stands for. -/
def Delivery.Contains (d : Delivery) (n : Int) : Prop :=
  d.seqNum ≤ n ∧ n < d.seqNum + d.request.seqLen

/-- No number is negative, and none is given out twice. -/
structure Sound (delivered : List Delivery) : Prop where
  nonneg : ∀ d ∈ delivered, 0 ≤ d.seqNum
  disjoint : delivered.Pairwise fun d e => ∀ n, ¬ (d.Contains n ∧ e.Contains n)

/-- The lengths that the clients can ask for. -/
def Request.Valid (r : Request) : Prop := 1 ≤ r.seqLen ∧ r.seqLen ≤ INT_MAX

/-- The responses to requests, from a value of the counter on. -/
def answers (seqNum : Int) : List Request → List Delivery
  | [] => []
  | r :: rest => ⟨seqNum, r⟩ :: answers (addInt seqNum r.seqLen) rest

theorem serveAll_served (v : Version) (seqNum : Int) (requests : List Request) :
    (serveAll v seqNum (served requests)).filterMap Outcome.response = answers seqNum requests := by
  induction requests generalizing seqNum with
  | nil => rfl
  | cons r rest ih =>
    have turn : serveTurn v seqNum (.request r true true) =
        ⟨some ⟨seqNum, r⟩, addInt seqNum r.seqLen⟩ := by
      cases v <;> rfl
    rw [served, List.map_cons, ← served, serveAll, turn, List.filterMap_cons, ih]
    rfl

theorem responses_served (v : Version) (requests : List Request) :
    responses v (served requests) = answers 0 requests := serveAll_served v 0 requests

theorem total_cons (r : Request) (rest : List Request) :
    total (r :: rest) = r.seqLen + total rest := by
  rw [total, List.map_cons, List.sum_cons, total]

section
variable {requests : List Request} {seqNum : Int}

theorem total_valid (valid : ∀ r ∈ requests, r.Valid) : 0 ≤ total requests := by
  induction requests with
  | nil => exact Int.le_refl _
  | cons r rest ih =>
    have first := (valid r List.mem_cons_self).1
    have others := ih (fun r hr => valid r (List.mem_cons_of_mem _ hr))
    rw [total_cons]
    omega

/-- The sum with the next length, while it fits in an int. -/
theorem addInt_exact {seqLen : Int} (nonneg : 0 ≤ seqNum) (length : 0 ≤ seqLen)
    (fits : seqNum + seqLen ≤ INT_MAX) : addInt seqNum seqLen = seqNum + seqLen := by
  rw [INT_MAX] at fits
  exact Int.bmod_eq_of_le (by omega) (by omega)

/-- The first sum that does not fit is negative. -/
theorem addInt_wraps {seqLen : Int} (before : seqNum ≤ INT_MAX) (length : seqLen ≤ INT_MAX)
    (exceeds : INT_MAX < seqNum + seqLen) : addInt seqNum seqLen < 0 := by
  simp only [addInt, INT_MAX, Int.bmod] at *
  split <;> omega

/-- While the counter fits, the ranges follow one another. -/
theorem answers_ordered (valid : ∀ r ∈ requests, r.Valid) (nonneg : 0 ≤ seqNum)
    (fits : seqNum + total requests.dropLast ≤ INT_MAX) :
    (∀ d ∈ answers seqNum requests, seqNum ≤ d.seqNum) ∧
      (answers seqNum requests).Pairwise fun d e => d.seqNum + d.request.seqLen ≤ e.seqNum := by
  induction requests generalizing seqNum with
  | nil => simp [answers]
  | cons r rest ih =>
    have later := fun r hr => valid r (List.mem_cons_of_mem _ hr)
    cases rest with
    | nil => simp [answers]
    | cons r' rest =>
      have length := (valid r List.mem_cons_self).1
      have behind := total_valid (fun s hs => later s (List.dropLast_subset _ hs))
      rw [List.dropLast_cons_cons, total_cons] at fits
      have sum := addInt_exact nonneg (by omega) (show seqNum + r.seqLen ≤ INT_MAX by omega)
      have forward : 0 ≤ seqNum + r.seqLen := by omega
      obtain ⟨below, ordered⟩ := ih later forward (by omega)
      rw [answers, sum]
      refine ⟨?_, List.pairwise_cons.mpr ⟨below, ordered⟩⟩
      intro d member
      rcases List.mem_cons.mp member with rfl | member
      · exact Int.le_refl _
      · have := below d member
        omega

/-- When the counter does not fit, the response behind the first sum that is too large is
negative. -/
theorem answers_negative (valid : ∀ r ∈ requests, r.Valid) (nonneg : 0 ≤ seqNum)
    (fits : seqNum ≤ INT_MAX) (exceeds : INT_MAX < seqNum + total requests.dropLast) :
    ∃ d ∈ answers seqNum requests, d.seqNum < 0 := by
  induction requests generalizing seqNum with
  | nil =>
    rw [List.dropLast_nil, total, List.map_nil, List.sum_nil] at exceeds
    omega
  | cons r rest ih =>
    have later := fun r hr => valid r (List.mem_cons_of_mem _ hr)
    cases rest with
    | nil =>
      rw [List.dropLast_singleton, total, List.map_nil, List.sum_nil] at exceeds
      omega
    | cons r' rest =>
      obtain ⟨positive, small⟩ := valid r List.mem_cons_self
      rw [List.dropLast_cons_cons, total_cons] at exceeds
      rw [answers]
      by_cases next : seqNum + r.seqLen ≤ INT_MAX
      · have sum := addInt_exact nonneg (by omega) next
        have forward : 0 ≤ seqNum + r.seqLen := by omega
        obtain ⟨d, member, negative⟩ := ih later forward next (by omega)
        rw [sum]
        exact ⟨d, List.mem_cons_of_mem _ member, negative⟩
      · have wraps := addInt_wraps fits small (by omega)
        exact ⟨⟨addInt seqNum r.seqLen, r'⟩, by simp [answers], wraps⟩

/-- The responses to a sequence of requests are sound exactly while the lengths in front
of the last request fit in an int together. -/
theorem answers_sound_iff (valid : ∀ r ∈ requests, r.Valid) :
    Sound (answers 0 requests) ↔ total requests.dropLast ≤ INT_MAX := by
  constructor
  · intro sound
    by_contra exceeds
    obtain ⟨d, member, negative⟩ :=
      answers_negative valid (Int.le_refl 0) (by decide) (by omega)
    have := sound.nonneg d member
    omega
  · intro fits
    obtain ⟨below, ordered⟩ := answers_ordered valid (Int.le_refl 0) (by omega)
    refine ⟨below, ordered.imp ?_⟩
    rintro d e behind n ⟨⟨_, less⟩, ⟨least, _⟩⟩
    omega

end

/-- Either server gives out nonnegative numbers, and each of them once, exactly as long as
the lengths of all requests served before the last one add up to an int. -/
theorem ranges_sound_iff (v : Version) {requests : List Request}
    (valid : ∀ r ∈ requests, r.Valid) :
    Sound (responses v (served requests)) ↔ total requests.dropLast ≤ INT_MAX := by
  rw [responses_served]
  exact answers_sound_iff valid

theorem ranges_of_largest_request_last :
    Sound (responses .blocking (served [⟨7, 5⟩, ⟨8, 2147483647⟩])) :=
  (ranges_sound_iff .blocking (by simp [Request.Valid, INT_MAX])).mpr (by decide)

/-- The third client gets the number -2147483648, from both servers. -/
theorem counter_becomes_negative :
    (∀ r ∈ [(⟨7, 2147483647⟩ : Request), ⟨8, 1⟩, ⟨9, 1⟩], r.Valid) ∧
      ∀ v, ¬ Sound (responses v (served [⟨7, 2147483647⟩, ⟨8, 1⟩, ⟨9, 1⟩])) := by
  refine ⟨by simp [Request.Valid, INT_MAX], ?_⟩
  intro v sound
  have third : (⟨-2147483648, ⟨9, 1⟩⟩ : Delivery) ∈
      responses v (served [⟨7, 2147483647⟩, ⟨8, 1⟩, ⟨9, 1⟩]) := by
    rw [responses_served]
    decide
  exact absurd (sound.nonneg _ third) (by decide)

end SequenceNumbers
