import Mathlib.Algebra.Order.Monoid.Unbundled.Basic
import NetworkSystemProgramming.StepSystems

/-!
# A dispenser of ranges

A counter hands out ranges of numbers one after the other, and may leave some out.
Whatever is handed out lies below the counter and overlaps with nothing handed out
before.
-/

namespace Dispenser

open StepSystems StepSystem

universe u
variable {N : Type u}

/-- The counter and the ranges handed out, each with its start and its length. -/
structure State (N : Type u) where
  next : N
  handedOut : List (N × N)

inductive Act (N : Type u) where
  | handOut (len : N)
  | skip (len : N)

section
variable [AddMonoid N] [Preorder N]

inductive Moves : Act N → State N → State N → Prop
  | handOut {len s} (positive : 0 < len) :
      Moves (.handOut len) s ⟨s.next + len, s.handedOut ++ [(s.next, len)]⟩
  | skip {len s} (positive : 0 < len) : Moves (.skip len) s ⟨s.next + len, s.handedOut⟩

def dispenser (first : N) : StepSystem (State N) (Act N) where
  start s := s = ⟨first, []⟩
  step := Moves

/-- One range ends before the other one starts. -/
def Before (a b : N × N) : Prop := a.1 < b.1 ∧ a.1 + a.2 ≤ b.1

/-- The ranges follow one another up to the counter. -/
structure Ordered (s : State N) : Prop where
  pairwise : s.handedOut.Pairwise Before
  below : ∀ r ∈ s.handedOut, 0 < r.2 ∧ r.1 + r.2 ≤ s.next

variable [AddLeftStrictMono N]

theorem Ordered.step {act : Act N} {s t : State N} (ordered : Ordered s) (step : Moves act s t) :
    Ordered t := by
  have grows : ∀ {len : N}, 0 < len → s.next < s.next + len := fun positive =>
    lt_add_of_pos_right s.next positive
  cases step with
  | handOut positive =>
    refine ⟨?_, ?_⟩
    · rw [List.pairwise_append]
      refine ⟨ordered.pairwise, List.pairwise_singleton _ _, ?_⟩
      intro a ha b hb
      obtain rfl : b = _ := List.mem_singleton.mp hb
      obtain ⟨nonempty, below⟩ := ordered.below a ha
      exact ⟨lt_of_lt_of_le (lt_add_of_pos_right a.1 nonempty) below, below⟩
    · intro r hr
      rcases List.mem_append.mp hr with old | new
      · obtain ⟨nonempty, below⟩ := ordered.below r old
        exact ⟨nonempty, le_of_lt (lt_of_le_of_lt below (grows positive))⟩
      · obtain rfl : r = _ := List.mem_singleton.mp new
        exact ⟨positive, le_refl _⟩
  | skip positive =>
    refine ⟨ordered.pairwise, ?_⟩
    intro r hr
    obtain ⟨nonempty, below⟩ := ordered.below r hr
    exact ⟨nonempty, le_of_lt (lt_of_le_of_lt below (grows positive))⟩

theorem reachable_ordered {first : N} {s : State N} (reach : (dispenser first).Reachable s) :
    Ordered s := by
  refine reach.invariant (I := Ordered) ?_ ?_
  · rintro s rfl
    exact ⟨List.Pairwise.nil, fun r hr => absurd hr List.not_mem_nil⟩
  · intro act s t ordered step
    exact ordered.step step

end
end Dispenser
