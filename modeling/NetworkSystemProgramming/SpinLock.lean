import Mathlib.Tactic.Common

/-!
# Spin locks

A word is zero while the lock is free. Nobody is in the section then, and never more
than one. Acquiring and releasing keep this, and so does every step that leaves the word
alone and lets nobody in.
-/

namespace SpinLock

universe u

structure Excludes {P : Type u} (word : Nat) (holds : P → Prop) : Prop where
  free : word = 0 → ∀ p, ¬ holds p
  unique : ∀ p q, holds p → holds q → p = q

variable {P : Type u} {word word' : Nat} {holds holds' : P → Prop}

theorem Excludes.empty (nobody : ∀ p, ¬ holds p) : Excludes word holds where
  free _ := nobody
  unique p _ hp _ := absurd hp (nobody p)

/-- A compare-and-swap that succeeds. -/
theorem Excludes.acquire (h : Excludes word holds) (free : word = 0) (taken : word' ≠ 0) (p : P)
    (only : ∀ q, holds' q → q = p ∨ holds q) : Excludes word' holds' := by
  have alone : ∀ q, holds' q → q = p := by
    intro q hq
    rcases only q hq with same | before
    · exact same
    · exact absurd before (h.free free q)
  refine ⟨fun zero => absurd zero taken, ?_⟩
  intro q r hq hr
  exact (alone q hq).trans (alone r hr).symm

theorem Excludes.release (h : Excludes word holds) {p : P} (holder : holds p)
    (gone : ∀ q, holds' q → holds q ∧ q ≠ p) : Excludes word' holds' := by
  apply Excludes.empty
  intro q hq
  obtain ⟨before, other⟩ := gone q hq
  exact other (h.unique q p before holder)

theorem Excludes.keep (h : Excludes word holds) (same : word' = word)
    (fewer : ∀ q, holds' q → holds q) : Excludes word' holds' where
  free zero q hq := h.free (same ▸ zero) q (fewer q hq)
  unique p q hp hq := h.unique p q (fewer p hp) (fewer q hq)

end SpinLock
