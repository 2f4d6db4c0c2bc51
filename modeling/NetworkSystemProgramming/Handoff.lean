import NetworkSystemProgramming.StepSystems

/-!
# Handing items over through one slot

A producer puts items into a slot that holds at most one, a consumer takes them
out. Whatever the order of the steps, what was taken, what lies in the slot and
what is still to come are the original items in their order.
-/

namespace Handoff

open StepSystems

universe u
variable {A : Type u}

structure State (A : Type u) where
  pending : List A
  slot : Option A
  taken : List A

inductive Act where
  | put
  | take

def next : Act → State A → Option (State A)
  | .put, ⟨a :: rest, none, taken⟩ => some ⟨rest, some a, taken⟩
  | .take, ⟨pending, some a, taken⟩ => some ⟨pending, none, taken ++ [a]⟩
  | _, _ => none

def handoff (items : List A) : StepSystem (State A) Act :=
  .ofNext (· = ⟨items, none, []⟩) next

/-- Nothing is lost, duplicated or reordered. -/
theorem handoff_conserves {items : List A} {s : State A} (h : (handoff items).Reachable s) :
    s.taken ++ s.slot.toList ++ s.pending = items := by
  refine h.invariant (I := fun s => s.taken ++ s.slot.toList ++ s.pending = items) ?_ ?_
  · rintro r rfl
    simp
  · rintro act ⟨pending, slot, taken⟩ t kept step
    cases act with
    | put =>
      cases pending with
      | nil => simp [handoff, StepSystem.ofNext, next] at step
      | cons a rest =>
        cases slot with
        | none => cases step; simpa using kept
        | some b => simp [handoff, StepSystem.ofNext, next] at step
    | take =>
      cases slot with
      | none => simp [handoff, StepSystem.ofNext, next] at step
      | some a => cases step; simpa using kept

end Handoff
