import Mathlib.Logic.Function.Basic

/-!
# Binary semaphores over a System V set

The operations of `binary_sems.c`. A set is the value of each of its
semaphores; a removed set is `none`, and every operation on it fails.
`bsUseSemUndo` is FALSE, so no operation is undone when a process exits, and
`bsRetryOnEintr` is TRUE, so an interrupted `semop` leaves the set alone and is
called again: for the caller it is one more wait.
-/

namespace BinarySems

structure SemSet where
  value : Nat → Nat

/-- What one `semop` call does now: it completes, waits, or returns -1. -/
inductive Semop where
  | done (set : SemSet)
  | blocked
  | error

def semctlSetval (set : SemSet) (semNum val : Nat) : SemSet :=
  ⟨Function.update set.value semNum val⟩

def initSemAvailable (set : SemSet) (semNum : Nat) : SemSet := semctlSetval set semNum 1

def initSemInUse (set : SemSet) (semNum : Nat) : SemSet := semctlSetval set semNum 0

/-- A negative operation waits until the value is large enough. -/
def semop (set : Option SemSet) (semNum : Nat) (op : Int) : Semop :=
  match set with
  | none => .error
  | some s =>
    if (s.value semNum : Int) + op < 0 then .blocked
    else .done (semctlSetval s semNum ((s.value semNum : Int) + op).toNat)

def reserveSem (set : Option SemSet) (semNum : Nat) : Semop := semop set semNum (-1)

def releaseSem (set : Option SemSet) (semNum : Nat) : Semop := semop set semNum 1

/-- Continue after a completed operation, or in the caller's error branch. -/
def Semop.andThen {S : Type} (result : Semop) (next : SemSet → S) (fail : S) : Option S :=
  match result with
  | .done set => some (next set)
  | .blocked => none
  | .error => some fail

/-- The value of a semaphore, 0 once the set is removed. -/
def units (set : Option SemSet) (semNum : Nat) : Nat :=
  match set with
  | none => 0
  | some s => s.value semNum

@[simp] theorem units_none (semNum : Nat) : units none semNum = 0 := rfl

@[simp] theorem units_self (set : SemSet) (semNum val : Nat) :
    units (some (semctlSetval set semNum val)) semNum = val := by
  simp [units, semctlSetval]

theorem units_other (set : SemSet) {semNum other : Nat} (val : Nat) (ne : other ≠ semNum) :
    units (some (semctlSetval set semNum val)) other = units (some set) other := by
  simp [units, semctlSetval, ne]

/-- On a live set the caller gets past `reserveSem` exactly by taking one unit. -/
theorem reserveSem_andThen {S : Type} {set : Option SemSet} {semNum : Nat}
    {next : SemSet → S} {fail t : S} (live : set ≠ none) :
    (reserveSem set semNum).andThen next fail = some t ↔
      ∃ s, set = some s ∧ 0 < units set semNum ∧
        t = next (semctlSetval s semNum (units set semNum - 1)) := by
  cases set with
  | none => exact absurd rfl live
  | some s =>
    by_cases empty : s.value semNum = 0
    · simp [reserveSem, semop, Semop.andThen, units, empty]
    · have enough : ¬ ((s.value semNum : Int) + -1 < 0) := by omega
      have less : ((s.value semNum : Int) + -1).toNat = s.value semNum - 1 := by omega
      simp only [reserveSem, semop, if_neg enough, Semop.andThen, units, less, Option.some.injEq]
      constructor
      · rintro rfl
        exact ⟨s, rfl, by omega, rfl⟩
      · rintro ⟨_, rfl, _, rfl⟩
        rfl

/-- On a live set `releaseSem` never waits and adds one unit. -/
theorem releaseSem_andThen {S : Type} {set : Option SemSet} {semNum : Nat}
    {next : SemSet → S} {fail t : S} (live : set ≠ none) :
    (releaseSem set semNum).andThen next fail = some t ↔
      ∃ s, set = some s ∧ t = next (semctlSetval s semNum (units set semNum + 1)) := by
  cases set with
  | none => exact absurd rfl live
  | some s =>
    have enough : ¬ ((s.value semNum : Int) + 1 < 0) := by omega
    have more : ((s.value semNum : Int) + 1).toNat = s.value semNum + 1 := by omega
    simp only [releaseSem, semop, if_neg enough, Semop.andThen, units, more, Option.some.injEq]
    constructor
    · rintro rfl
      exact ⟨s, rfl, rfl⟩
    · rintro ⟨_, rfl, rfl⟩
      rfl

/-- On a live set a caller waits in `reserveSem` only for want of a unit. -/
theorem reserveSem_waits {S : Type} {set : Option SemSet} {semNum : Nat}
    {next : SemSet → S} {fail : S} (live : set ≠ none)
    (waits : (reserveSem set semNum).andThen next fail = none) : units set semNum = 0 := by
  by_contra available
  obtain ⟨s, hs⟩ := Option.ne_none_iff_exists'.mp live
  have moves : (reserveSem set semNum).andThen next fail =
      some (next (semctlSetval s semNum (units set semNum - 1))) :=
    (reserveSem_andThen live).mpr ⟨s, hs, Nat.pos_of_ne_zero available, rfl⟩
  rw [waits] at moves
  cases moves

theorem releaseSem_moves {S : Type} {set : Option SemSet} {semNum : Nat}
    {next : SemSet → S} {fail : S} (live : set ≠ none) :
    (releaseSem set semNum).andThen next fail ≠ none := by
  obtain ⟨s, hs⟩ := Option.ne_none_iff_exists'.mp live
  have moves : (releaseSem set semNum).andThen next fail =
      some (next (semctlSetval s semNum (units set semNum + 1))) :=
    (releaseSem_andThen live).mpr ⟨s, hs, rfl⟩
  rw [moves]
  exact Option.some_ne_none _

end BinarySems
