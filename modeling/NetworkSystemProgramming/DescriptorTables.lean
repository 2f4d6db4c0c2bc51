import Mathlib.Logic.Function.Basic

/-!
# Descriptor tables

The descriptors of a process: a finite table whose open entries refer to something. A
new descriptor is the lowest one that is free. What a table says is its `lookup`, and
each operation is an update of it.
-/

namespace DescriptorTables

variable {δ : Type}

abbrev Table (δ : Type) := List (Option δ)

def lookup : Table δ → Nat → Option δ
  | [], _ => none
  | d :: _, 0 => d
  | _ :: t, fd + 1 => lookup t fd

def close : Table δ → Nat → Table δ
  | [], _ => []
  | _ :: t, 0 => none :: t
  | d :: t, fd + 1 => d :: close t fd

def assign : Table δ → Nat → δ → Table δ
  | [], 0, x => [some x]
  | [], fd + 1, x => none :: assign [] fd x
  | _ :: t, 0, x => some x :: t
  | d :: t, fd + 1, x => d :: assign t fd x

/-- The lowest descriptor that is not open. -/
def lowest : Table δ → Nat
  | [] => 0
  | none :: _ => 0
  | some _ :: t => lowest t + 1

/-- `dup2`; `none` when the old descriptor is not open. -/
def dup2 (t : Table δ) (old new : Nat) : Option (Table δ) :=
  (lookup t old).map (assign t new)

/-- The two descriptors of `pipe`. -/
def allocPair (t : Table δ) (x y : δ) : Table δ × Nat × Nat :=
  let first := lowest t
  let second := lowest (assign t first x)
  (assign (assign t first x) second y, first, second)

def Holds (t : Table δ) (x : δ) : Prop := ∃ fd, lookup t fd = some x

/-- The descriptors below `n` are open. -/
def FirstOpen (n : Nat) (t : Table δ) : Prop := ∀ fd < n, lookup t fd ≠ none

instance (n : Nat) (t : Table δ) : Decidable (FirstOpen n t) :=
  inferInstanceAs (Decidable (∀ fd < n, lookup t fd ≠ none))

/-- Nothing is open but stdin, stdout and stderr. -/
def standardStreams : Table Nat := [some 0, some 1, some 2]

theorem lookup_close (t : Table δ) (fd : Nat) :
    lookup (close t fd) = Function.update (lookup t) fd none := by
  induction t generalizing fd with
  | nil =>
    funext i
    simp [close, lookup, Function.update_apply]
  | cons d t ih =>
    funext i
    cases fd with
    | zero => cases i <;> simp [close, lookup]
    | succ fd =>
      cases i with
      | zero => simp [close, lookup]
      | succ i => simp [close, lookup, ih, Function.update_apply]

theorem lookup_assign (t : Table δ) (fd : Nat) (x : δ) :
    lookup (assign t fd x) = Function.update (lookup t) fd (some x) := by
  induction t generalizing fd with
  | nil =>
    induction fd with
    | zero =>
      funext i
      cases i <;> simp [assign, lookup]
    | succ fd ih =>
      funext i
      cases i with
      | zero => simp [assign, lookup]
      | succ i => simp [assign, lookup, ih, Function.update_apply]
  | cons d t ih =>
    funext i
    cases fd with
    | zero => cases i <;> simp [assign, lookup]
    | succ fd =>
      cases i with
      | zero => simp [assign, lookup]
      | succ i => simp [assign, lookup, ih, Function.update_apply]

theorem lookup_lowest (t : Table δ) : lookup t (lowest t) = none := by
  induction t with
  | nil => rfl
  | cons d t ih =>
    cases d with
    | none => rfl
    | some x => exact ih

theorem open_below_lowest {t : Table δ} {fd : Nat} (below : fd < lowest t) :
    lookup t fd ≠ none := by
  induction t generalizing fd with
  | nil => cases below
  | cons d t ih =>
    cases d with
    | none => cases below
    | some x =>
      cases fd with
      | zero => simp [lookup]
      | succ fd => exact ih (Nat.succ_lt_succ_iff.mp below)

theorem lowest_eq {t : Table δ} {fd : Nat} (free : lookup t fd = none)
    (below : ∀ i < fd, lookup t i ≠ none) : lowest t = fd := by
  rcases Nat.lt_trichotomy (lowest t) fd with less | equal | greater
  · exact absurd (lookup_lowest t) (below _ less)
  · exact equal
  · exact absurd free (open_below_lowest greater)

/-- Tables that say the same give out the same descriptor next. -/
theorem lowest_congr {t u : Table δ} (same : lookup t = lookup u) : lowest t = lowest u :=
  lowest_eq (same ▸ lookup_lowest u) fun _ below => same ▸ open_below_lowest below

theorem lookup_close_other {t : Table δ} {fd other : Nat} (ne : fd ≠ other) :
    lookup (close t other) fd = lookup t fd := by
  rw [lookup_close, Function.update_of_ne ne]

theorem dup2_of_open {t : Table δ} {old : Nat} {x : δ} (opened : lookup t old = some x)
    (new : Nat) : dup2 t old new = some (assign t new x) := by
  rw [dup2, opened, Option.map_some]

/-- The descriptors of a new pipe are two that were free. -/
theorem allocPair_spec (t : Table δ) (x y : δ) :
    ∃ a b, (allocPair t x y).2 = (a, b) ∧ a ≠ b ∧ lookup t a = none ∧ lookup t b = none ∧
      lookup (allocPair t x y).1 =
        Function.update (Function.update (lookup t) a (some x)) b (some y) := by
  have second := lookup_lowest (assign t (lowest t) x)
  rw [lookup_assign] at second
  have differ : lowest t ≠ lowest (assign t (lowest t) x) := by
    intro same
    rw [← same, Function.update_self] at second
    cases second
  refine ⟨_, _, rfl, differ, lookup_lowest t, ?_, ?_⟩
  · rwa [Function.update_of_ne differ.symm] at second
  · rw [allocPair, lookup_assign, lookup_assign]

/-- What was open stays as it is beside the new pipe. -/
theorem allocPair_open (t : Table δ) (x y : δ) :
    lookup (allocPair t x y).1 (allocPair t x y).2.1 = some x ∧
      lookup (allocPair t x y).1 (allocPair t x y).2.2 = some y ∧
      ∀ fd z, lookup t fd = some z → lookup (allocPair t x y).1 fd = some z ∧
        fd ≠ (allocPair t x y).2.1 ∧ fd ≠ (allocPair t x y).2.2 := by
  obtain ⟨a, b, fresh, differ, freeA, freeB, table⟩ := allocPair_spec t x y
  rw [fresh, table]
  refine ⟨?_, Function.update_self _ _ _, ?_⟩
  · rw [Function.update_of_ne differ, Function.update_self]
  · intro fd z opened
    have notA : fd ≠ a := by
      rintro rfl
      rw [freeA] at opened
      cases opened
    have notB : fd ≠ b := by
      rintro rfl
      rw [freeB] at opened
      cases opened
    rw [Function.update_of_ne notB, Function.update_of_ne notA]
    exact ⟨opened, notA, notB⟩

/-- Descriptors that refer to different things are different. -/
theorem fd_ne {t : Table δ} {a b : Nat} {x y : δ} (ha : lookup t a = some x)
    (hb : lookup t b = some y) (differ : x ≠ y) : a ≠ b := by
  rintro rfl
  exact differ (Option.some.inj (ha.symm.trans hb))

theorem lookup_map {ε : Type} (g : δ → ε) (t : Table δ) (fd : Nat) :
    lookup (t.map (Option.map g)) fd = (lookup t fd).map g := by
  induction t generalizing fd with
  | nil => rfl
  | cons d t ih =>
    cases fd with
    | zero => rfl
    | succ fd => exact ih fd

/-- What a table holds after an update was there before, or is new. -/
theorem holds_of_update {g : Nat → Option δ} {fd : Nat} {d : Option δ} {x : δ}
    (held : ∃ i, Function.update g fd d i = some x) : d = some x ∨ ∃ i, g i = some x := by
  obtain ⟨i, hi⟩ := held
  by_cases same : i = fd
  · rw [same, Function.update_self] at hi
    exact Or.inl hi
  · rw [Function.update_of_ne same] at hi
    exact Or.inr ⟨i, hi⟩

theorem holds_iff_mem (t : Table δ) (x : δ) : Holds t x ↔ some x ∈ t := by
  induction t with
  | nil => simp [Holds, lookup]
  | cons d t ih =>
    rw [List.mem_cons, ← ih]
    constructor
    · rintro ⟨fd, found⟩
      cases fd with
      | zero => exact Or.inl found.symm
      | succ fd => exact Or.inr ⟨fd, found⟩
    · rintro (rfl | ⟨fd, found⟩)
      · exact ⟨0, rfl⟩
      · exact ⟨fd + 1, found⟩

instance [DecidableEq δ] (t : Table δ) (x : δ) : Decidable (Holds t x) :=
  decidable_of_iff (some x ∈ t) (holds_iff_mem t x).symm

end DescriptorTables
