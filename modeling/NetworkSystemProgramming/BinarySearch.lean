import Mathlib.Tactic.Common

/-!
# Binary search

The search of a sorted table for an element that compares equal to a key. The
comparison function has the key as its first argument already.
-/

namespace BinarySearch

universe u
variable {A : Type u}

/-- The search in the entries from `l` up to `u`, which shrink at every step. -/
def bsearchLoop (cmp : A → Ordering) (table : List A) : Nat → Nat → Nat → Option A
  | 0, _, _ => none
  | fuel + 1, l, u =>
    if l < u then
      let idx := (l + u) / 2
      match table[idx]? with
      | none => none
      | some x =>
        match cmp x with
        | .lt => bsearchLoop cmp table fuel l idx
        | .gt => bsearchLoop cmp table fuel (idx + 1) u
        | .eq => some x
    else none

def bsearch (cmp : A → Ordering) (table : List A) : Option A :=
  bsearchLoop cmp table table.length 0 table.length

/-- Every entry behind one that the key does not exceed is larger than the key. -/
def SortedFor (cmp : A → Ordering) (table : List A) : Prop :=
  table.Pairwise fun x y => cmp x ≠ .gt → cmp y = .lt

theorem bsearchLoop_sound {cmp : A → Ordering} {table : List A} {fuel l u : Nat} {x : A}
    (h : bsearchLoop cmp table fuel l u = some x) : x ∈ table ∧ cmp x = .eq := by
  induction fuel generalizing l u with
  | zero => simp [bsearchLoop] at h
  | succ fuel ih =>
    by_cases nonempty : l < u
    · simp only [bsearchLoop, if_pos nonempty] at h
      cases entry : table[(l + u) / 2]? with
      | none => simp [entry] at h
      | some y =>
        simp only [entry] at h
        cases side : cmp y with
        | lt => exact ih (by simpa [side] using h)
        | gt => exact ih (by simpa [side] using h)
        | eq =>
          have same : y = x := by simpa [side] using h
          rw [← same]
          exact ⟨List.mem_of_getElem? entry, side⟩
    · simp [bsearchLoop, nonempty] at h

/-- What the search returns is in the table and equal to the key. -/
theorem bsearch_sound {cmp : A → Ordering} {table : List A} {x : A}
    (h : bsearch cmp table = some x) : x ∈ table ∧ cmp x = .eq :=
  bsearchLoop_sound h

/-- In a sorted table the comparison with any entry tells on which side of it an
entry equal to the key lies. -/
theorem SortedFor.side {cmp : A → Ordering} {table : List A} (sorted : SortedFor cmp table)
    {k i : Nat} {x y : A} (entry : table[k]? = some x) (equal : cmp x = .eq)
    (other : table[i]? = some y) :
    (cmp y = .lt → k < i) ∧ (cmp y = .gt → i < k) ∧ (cmp y = .eq → y = x) := by
  obtain ⟨hk, rfl⟩ := List.getElem?_eq_some_iff.mp entry
  obtain ⟨hi, rfl⟩ := List.getElem?_eq_some_iff.mp other
  have order := List.pairwise_iff_getElem.mp sorted
  rcases Nat.lt_trichotomy k i with less | rfl | more
  · have after := order k i hk hi less (by rw [equal]; decide)
    simp [after, less]
  · simp [equal]
  · have before : cmp table[i] = .gt := by
      by_contra notBefore
      have := order i k hi hk more notBefore
      rw [equal] at this
      cases this
    simp [before, more]

/-- An equal entry at `k` between the two ends is not missed. -/
theorem bsearchLoop_complete {cmp : A → Ordering} {table : List A}
    (sorted : SortedFor cmp table) {k : Nat} {x : A} (entry : table[k]? = some x)
    (equal : cmp x = .eq) {fuel l u : Nat} (lower : l ≤ k) (upper : k < u)
    (inside : u ≤ table.length) (enough : u - l ≤ fuel) :
    bsearchLoop cmp table fuel l u = some x := by
  induction fuel generalizing l u with
  | zero => omega
  | succ fuel ih =>
    have nonempty : l < u := by omega
    have bound : (l + u) / 2 < table.length := by omega
    obtain ⟨y, middle⟩ : ∃ y, table[(l + u) / 2]? = some y :=
      ⟨_, List.getElem?_eq_getElem bound⟩
    obtain ⟨before, behind, found⟩ := sorted.side entry equal middle
    simp only [bsearchLoop, if_pos nonempty, middle]
    cases side : cmp y with
    | lt =>
      have := before side
      exact ih lower this (by omega) (by omega)
    | gt =>
      have := behind side
      exact ih this upper inside (by omega)
    | eq => exact congrArg some (found side)

/-- In a sorted table the search finds the entry that is equal to the key. -/
theorem bsearch_complete {cmp : A → Ordering} {table : List A} (sorted : SortedFor cmp table)
    {x : A} (entry : x ∈ table) (equal : cmp x = .eq) : bsearch cmp table = some x := by
  obtain ⟨k, hk⟩ := List.mem_iff_getElem?.mp entry
  have bound : k < table.length := (List.getElem?_eq_some_iff.mp hk).1
  exact bsearchLoop_complete sorted hk equal (Nat.zero_le k) bound (Nat.le_refl _) (by omega)

/-- In a sorted table the search finds what a scan finds. -/
theorem bsearch_eq_find {cmp : A → Ordering} {table : List A} (sorted : SortedFor cmp table) :
    bsearch cmp table = table.find? fun x => cmp x = .eq := by
  cases scan : table.find? fun x => cmp x = .eq with
  | none =>
    rw [Option.eq_none_iff_forall_ne_some]
    intro x found
    obtain ⟨member, equal⟩ := bsearch_sound found
    exact List.find?_eq_none.mp scan x member (by simpa using equal)
  | some x =>
    have equal : cmp x = .eq := by simpa using List.find?_some scan
    exact bsearch_complete sorted (List.mem_of_find?_eq_some scan) equal

/-- A strictly increasing table is sorted for every key, in the table or not. -/
theorem SortedFor.of_increasing {cmp : A → A → Ordering} [Std.TransCmp cmp] {table : List A}
    (increasing : table.Pairwise fun x y => cmp x y = .lt) (key : A) :
    SortedFor (cmp key) table := by
  refine increasing.imp ?_
  intro x y less notBehind
  have upTo : (cmp key x).isLE := by
    cases order : cmp key x with
    | gt => exact absurd order notBehind
    | lt | eq => rfl
  exact Std.TransCmp.lt_of_isLE_of_lt upTo less

/-- The same search with a comparison that may have no result: then the search has none
either. -/
def bsearchPartialLoop (cmp : A → Option Ordering) (table : List A) :
    Nat → Nat → Nat → Option (Option A)
  | 0, _, _ => some none
  | fuel + 1, l, u =>
    if l < u then
      let idx := (l + u) / 2
      match table[idx]? with
      | none => some none
      | some x =>
        match cmp x with
        | none => none
        | some .lt => bsearchPartialLoop cmp table fuel l idx
        | some .gt => bsearchPartialLoop cmp table fuel (idx + 1) u
        | some .eq => some (some x)
    else some none

def bsearchPartial (cmp : A → Option Ordering) (table : List A) : Option (Option A) :=
  bsearchPartialLoop cmp table table.length 0 table.length

/-- Only entries of the table are compared. -/
theorem bsearchPartial_total {cmp : A → Option Ordering} {total : A → Ordering} {table : List A}
    (agree : ∀ x ∈ table, cmp x = some (total x)) :
    bsearchPartial cmp table = some (bsearch total table) := by
  have loop (fuel l u : Nat) :
      bsearchPartialLoop cmp table fuel l u = some (bsearchLoop total table fuel l u) := by
    induction fuel generalizing l u with
    | zero => rfl
    | succ fuel ih =>
      simp only [bsearchPartialLoop, bsearchLoop]
      split
      · cases entry : table[(l + u) / 2]? with
        | none => rfl
        | some x =>
          simp only [agree x (List.mem_of_getElem? entry)]
          cases total x with
          | lt => exact ih l _
          | gt => exact ih _ u
          | eq => rfl
      · rfl
  exact loop _ 0 _

end BinarySearch
