import Mathlib.Data.List.Basic
import Mathlib.Logic.Function.Basic
import Mathlib.Logic.Relation
import Mathlib.Order.RelClasses

/-!
# First children and next siblings

Trees in which every node has a pointer to its first child and one to its next sibling.
Chains of siblings with their append, the trees that such pointers encode, and a recursion
that follows the pointers. The nodes are an arbitrary type.
-/

namespace SiblingLists

universe u v
variable {A : Type u}

/-- The nodes that a pointer leads to, one sibling after the other. -/
inductive Chain (next : A → Option A) : Option A → List A → Prop
  | nil : Chain next none []
  | cons {a : A} {l : List A} (rest : Chain next (next a) l) : Chain next (some a) (a :: l)

section Chains
variable {next : A → Option A} {start : Option A} {l : List A}

theorem Chain.unique {l' : List A} (h : Chain next start l) (h' : Chain next start l') :
    l = l' := by
  induction h generalizing l' with
  | nil =>
    cases h'
    rfl
  | cons _ ih =>
    cases h' with
    | cons rest => rw [ih rest]

theorem Chain.head (h : Chain next start l) : start = l.head? := by
  cases h <;> rfl

/-- Every node of a chain points to the one behind it. -/
theorem Chain.next_eq (h : Chain next start l) {before after : List A} {a : A}
    (split : l = before ++ a :: after) : next a = after.head? := by
  induction h generalizing before with
  | nil => simp at split
  | @cons b l rest ih =>
    cases before with
    | nil =>
      obtain ⟨rfl, rfl⟩ := List.cons.inj split
      exact rest.head
    | cons c before =>
      obtain ⟨rfl, tail⟩ := List.cons.inj split
      exact ih tail

/-- The walk to the end of a chain. -/
def last (next : A → Option A) : Nat → A → Option A
  | 0, _ => none
  | fuel + 1, a =>
    match next a with
    | none => some a
    | some b => last next fuel b

theorem Chain.last {a : A} (h : Chain next (some a) l) {fuel : Nat} (enough : l.length ≤ fuel) :
    ∃ before z, l = before ++ [z] ∧ SiblingLists.last next fuel a = some z := by
  induction l generalizing a fuel with
  | nil => cases h
  | cons b l ih =>
    cases h with
    | cons rest =>
      obtain ⟨fuel, rfl⟩ : ∃ n, fuel = n + 1 := ⟨fuel - 1, by simp at enough; omega⟩
      cases l with
      | nil =>
        have ends : next b = none := rest.head
        exact ⟨[], b, rfl, by rw [SiblingLists.last, ends]⟩
      | cons c l =>
        have goes : next b = some c := rest.head
        rw [goes] at rest
        obtain ⟨before, z, split, walk⟩ := ih rest (by simpa using enough)
        refine ⟨b :: before, z, by rw [split]; rfl, ?_⟩
        rw [SiblingLists.last, goes]
        exact walk

section Updates
variable [DecidableEq A]

/-- A pointer outside a chain does not matter to it. -/
theorem Chain.frame (h : Chain next start l) {z : A} (out : z ∉ l) (v : Option A) :
    Chain (Function.update next z v) start l := by
  induction h with
  | nil => exact .nil
  | @cons a l _ ih =>
    have other : a ≠ z := by
      rintro rfl
      exact out List.mem_cons_self
    refine .cons ?_
    rw [Function.update_of_ne other]
    exact ih fun member => out (List.mem_cons_of_mem a member)

/-- Linking a node behind the last one appends it. -/
theorem Chain.append (h : Chain next start l) {before : List A} {z b : A}
    (ends : l = before ++ [z]) (fresh : b ∉ l) (single : next b = none) :
    Chain (Function.update next z (some b)) start (l ++ [b]) := by
  have only : Chain (Function.update next z (some b)) (some b) [b] := by
    have other : b ≠ z := by
      rintro rfl
      exact fresh (by simp [ends])
    refine .cons ?_
    rw [Function.update_of_ne other, single]
    exact .nil
  induction h generalizing before with
  | nil => simp at ends
  | @cons a l rest ih =>
    cases before with
    | nil =>
      obtain ⟨rfl, rfl⟩ := List.cons.inj ends
      refine .cons ?_
      rw [Function.update_self]
      exact only
    | cons c before =>
      obtain ⟨rfl, tail⟩ := List.cons.inj ends
      have other : a ≠ z := by
        rintro rfl
        have nil : next a = none := rest.next_eq tail
        have head := rest.head
        rw [nil, tail] at head
        cases before <;> cases head
      refine .cons ?_
      rw [Function.update_of_ne other]
      exact ih tail fun member => fresh (List.mem_cons_of_mem a member)

end Updates
end Chains

/-- A tree by its pointers: a node, what hangs below it and what stands beside it. -/
inductive Shape (A : Type u) where
  | nil
  | node (a : A) (child sibling : Shape A)

/-- The nodes in the order of the recursion. -/
def Shape.preorder : Shape A → List A
  | .nil => []
  | .node a child sibling => a :: (child.preorder ++ sibling.preorder)

/-- What the pointers from a start encode. -/
inductive Encodes (child sibling : A → Option A) : Option A → Shape A → Prop
  | nil : Encodes child sibling none .nil
  | node {a : A} {c s : Shape A} (below : Encodes child sibling (child a) c)
      (beside : Encodes child sibling (sibling a) s) :
      Encodes child sibling (some a) (.node a c s)

section Encoding
variable {child sibling : A → Option A} {start : Option A} {s : Shape A} {l : List A}

theorem Encodes.eq_nil_iff (h : Encodes child sibling start s) : s = .nil ↔ start = none := by
  cases h <;> simp

theorem Encodes.of_chain (chain : Chain sibling start l)
    (below : ∀ a ∈ l, ∃ c, Encodes child sibling (child a) c) :
    ∃ s, Encodes child sibling start s := by
  induction chain with
  | nil => exact ⟨.nil, .nil⟩
  | @cons a l _ ih =>
    obtain ⟨c, first⟩ := below a List.mem_cons_self
    obtain ⟨s, rest⟩ := ih fun b member => below b (List.mem_cons_of_mem a member)
    exact ⟨.node a c s, .node first rest⟩

theorem Encodes.mem_of_chain (h : Encodes child sibling start s) (chain : Chain sibling start l) :
    ∀ a ∈ l, a ∈ s.preorder := by
  induction h generalizing l with
  | nil =>
    cases chain
    simp
  | @node a c s _ _ _ ih =>
    cases chain with
    | @cons _ l rest =>
      intro b member
      rcases List.mem_cons.mp member with rfl | member
      · exact List.mem_cons_self
      · exact List.mem_cons_of_mem a (List.mem_append_right _ (ih rest b member))

end Encoding

/-- Pointers that agree with a father function: below each node hang exactly the nodes whose
father it is, and a rank grows from father to child. -/
structure Forest (father child sibling : A → Option A) (rank : A → Nat) : Prop where
  chains : ∀ k, ∃ l, Chain sibling (child k) l ∧ l.Nodup ∧ ∀ a, a ∈ l ↔ father a = some k
  ranked : ∀ a k, father a = some k → rank k < rank a
  bounded : ∃ top, ∀ a, father a ≠ none → rank a < top

section Forests
variable {father child sibling : A → Option A} {rank : A → Nat} {start : Option A} {s : Shape A}
  {l : List A}

/-- One step up. -/
def Up (father : A → Option A) (a k : A) : Prop := father a = some k

theorem up_rightUnique : Relator.RightUnique (Up father) := by
  intro a k k' h h'
  exact Option.some.inj (h.symm.trans h')

theorem Forest.encodes (forest : Forest father child sibling rank) (k : A) :
    ∃ s, Encodes child sibling (child k) s := by
  obtain ⟨top, bounded⟩ := forest.bounded
  induction hm : top - rank k using Nat.strongRecOn generalizing k with
  | ind m ih =>
    obtain ⟨l, chain, -, members⟩ := forest.chains k
    refine Encodes.of_chain chain ?_
    intro a member
    have up := (members a).mp member
    have higher := forest.ranked a k up
    have below := bounded a (by simp [up])
    exact ih (top - rank a) (by omega) a rfl

/-- The rank does not grow on the way up. -/
theorem Forest.rank_le (forest : Forest father child sibling rank) {a k : A}
    (up : Relation.ReflTransGen (Up father) a k) : rank k ≤ rank a := by
  induction up with
  | refl => exact Nat.le_refl _
  | tail _ step ih =>
    have less := forest.ranked _ _ step
    omega

/-- Different nodes with one father are not above each other. -/
theorem Forest.siblings_apart (forest : Forest father child sibling rank) {a b : A}
    (same : father a = father b) (up : Relation.ReflTransGen (Up father) a b) : a = b := by
  cases Relation.ReflTransGen.cases_head up with
  | inl equal => exact equal
  | inr more =>
    obtain ⟨k, step, rest⟩ := more
    have above : father b = some k := same ▸ step
    have less := forest.ranked b k above
    have le := forest.rank_le rest
    omega

/-- The nodes of a tree are those below the nodes of its chain. -/
theorem Forest.mem_preorder (forest : Forest father child sibling rank)
    (h : Encodes child sibling start s) (chain : Chain sibling start l) (x : A) :
    x ∈ s.preorder ↔ ∃ a ∈ l, Relation.ReflTransGen (Up father) x a := by
  induction h generalizing l with
  | nil =>
    cases chain
    simp [Shape.preorder]
  | @node a c s _ _ ihChild ihSibling =>
    cases chain with
    | @cons _ l rest =>
      obtain ⟨below, chain, -, members⟩ := forest.chains a
      rw [Shape.preorder, List.mem_cons, List.mem_append, ihChild chain, ihSibling rest]
      constructor
      · rintro (rfl | ⟨b, member, up⟩ | ⟨b, member, up⟩)
        · exact ⟨x, List.mem_cons_self, .refl⟩
        · exact ⟨a, List.mem_cons_self, up.tail ((members b).mp member)⟩
        · exact ⟨b, List.mem_cons_of_mem a member, up⟩
      · rintro ⟨b, member, up⟩
        rcases List.mem_cons.mp member with rfl | member
        · cases up with
          | refl => exact Or.inl rfl
          | @tail y _ up step => exact Or.inr (Or.inl ⟨y, (members y).mpr step, up⟩)
        · exact Or.inr (Or.inr ⟨b, member, up⟩)

/-- No node is met twice. -/
theorem Forest.nodup_preorder (forest : Forest father child sibling rank)
    (h : Encodes child sibling start s) (chain : Chain sibling start l) (distinct : l.Nodup)
    {above : Option A} (siblings : ∀ a ∈ l, father a = above) : s.preorder.Nodup := by
  induction h generalizing l above with
  | nil => exact List.nodup_nil
  | @node a c s hChild hSibling ihChild ihSibling =>
    cases chain with
    | @cons _ l rest =>
      obtain ⟨below, chain, nodup, members⟩ := forest.chains a
      obtain ⟨fresh, distinct⟩ := List.nodup_cons.mp distinct
      have father_a := siblings a List.mem_cons_self
      have beside : ∀ b ∈ l, father b = above := fun b hb => siblings b (List.mem_cons_of_mem a hb)
      have deeper {x : A} (hx : x ∈ c.preorder) :
          ∃ b, father b = some a ∧ Relation.ReflTransGen (Up father) x b := by
        obtain ⟨b, member, up⟩ := (forest.mem_preorder hChild chain x).mp hx
        exact ⟨b, (members b).mp member, up⟩
      have apart {x b : A} (hb : b ∈ l) (toA : Relation.ReflTransGen (Up father) x a)
          (toB : Relation.ReflTransGen (Up father) x b) : False := by
        have same : father a = father b := father_a.trans (beside b hb).symm
        rcases Relation.ReflTransGen.total_of_right_unique up_rightUnique toA toB with up | up
        · exact fresh (forest.siblings_apart same up ▸ hb)
        · exact fresh (forest.siblings_apart same.symm up ▸ hb)
      rw [Shape.preorder, List.nodup_cons, List.nodup_append]
      refine ⟨?_, ihChild chain nodup fun b hb => (members b).mp hb, ihSibling rest distinct beside,
        ?_⟩
      · rw [List.mem_append]
        rintro (hx | hx)
        · obtain ⟨b, step, up⟩ := deeper hx
          have less := forest.ranked b a step
          have le := forest.rank_le up
          omega
        · obtain ⟨b, member, up⟩ := (forest.mem_preorder hSibling rest a).mp hx
          exact apart member .refl up
      · rintro x hx y hy rfl
        obtain ⟨b, step, up⟩ := deeper hx
        obtain ⟨d, member, up'⟩ := (forest.mem_preorder hSibling rest x).mp hy
        exact apart member (up.tail step) up'

/-- A node comes after its father. -/
theorem Forest.father_first (forest : Forest father child sibling rank)
    (h : Encodes child sibling start s) {k j : A} (member : k ∈ s.preorder)
    (up : father j = some k) : List.Sublist [k, j] s.preorder := by
  induction h with
  | nil => cases member
  | @node a c s hChild _ ihChild ihSibling =>
    rw [Shape.preorder] at member ⊢
    rcases List.mem_cons.mp member with rfl | member
    · obtain ⟨below, chain, -, members⟩ := forest.chains k
      have inside := hChild.mem_of_chain chain j ((members j).mpr up)
      exact (List.singleton_sublist.mpr (List.mem_append_left _ inside)).cons_cons k
    · rcases List.mem_append.mp member with member | member
      · exact ((ihChild member).trans (List.sublist_append_left _ _)).cons a
      · exact ((ihSibling member).trans (List.sublist_append_right _ _)).cons a

end Forests

/-! ## The recursion along the pointers -/

section Recursion
variable {S : Type v} (child sibling : A → Option A) (visit down across : A → S → S)

/-- Visit a node, go down to its first child, and then across to its next sibling. -/
def traverse : Nat → A → S → Option S
  | 0, _, _ => none
  | fuel + 1, a, s =>
    let s := visit a s
    (match child a with
    | none => some s
    | some c => traverse fuel c (down c s)).bind fun s =>
      match sibling a with
      | none => some s
      | some b => traverse fuel b (across b s)

/-- The recursion from a pointer; `enter` is what is done on the way to its node. -/
def traverseFrom (enter : A → S → S) (fuel : Nat) (start : Option A) (s : S) : Option S :=
  match start with
  | none => some s
  | some a => traverse child sibling visit down across fuel a (enter a s)

/-- The same on a tree. -/
def Shape.walk : (A → S → S) → Shape A → S → S
  | _, .nil, s => s
  | enter, .node a c b, s => b.walk across (c.walk down (visit a (enter a s)))

variable {child sibling visit down across}

theorem traverse_succ (fuel : Nat) (a : A) (s : S) :
    traverse child sibling visit down across (fuel + 1) a s =
      (traverseFrom child sibling visit down across down fuel (child a) (visit a s)).bind
        (traverseFrom child sibling visit down across across fuel (sibling a)) := rfl

/-- As much fuel as there are nodes is enough. -/
theorem traverse_eq_walk {start : Option A} {shape : Shape A}
    (h : Encodes child sibling start shape) (enter : A → S → S) {fuel : Nat}
    (enough : shape.preorder.length ≤ fuel) (s : S) :
    traverseFrom child sibling visit down across enter fuel start s =
      some (shape.walk visit down across enter s) := by
  induction h generalizing enter fuel s with
  | nil => rfl
  | @node a c b _ _ ihChild ihSibling =>
    rw [Shape.preorder, List.length_cons, List.length_append] at enough
    obtain ⟨fuel, rfl⟩ : ∃ n, fuel = n + 1 := ⟨fuel - 1, by omega⟩
    rw [traverseFrom, traverse_succ, ihChild down (by omega), Option.bind_some,
      ihSibling across (by omega)]
    rfl

/-- What the visits write down are the nodes in preorder. -/
theorem Shape.walk_log (log : S → List A) (shape : Shape A) {enter : A → S → S}
    (visits : ∀ a s, log (visit a s) = log s ++ [a]) (downs : ∀ a s, log (down a s) = log s)
    (acrosses : ∀ a s, log (across a s) = log s) (enters : ∀ a s, log (enter a s) = log s) (s : S) :
    log (shape.walk visit down across enter s) = log s ++ shape.preorder := by
  induction shape generalizing enter s with
  | nil => simp [Shape.walk, Shape.preorder]
  | node a c b ihChild ihSibling =>
    rw [Shape.walk, ihSibling acrosses, ihChild downs, visits, enters, Shape.preorder]
    simp

theorem Shape.walk_keeps (P : S → Prop) (shape : Shape A) {enter : A → S → S}
    (visits : ∀ a s, P s → P (visit a s)) (downs : ∀ a s, P s → P (down a s))
    (acrosses : ∀ a s, P s → P (across a s)) (enters : ∀ a s, P s → P (enter a s)) {s : S}
    (h : P s) : P (shape.walk visit down across enter s) := by
  induction shape generalizing enter s with
  | nil => exact h
  | node a c b ihChild ihSibling =>
    exact ihSibling acrosses (ihChild downs (visits a _ (enters a s h)))

end Recursion
end SiblingLists
