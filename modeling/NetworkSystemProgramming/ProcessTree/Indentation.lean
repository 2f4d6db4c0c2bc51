import NetworkSystemProgramming.ProcessTree.Traversal

/-!
# The indentation of the process tree

`count` grows on every way down and is set back for pid 2 only, so it is right for a process
as long as nothing deeper has been printed since its siblings.
-/

namespace ProcessTree

open SiblingLists

/-- The distance of an entry from pid 1 or pid 2, along the pids of the parents. -/
inductive Depth (entries : List Entry) : Nat → Nat → Prop
  | root {j : Nat} (inside : j < entries.length)
      (pid : (load entries j).pid = 1 ∨ (load entries j).pid = 2) : Depth entries j 0
  | child {j k d : Nat} (inside : j < entries.length) (inside' : k < entries.length)
      (parent : (load entries k).pid = (load entries j).ppid) (above : Depth entries k d) :
      Depth entries j (d + 1)

/-- Every line is indented by one more than the depth of its process. -/
def Indented (entries : List Entry) (lines : List Line) : Prop :=
  ∀ line ∈ lines, ∃ d, Depth entries line.entry d ∧ line.space = 1 + d

/-- Of the processes with one parent, only the one listed first has children. -/
def FirstOnlyParent (entries : List Entry) : Prop :=
  ∀ i j, 2 ≤ i → i < j → j < entries.length →
    (load entries i).ppid = (load entries j).ppid →
      ∀ m < entries.length, (load entries m).ppid ≠ (load entries j).pid

section Counting
variable {A : Type*}

/-- The counter after a tree that is entered with `d` added. -/
def after (d : Nat) : Shape A → Nat → Nat
  | .nil, c => c
  | .node _ child sibling, c => after 0 sibling (after 1 child (c + d))

/-- The nodes of a tree with the counter at each. -/
def counted (d : Nat) : Shape A → Nat → List (A × Nat)
  | .nil, _ => []
  | .node a child sibling, c =>
    (a, c + d) :: (counted 1 child (c + d) ++ counted 0 sibling (after 1 child (c + d)))

theorem le_after (d : Nat) (shape : Shape A) (c : Nat) : c ≤ after d shape c := by
  induction shape generalizing d c with
  | nil => exact Nat.le_refl c
  | node a child sibling ihChild ihSibling =>
    calc c ≤ c + d := Nat.le_add_right c d
      _ ≤ after 1 child (c + d) := ihChild 1 (c + d)
      _ ≤ after 0 sibling (after 1 child (c + d)) := ihSibling 0 _

section Pointers
variable {child sibling : A → Option A} {start : Option A} {shape : Shape A}

/-- The counter is higher behind a subtree. -/
theorem less_after {a : A} (h : Encodes child sibling (some a) shape) (c : Nat) :
    c < after 1 shape c := by
  cases h with
  | @node _ first rest _ _ =>
    calc c < c + 1 := Nat.lt_succ_self c
      _ ≤ after 1 first (c + 1) := le_after 1 first (c + 1)
      _ ≤ after 0 rest (after 1 first (c + 1)) := le_after 0 rest _

theorem start_counted {a : A} (h : Encodes child sibling (some a) shape) (d c : Nat) :
    (a, c + d) ∈ counted d shape c := by
  cases h with
  | node _ _ => exact List.mem_cons_self

/-- A counter that starts right stays so exactly if nothing stands beside a node that has
something below it. -/
theorem counted_right_iff {level : A → Nat}
    (below : ∀ a b, child a = some b → level b = level a + 1)
    (beside : ∀ a b, sibling a = some b → level b = level a)
    (h : Encodes child sibling start shape) {d c : Nat}
    (right : ∀ a, start = some a → c + d = level a) :
    (∀ p ∈ counted d shape c, p.2 = level p.1) ↔
      ∀ a ∈ shape.preorder, child a = none ∨ sibling a = none := by
  induction h generalizing d c with
  | nil => simp [counted, Shape.preorder]
  | @node a first rest hChild hSibling ihChild ihSibling =>
    have own : c + d = level a := right a rfl
    have lower := @ihChild 1 (c + d) fun b goes => by rw [below a b goes, own]
    simp only [counted, Shape.preorder, List.forall_mem_cons, List.forall_mem_append]
    rw [lower]
    cases goes : child a with
    | none =>
      -- nothing is below, so the counter is still that of the node
      have empty : first = .nil := hChild.eq_nil_iff.mpr goes
      have same := @ihSibling 0 (after 1 first (c + d)) fun b goes => by
        rw [empty, beside a b goes, ← own]
        rfl
      rw [same]
      exact ⟨fun h => ⟨Or.inl rfl, h.2⟩, fun h => ⟨own, h.2⟩⟩
    | some b =>
      cases next : sibling a with
      | none =>
        have empty : rest = .nil := hSibling.eq_nil_iff.mpr next
        rw [empty]
        simp [counted, Shape.preorder, own]
      | some b' =>
        constructor
        · rintro ⟨-, -, late⟩
          have right := late _ (start_counted (next ▸ hSibling) 0 _)
          rw [beside a b' next, ← own] at right
          have more := less_after (goes ▸ hChild) (c + d)
          exact absurd right (Nat.ne_of_gt more)
        · rintro ⟨neither, -⟩
          rcases neither with neither | neither <;> cases neither

end Pointers
end Counting

section Walks

/-- The entries printed so far, with their `space`. -/
def Walk.printed (w : Walk) : List (Nat × Nat) := w.lines.map fun line => (line.entry, line.space)

/-- What is done on the way to an entry: `d` is added to the counter. -/
def enterWith (d a : Nat) (w : Walk) : Walk :=
  { w with count := w.count + d, space := Function.update w.space a (w.count + d) }

theorem printed_printLine (pn : Nodes) (a : Nat) (w : Walk) :
    (printLine pn a w).printed = w.printed ++ [(a, w.space a)] := by
  simp [printLine, Walk.printed]

theorem printed_enterWith (pn : Nodes) (d a : Nat) (w : Walk) :
    (printLine pn a (enterWith d a w)).printed = w.printed ++ [(a, w.count + d)] := by
  have space : (enterWith d a w).space a = w.count + d := Function.update_self ..
  rw [printed_printLine, space]
  rfl

theorem toSibling_plain {pn : Nodes} {a : Nat} (plain : (pn a).pid ≠ 2) (w : Walk) :
    toSibling pn a w = enterWith 0 a w := by
  rw [toSibling, if_neg plain]
  rfl

/-- At pid 2 the counter is set back. -/
theorem printed_second {pn : Nodes} {a : Nat} (second : (pn a).pid = 2) (w : Walk) :
    (printLine pn a (toSibling pn a w)).count = 1 ∧
      (printLine pn a (toSibling pn a w)).printed = w.printed ++ [(a, 1)] := by
  have entered : toSibling pn a w =
      { w with count := 1, space := Function.update w.space a 1 } := by
    rw [toSibling, if_pos second]
  have space : (toSibling pn a w).space a = 1 := by
    rw [entered]
    exact Function.update_self ..
  rw [printed_printLine, space, entered]
  exact ⟨rfl, rfl⟩

/-- On a tree without pid 2 the walk counts as `counted` does. -/
theorem walk_counted {pn : Nodes} {shape : Shape Nat}
    (plain : ∀ a ∈ shape.preorder, (pn a).pid ≠ 2) {d : Nat} {enter : Nat → Walk → Walk}
    (enters : ∀ a ∈ shape.preorder, ∀ w, enter a w = enterWith d a w) (w : Walk) :
    (shape.walk (printLine pn) toChild (toSibling pn) enter w).count = after d shape w.count ∧
      (shape.walk (printLine pn) toChild (toSibling pn) enter w).printed =
        w.printed ++ counted d shape w.count := by
  induction shape generalizing d enter w with
  | nil => exact ⟨rfl, by simp [Shape.walk, counted]⟩
  | node a child sibling ihChild ihSibling =>
    simp only [Shape.preorder, List.forall_mem_cons, List.forall_mem_append] at plain enters
    obtain ⟨-, plainChild, plainSibling⟩ := plain
    have across : ∀ b ∈ sibling.preorder, ∀ w, toSibling pn b w = enterWith 0 b w :=
      fun b member w => toSibling_plain (plainSibling b member) w
    rw [Shape.walk, enters.1 w]
    have entered : (printLine pn a (enterWith d a w)).count = w.count + d := rfl
    obtain ⟨countChild, printedChild⟩ := @ihChild plainChild 1 toChild (fun _ _ _ => rfl)
      (printLine pn a (enterWith d a w))
    rw [entered] at countChild printedChild
    rw [printed_enterWith] at printedChild
    obtain ⟨countSibling, printedSibling⟩ := @ihSibling plainSibling 0 (toSibling pn) across
      (child.walk (printLine pn) toChild (toSibling pn) toChild
        (printLine pn a (enterWith d a w)))
    rw [countChild] at countSibling printedSibling
    refine ⟨countSibling, ?_⟩
    rw [printedSibling, printedChild, counted]
    simp

/-- The walk from `main`: behind the first tree the counter is 1 again. -/
theorem walk_roots {pn : Nodes} {c₀ c₁ : Shape Nat} (start : (pn 0).space = 1)
    (second : (pn 1).pid = 2) (plain : ∀ a ∈ c₀.preorder ++ c₁.preorder, (pn a).pid ≠ 2) :
    ((Shape.node 0 c₀ (.node 1 c₁ .nil)).walk (printLine pn) toChild (toSibling pn)
        (fun _ w => w) ⟨1, fun i => (pn i).space, []⟩).printed =
      (0, 1) :: counted 1 c₀ 1 ++ (1, 1) :: counted 1 c₁ 1 := by
  rw [List.forall_mem_append] at plain
  have down : ∀ (shape : Shape Nat), ∀ a ∈ shape.preorder, ∀ w, toChild a w = enterWith 1 a w :=
    fun _ _ _ _ => rfl
  rw [Shape.walk, Shape.walk, Shape.walk]
  obtain ⟨one, printed⟩ := printed_second second
    (c₀.walk (printLine pn) toChild (toSibling pn) toChild
      (printLine pn 0 ⟨1, fun i => (pn i).space, []⟩))
  rw [(walk_counted plain.2 (down c₁) _).2, one, printed, (walk_counted plain.1 (down c₀) _).2,
    printed_printLine]
  simp [Walk.printed, printLine, start]

end Walks

namespace ProcessTable
variable (table : ProcessTable)

/-- The two roots have no parent in the table. -/
theorem root_parent {j k : Nat} (inside : j < table.entries.length)
    (inside' : k < table.entries.length)
    (root : (load table.entries j).pid = 1 ∨ (load table.entries j).pid = 2) :
    (load table.entries k).pid ≠ (load table.entries j).ppid := by
  have two := table.two
  have ppid : (load table.entries j).ppid = 0 := by
    rcases root with one | second
    · obtain rfl := pid_injective table.distinct inside (by omega : 0 < table.entries.length)
        (one.trans table.first.1.symm)
      exact table.first.2
    · obtain rfl := pid_injective table.distinct inside (by omega : 1 < table.entries.length)
        (second.trans table.second.1.symm)
      exact table.second.2
  rw [ppid]
  exact table.numbered k inside'

theorem depth_unique {j d d' : Nat} (h : Depth table.entries j d)
    (h' : Depth table.entries j d') : d = d' := by
  induction h generalizing d' with
  | root inside root =>
    cases h' with
    | root _ _ => rfl
    | child _ inside' parent _ => exact absurd parent (table.root_parent inside inside' root)
  | child inside inside' parent _ ih =>
    cases h' with
    | root _ root => exact absurd parent (table.root_parent inside inside' root)
    | child _ inside'' parent' above' =>
      obtain rfl := pid_injective table.distinct inside' inside'' (parent.trans parent'.symm)
      rw [ih above']

theorem depth_of_father {j k d : Nat} (up : table.father j = some k)
    (above : Depth table.entries k d) : Depth table.entries j (d + 1) := by
  have inside := table.inside_of_father up
  obtain ⟨less, parent⟩ := (table.father_eq inside).mp up
  exact .child inside (Nat.lt_trans less inside) parent above

theorem depth_of_root {j : Nat} (root : j < 2) : Depth table.entries j 0 := by
  have two := table.two
  refine .root (by omega) ?_
  rcases Nat.lt_or_ge j 1 with zero | one
  · obtain rfl : j = 0 := by omega
    exact Or.inl table.first.1
  · obtain rfl : j = 1 := by omega
    exact Or.inr table.second.1

theorem exists_depth {j : Nat} (inside : j < table.entries.length) :
    ∃ d, Depth table.entries j d := by
  induction j using Nat.strongRecOn with
  | ind j ih =>
    by_cases later : 2 ≤ j
    · obtain ⟨k, up⟩ := table.has_father inside later
      have less := table.father_less up
      obtain ⟨d, above⟩ := ih k less (by omega)
      exact ⟨d + 1, table.depth_of_father up above⟩
    · exact ⟨0, table.depth_of_root (by omega)⟩

/-- What the lines ought to show, as a function of the entry. -/
theorem exists_level : ∃ level : Nat → Nat, ∀ j < table.entries.length, ∀ s,
    (∃ d, Depth table.entries j d ∧ s = 1 + d) ↔ s = level j := by
  have depths (j : Nat) : ∃ d, j < table.entries.length → Depth table.entries j d := by
    by_cases inside : j < table.entries.length
    · obtain ⟨d, depth⟩ := table.exists_depth inside
      exact ⟨d, fun _ => depth⟩
    · exact ⟨0, fun inside' => absurd inside' inside⟩
  choose depth right using depths
  refine ⟨fun j => 1 + depth j, ?_⟩
  intro j inside s
  constructor
  · rintro ⟨d, own, rfl⟩
    rw [table.depth_unique own (right j inside)]
  · rintro rfl
    exact ⟨depth j, right j inside, rfl⟩

section Pointers
variable {table} {pn : Nodes}

theorem pairwise_childrenFrom (entries : List Entry) (m k : Nat) :
    (childrenFrom entries m k).Pairwise (· > ·) :=
  List.pairwise_reverse.mpr (List.Pairwise.filter _ List.pairwise_lt_range')

theorem joined_child_up (final : Linked table.entries 0 pn) {k c : Nat}
    (goes : firstChild (setSibling pn 0 1) k = some c) : table.father c = some k := by
  have head := (joined_chain final k).head
  rw [goes] at head
  exact (mem_childrenFrom.mp (List.mem_of_mem_head? head.symm)).2

theorem joined_child_none (final : Linked table.entries 0 pn) (k : Nat) :
    firstChild (setSibling pn 0 1) k = none ↔ ∀ m, table.father m ≠ some k := by
  rw [(joined_chain final k).head, List.head?_eq_none_iff, List.eq_nil_iff_forall_not_mem]
  simp only [mem_childrenFrom, Nat.zero_le, true_and]

/-- The sibling of an entry is the next one before it with the same father. -/
theorem joined_sibling (final : Linked table.entries 0 pn) {j k : Nat}
    (up : table.father j = some k) :
    (∀ s, siblings (setSibling pn 0 1) j = some s → table.father s = some k) ∧
      (siblings (setSibling pn 0 1) j = none ↔ ∀ i < j, table.father i ≠ some k) := by
  have member : j ∈ childrenFrom table.entries 0 k := mem_childrenFrom.mpr ⟨Nat.zero_le j, up⟩
  obtain ⟨before, rest, split⟩ := List.append_of_mem member
  have order := pairwise_childrenFrom table.entries 0 k
  rw [(joined_chain final k).next_eq split]
  rw [split, List.pairwise_append] at order
  obtain ⟨-, later, earlier⟩ := order
  constructor
  · intro s goes
    have member : s ∈ childrenFrom table.entries 0 k := by
      rw [split]
      exact List.mem_append_right _ (List.mem_cons_of_mem j (List.mem_of_mem_head? goes))
    exact (mem_childrenFrom.mp member).2
  · rw [List.head?_eq_none_iff]
    constructor
    · rintro rfl i less up'
      have member : i ∈ childrenFrom table.entries 0 k :=
        mem_childrenFrom.mpr ⟨Nat.zero_le i, up'⟩
      rw [split, List.mem_append, List.mem_singleton] at member
      rcases member with member | rfl
      · have := earlier i member j List.mem_cons_self
        omega
      · exact Nat.lt_irrefl i less
    · intro alone
      refine List.eq_nil_iff_forall_not_mem.mpr ?_
      intro i member
      have less := (List.pairwise_cons.mp later).1 i member
      have member' : i ∈ childrenFrom table.entries 0 k := by
        rw [split]
        exact List.mem_append_right _ (List.mem_cons_of_mem j member)
      exact alone i less (mem_childrenFrom.mp member').2

theorem joined_root_siblings (final : Linked table.entries 0 pn) :
    siblings (setSibling pn 0 1) 0 = some 1 ∧ siblings (setSibling pn 0 1) 1 = none := by
  have roots := joined_roots final
  have zero : [0, 1] = [] ++ 0 :: [1] := rfl
  have one : [0, 1] = [0] ++ 1 :: [] := rfl
  exact ⟨roots.next_eq zero, roots.next_eq one⟩

/-- The two roots, with what hangs below them. -/
theorem joined_shape (final : Linked table.entries 0 pn) :
    ∃ c₀ c₁, Encodes (firstChild (setSibling pn 0 1)) (siblings (setSibling pn 0 1)) (some 0)
        (.node 0 c₀ (.node 1 c₁ .nil)) ∧
      Encodes (firstChild (setSibling pn 0 1)) (siblings (setSibling pn 0 1))
        (firstChild (setSibling pn 0 1) 0) c₀ ∧
      Encodes (firstChild (setSibling pn 0 1)) (siblings (setSibling pn 0 1))
        (firstChild (setSibling pn 0 1) 1) c₁ ∧
      (Shape.node 0 c₀ (.node 1 c₁ .nil)).preorder.Perm (List.range table.entries.length) := by
  obtain ⟨shape, encodes, order⟩ := table.encoded final
  obtain ⟨next, ends⟩ := joined_root_siblings final
  have whole := encodes
  cases encodes with
  | @node _ c₀ rest below₀ beside =>
    rw [next] at beside
    cases beside with
    | @node _ c₁ rest below₁ beside =>
      rw [ends] at beside
      cases beside
      exact ⟨c₀, c₁, whole, below₀, below₁, order⟩

theorem mem_below_roots {c₀ c₁ : Shape Nat}
    (order : (Shape.node 0 c₀ (.node 1 c₁ .nil)).preorder.Perm
      (List.range table.entries.length)) (x : Nat) :
    x ∈ c₀.preorder ++ c₁.preorder ↔ 2 ≤ x ∧ x < table.entries.length := by
  have nodup := order.nodup_iff.mpr List.nodup_range
  have member : x ∈ _ ↔ _ := order.mem_iff
  simp only [Shape.preorder, List.append_nil, List.nodup_cons, List.mem_append, List.mem_cons,
    List.nodup_append, List.mem_range, not_or] at nodup member
  obtain ⟨⟨zero₀, -, zero₁⟩, -, ⟨one₁, -⟩, apart⟩ := nodup
  have one₀ : 1 ∉ c₀.preorder := fun here => apart 1 here 1 (Or.inl rfl) rfl
  rw [List.mem_append]
  constructor
  · intro below
    have zero : x ≠ 0 := by
      rintro rfl
      exact below.elim zero₀ zero₁
    have one : x ≠ 1 := by
      rintro rfl
      exact below.elim one₀ one₁
    exact ⟨by omega, member.mp (Or.inr (below.imp_right Or.inr))⟩
  · rintro ⟨later, inside⟩
    rcases member.mpr inside with zero | here | one | here
    · omega
    · exact Or.inl here
    · omega
    · exact Or.inr here

section Levels
variable {level : Nat → Nat}
  (levels : ∀ j < table.entries.length, ∀ s,
    (∃ d, Depth table.entries j d ∧ s = 1 + d) ↔ s = level j)
include levels

theorem level_of_root {j : Nat} (root : j < 2) : level j = 1 := by
  have two := table.two
  exact ((levels j (by omega) 1).mp ⟨0, table.depth_of_root root, rfl⟩).symm

theorem level_of_father {j k : Nat} (up : table.father j = some k) : level j = level k + 1 := by
  have inside := table.inside_of_father up
  have less := table.father_less up
  obtain ⟨d, above, value⟩ := (levels k (Nat.lt_trans less inside) (level k)).mpr rfl
  have own := (levels j inside (1 + (d + 1))).mp ⟨d + 1, table.depth_of_father up above, rfl⟩
  omega

theorem level_of_sibling (final : Linked table.entries 0 pn) {a b : Nat}
    (next : siblings (setSibling pn 0 1) a = some b) : level b = level a := by
  cases up : table.father a with
  | some k =>
    rw [level_of_father levels up, level_of_father levels ((joined_sibling final up).1 b next)]
  | none =>
    rw [siblings_setSibling] at next
    by_cases first : a = 0
    · subst first
      rw [Function.update_self] at next
      cases next
      rw [level_of_root levels Nat.zero_lt_two, level_of_root levels Nat.one_lt_two]
    · have single : siblings pn a = none := final.fresh a (Or.inr up)
      rw [Function.update_of_ne first, single] at next
      cases next

end Levels

/-- The entries that the counter is right for, in terms of the links. -/
theorem firstOnlyParent_iff (final : Linked table.entries 0 pn) :
    FirstOnlyParent table.entries ↔ ∀ a, 2 ≤ a ∧ a < table.entries.length →
      firstChild (setSibling pn 0 1) a = none ∨ siblings (setSibling pn 0 1) a = none := by
  constructor
  · rintro first a ⟨later, inside⟩
    obtain ⟨k, up⟩ := table.has_father inside later
    by_cases childless : firstChild (setSibling pn 0 1) a = none
    · exact Or.inl childless
    · refine Or.inr ((joined_sibling final up).2.mpr ?_)
      intro i less up'
      refine childless ((joined_child_none final a).mpr ?_)
      intro m below
      have later' : 2 ≤ i := by
        by_contra root
        rw [table.roots (by omega)] at up'
        cases up'
      have same := ((table.father_eq (Nat.lt_trans less inside)).mp up').2.symm.trans
        ((table.father_eq inside).mp up).2
      have inside' := table.inside_of_father below
      exact first i a later' less inside same m inside' ((table.father_eq inside').mp below).2.symm
  · intro alone i j later less inside same m inside' parent
    obtain ⟨k, up⟩ := table.has_father inside (by omega : 2 ≤ j)
    rcases alone j ⟨by omega, inside⟩ with childless | last
    · exact (joined_child_none final j).mp childless m
        (table.father_of_parent inside' inside parent.symm)
    · obtain ⟨before, above⟩ := (table.father_eq inside).mp up
      exact (joined_sibling final up).2.mp last i less
        (table.father_of_parent (Nat.lt_trans less inside) (Nat.lt_trans before inside)
          (above.trans same.symm))

/-- What `main` prints, entry by entry. -/
theorem printed_roots (final : Linked table.entries 0 pn) {c₀ c₁ : Shape Nat}
    (order : (Shape.node 0 c₀ (.node 1 c₁ .nil)).preorder.Perm
      (List.range table.entries.length)) :
    ((Shape.node 0 c₀ (.node 1 c₁ .nil)).walk (printLine (setSibling pn 0 1)) toChild
        (toSibling (setSibling pn 0 1)) (fun _ w => w)
          (entryWalk (setSibling pn 0 1))).printed =
      (0, 1) :: counted 1 c₀ 1 ++ (1, 1) :: counted 1 c₁ 1 := by
  have two := table.two
  have data (a : Nat) : (setSibling pn 0 1 a).pid = (load table.entries a).pid ∧
      (setSibling pn 0 1 a).space = (load table.entries a).space := by
    rw [setSibling_apply]
    exact ⟨(final.data a).1, (final.data a).2.2.1⟩
  refine walk_roots ?_ ((data 1).1.trans table.second.1) ?_
  · rw [(data 0).2]
    simp [load, List.getElem?_eq_getElem (by omega : 0 < table.entries.length)]
  · intro a member second
    obtain ⟨later, inside⟩ := (mem_below_roots order a).mp member
    rw [(data a).1] at second
    have equal := pid_injective table.distinct inside (by omega : 1 < table.entries.length)
      (second.trans table.second.1.symm)
    omega

theorem indented_iff_printed {level : Nat → Nat}
    (levels : ∀ j < table.entries.length, ∀ s,
      (∃ d, Depth table.entries j d ∧ s = 1 + d) ↔ s = level j) {w : Walk}
    (inside : ∀ line ∈ w.lines, line.entry < table.entries.length) :
    Indented table.entries w.lines ↔ ∀ p ∈ w.printed, p.2 = level p.1 := by
  rw [Walk.printed, List.forall_mem_map]
  exact forall₂_congr fun line member => levels line.entry (inside line member) line.space

end Pointers

/-- The indentation is right exactly if of the processes with one parent only the one listed
first has children. -/
theorem indented_iff :
    ∃ lines, (∀ fuel, table.entries.length ≤ fuel →
        processTree fuel table.entries = some lines) ∧
      (Indented table.entries lines ↔ FirstOnlyParent table.entries) := by
  obtain ⟨pn, joins, final⟩ := table.joined_eq
  obtain ⟨c₀, c₁, whole, below₀, below₁, order⟩ := joined_shape final
  obtain ⟨level, levels⟩ := table.exists_level
  have inside : ∀ line ∈ ((Shape.node 0 c₀ (.node 1 c₁ .nil)).walk
      (printLine (setSibling pn 0 1)) toChild (toSibling (setSibling pn 0 1)) (fun _ w => w)
        (entryWalk (setSibling pn 0 1))).lines, line.entry < table.entries.length := by
    intro line member
    have entry := List.mem_map_of_mem (f := Line.entry) member
    rw [lines_entries, order.mem_iff, List.mem_range] at entry
    exact entry
  have lower (a b : Nat) (goes : firstChild (setSibling pn 0 1) a = some b) :
      level b = level a + 1 := level_of_father levels (joined_child_up final goes)
  have right (r : Nat) (root : r < 2) (b : Nat)
      (goes : firstChild (setSibling pn 0 1) r = some b) : 1 + 1 = level b := by
    rw [lower r b goes, level_of_root levels root]
  have tree₀ := counted_right_iff lower (fun _ _ => level_of_sibling levels final) below₀
    (right 0 Nat.zero_lt_two)
  have tree₁ := counted_right_iff lower (fun _ _ => level_of_sibling levels final) below₁
    (right 1 Nat.one_lt_two)
  refine ⟨_, fun _ enough => table.processTree_eq joins whole order enough, ?_⟩
  rw [indented_iff_printed levels inside, printed_roots final order, firstOnlyParent_iff final]
  simp only [← mem_below_roots order, List.cons_append, List.forall_mem_cons,
    List.forall_mem_append, tree₀, tree₁, level_of_root levels Nat.zero_lt_two,
    level_of_root levels Nat.one_lt_two, true_and]

/-- Two children of init, of which the one listed last has a child. -/
def withNephew : ProcessTable where
  entries := [⟨1, 0, "init"⟩, ⟨2, 0, "kthreadd"⟩, ⟨3, 1, "cron"⟩, ⟨4, 1, "bash"⟩, ⟨5, 4, "ps"⟩]
  numbered := by decide
  two := by decide
  distinct := by decide
  first := by decide
  second := by decide
  listed := by decide

/-- "cron" is printed behind "ps" and as deep, two levels below init instead of one. -/
theorem sibling_behind_subtree :
    ∃ lines, processTree 5 withNephew.entries = some lines ∧
      lines = [⟨0, 1, "init"⟩, ⟨3, 2, "bash"⟩, ⟨4, 3, "ps"⟩, ⟨2, 3, "cron"⟩,
        ⟨1, 1, "kthreadd"⟩] ∧
      Depth withNephew.entries 2 1 ∧ Depth withNephew.entries 3 1 ∧
      ¬ Indented withNephew.entries lines := by
  have root : Depth withNephew.entries 0 0 := .root (by decide) (by decide)
  have cron : Depth withNephew.entries 2 1 := .child (by decide) (by decide) (by decide) root
  have bash : Depth withNephew.entries 3 1 := .child (by decide) (by decide) (by decide) root
  refine ⟨_, by decide +kernel, rfl, cron, bash, ?_⟩
  intro right
  obtain ⟨d, depth, space⟩ := right ⟨2, 3, "cron"⟩ (by simp)
  rw [withNephew.depth_unique depth cron] at space
  cases space

end ProcessTable
end ProcessTree
