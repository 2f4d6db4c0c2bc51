import Mathlib.Data.List.Perm.Subperm
import NetworkSystemProgramming.ProcessTree.Links

/-!
# Printing the process tree

`traversal` of `hw3_part2.c` on a table as the kernel lists it: pid 1 and pid 2 first, every
other process behind its parent. The first two entries are joined by hand.
-/

namespace ProcessTree

open SiblingLists

/-- A printed line: a process, twice as many hyphens as its `space`, and its name. -/
structure Line where
  entry : Nat
  space : Nat
  name : String
  deriving DecidableEq

/-- The static variable `count`, the fields `space`, and what is printed. The other fields do
not change any more. -/
structure Walk where
  count : Nat
  space : Nat → Nat
  lines : List Line

def printLine (pn : Nodes) (p : Nat) (w : Walk) : Walk :=
  { w with lines := w.lines ++ [⟨p, w.space p, (pn p).name⟩] }

/-- On the way to a child. -/
def toChild (c : Nat) (w : Walk) : Walk :=
  { w with count := w.count + 1, space := Function.update w.space c (w.count + 1) }

/-- On the way to a sibling. -/
def toSibling (pn : Nodes) (s : Nat) (w : Walk) : Walk :=
  let count := if (pn s).pid = 2 then 1 else w.count
  { w with count, space := Function.update w.space s count }

def traversal (pn : Nodes) : Nat → Nat → Walk → Option Walk
  | 0, _, _ => none
  | fuel + 1, p, w =>
    let w := printLine pn p w
    (match (pn p).child with
    | none => some w
    | some c => traversal pn fuel c (toChild c w)).bind fun w =>
      match (pn p).sibling with
      | none => some w
      | some s => traversal pn fuel s (toSibling pn s w)

/-- The array after `pn[0].sibling = &pn[1]`. -/
def joined (entries : List Entry) : Option Nodes := (link entries).map (setSibling · 0 1)

/-- The lines that `main` prints behind "init". -/
def processTree (fuel : Nat) (entries : List Entry) : Option (List Line) :=
  (joined entries).bind fun pn =>
    (traversal pn fuel 0 ⟨1, fun i => (pn i).space, []⟩).map Walk.lines

/-- A table as the kernel lists it. An entry of /proc that is no number, or 0, is left out by
the loop that reads it. -/
structure ProcessTable where
  entries : List Entry
  numbered : ∀ j < entries.length, (load entries j).pid ≠ 0
  two : 2 ≤ entries.length
  distinct : (entries.map Entry.pid).Nodup
  first : (load entries 0).pid = 1 ∧ (load entries 0).ppid = 0
  second : (load entries 1).pid = 2 ∧ (load entries 1).ppid = 0
  listed : ∀ j < entries.length, 2 ≤ j → ∃ k < j, (load entries k).pid = (load entries j).ppid

def firstChild (pn : Nodes) (i : Nat) : Option Nat := (pn i).child

theorem traversal_eq (pn : Nodes) (fuel p : Nat) (w : Walk) :
    traversal pn fuel p w =
      SiblingLists.traverse (firstChild pn) (siblings pn) (printLine pn) toChild (toSibling pn)
        fuel p w := by
  induction fuel generalizing p w with
  | zero => rfl
  | succ fuel ih =>
    simp only [traversal, SiblingLists.traverse, ih, firstChild, siblings]
    cases (pn p).child with
    | none => cases (pn p).sibling <;> rfl
    | some c => cases (pn p).sibling <;> rfl

namespace ProcessTable
variable (table : ProcessTable)

abbrev father (j : Nat) : Option Nat := fatherOf table.entries j

theorem father_eq {j k : Nat} (inside : j < table.entries.length) :
    table.father j = some k ↔
      k < j ∧ (load table.entries k).pid = (load table.entries j).ppid :=
  fatherOf_eq_some table.distinct inside

theorem inside_of_father {j k : Nat} (up : table.father j = some k) :
    j < table.entries.length := by
  by_contra outside
  simp [fatherOf, outside] at up

theorem father_less {j k : Nat} (up : table.father j = some k) : k < j :=
  ((table.father_eq (table.inside_of_father up)).mp up).1

/-- The first two entries have no father. -/
theorem roots {j : Nat} (root : j < 2) : table.father j = none := by
  have two := table.two
  have first := table.first
  have second := table.second
  cases up : table.father j with
  | none => rfl
  | some k =>
    obtain ⟨less, same⟩ := (table.father_eq (by omega)).mp up
    obtain rfl : j = 1 := by omega
    obtain rfl : k = 0 := by omega
    rw [first.1, second.2] at same
    cases same

theorem has_father {j : Nat} (inside : j < table.entries.length) (later : 2 ≤ j) :
    ∃ k, table.father j = some k := by
  obtain ⟨k, less, same⟩ := table.listed j inside later
  exact ⟨k, (table.father_eq inside).mpr ⟨less, same⟩⟩

/-- What the linking leaves. -/
theorem joined_eq : ∃ pn, joined table.entries = some (setSibling pn 0 1) ∧
    Linked table.entries 0 pn := by
  obtain ⟨pn, linked, final⟩ := link_linked table.entries
  exact ⟨pn, by rw [joined, linked]; rfl, final⟩

section Joined
variable {table} {pn : Nodes}

theorem joined_child (k : Nat) : firstChild (setSibling pn 0 1) k = (pn k).child := by
  rw [firstChild, setSibling_apply]

theorem joined_chain (final : Linked table.entries 0 pn) (k : Nat) :
    Chain (siblings (setSibling pn 0 1)) (firstChild (setSibling pn 0 1) k)
      (childrenFrom table.entries 0 k) := by
  rw [joined_child, siblings_setSibling]
  refine (final.chain k).frame ?_ _
  intro member
  have up := (mem_childrenFrom.mp member).2
  rw [show fatherOf table.entries 0 = none from table.roots (by omega)] at up
  cases up

theorem joined_roots (final : Linked table.entries 0 pn) :
    Chain (siblings (setSibling pn 0 1)) (some 0) [0, 1] := by
  have single : siblings pn 1 = none := final.fresh 1 (Or.inr (table.roots (by omega)))
  rw [siblings_setSibling]
  refine .cons ?_
  rw [Function.update_self]
  refine .cons ?_
  rw [Function.update_of_ne (by decide), single]
  exact .nil

theorem joined_forest (final : Linked table.entries 0 pn) :
    Forest table.father (firstChild (setSibling pn 0 1)) (siblings (setSibling pn 0 1)) id where
  chains k := by
    refine ⟨_, joined_chain final k, nodup_childrenFrom table.entries 0 k, ?_⟩
    intro a
    rw [mem_childrenFrom]
    exact and_iff_right (Nat.zero_le a)
  ranked _ _ up := table.father_less up
  bounded := by
    refine ⟨table.entries.length, ?_⟩
    intro a some
    obtain ⟨k, up⟩ := Option.ne_none_iff_exists'.mp some
    exact table.inside_of_father up

end Joined

/-- Every entry is below one of the first two. -/
theorem below_root {j : Nat} (inside : j < table.entries.length) :
    ∃ a ∈ [0, 1], Relation.ReflTransGen (Up table.father) j a := by
  induction j using Nat.strongRecOn with
  | ind j ih =>
    by_cases later : 2 ≤ j
    · obtain ⟨k, up⟩ := table.has_father inside later
      have less := table.father_less up
      obtain ⟨a, root, rest⟩ := ih k less (by omega)
      exact ⟨a, root, .head up rest⟩
    · have root : j ∈ [0, 1] := by
        simp only [List.mem_cons, List.not_mem_nil, or_false]
        omega
      exact ⟨j, root, .refl⟩

theorem inside_of_below {x a : Nat} (root : a ∈ [0, 1])
    (up : Relation.ReflTransGen (Up table.father) x a) : x < table.entries.length := by
  have two := table.two
  cases Relation.ReflTransGen.cases_head up with
  | inl same =>
    subst same
    simp only [List.mem_cons, List.not_mem_nil, or_false] at root
    omega
  | inr more =>
    obtain ⟨k, step, -⟩ := more
    exact table.inside_of_father step

/-- The tree that the links of a table encode, and its order. -/
theorem encoded {pn : Nodes} (final : Linked table.entries 0 pn) :
    ∃ shape, Encodes (firstChild (setSibling pn 0 1)) (siblings (setSibling pn 0 1)) (some 0)
        shape ∧
      shape.preorder.Perm (List.range table.entries.length) := by
  have forest := joined_forest final
  have chain := joined_roots final
  obtain ⟨shape, encodes⟩ := Encodes.of_chain chain fun a _ => forest.encodes a
  have siblings : ∀ a ∈ [0, 1], table.father a = none := by
    intro a root
    refine table.roots ?_
    simp only [List.mem_cons, List.not_mem_nil, or_false] at root
    omega
  have nodup := forest.nodup_preorder encodes chain (by decide) siblings
  refine ⟨shape, encodes, (List.perm_ext_iff_of_nodup nodup List.nodup_range).mpr ?_⟩
  intro x
  rw [forest.mem_preorder encodes chain, List.mem_range]
  constructor
  · rintro ⟨a, root, up⟩
    exact table.inside_of_below root up
  · exact table.below_root

/-- The state in which `main` calls `traversal`. -/
def entryWalk (pn : Nodes) : Walk := ⟨1, fun i => (pn i).space, []⟩

/-- The traversal is the walk along the encoded tree. -/
theorem traversal_walk {pn : Nodes} {shape : Shape Nat}
    (encodes : Encodes (firstChild pn) (siblings pn) (some 0) shape) {fuel : Nat}
    (enough : shape.preorder.length ≤ fuel) (w : Walk) :
    traversal pn fuel 0 w =
      some (shape.walk (printLine pn) toChild (toSibling pn) (fun _ w => w) w) := by
  rw [traversal_eq]
  exact traverse_eq_walk encodes (fun _ w => w) enough w

theorem walk_entries (pn : Nodes) (shape : Shape Nat) (w : Walk) :
    ((shape.walk (printLine pn) toChild (toSibling pn) (fun _ w => w) w).lines.map Line.entry) =
      w.lines.map Line.entry ++ shape.preorder := by
  refine shape.walk_log (fun w : Walk => w.lines.map Line.entry) ?_ ?_ ?_ ?_ w
  · intro a w
    simp [printLine]
  · intro a w
    rfl
  · intro a w
    rfl
  · intro a w
    rfl

theorem walk_names (pn : Nodes) (shape : Shape Nat) {w : Walk}
    (names : ∀ line ∈ w.lines, line.name = (pn line.entry).name) :
    ∀ line ∈ (shape.walk (printLine pn) toChild (toSibling pn) (fun _ w => w) w).lines,
      line.name = (pn line.entry).name := by
  refine shape.walk_keeps (fun w : Walk => ∀ line ∈ w.lines, line.name = (pn line.entry).name)
    ?_ ?_ ?_ ?_ names
  · intro a w h line member
    rcases List.mem_append.mp member with member | member
    · exact h line member
    · rw [List.mem_singleton.mp member]
  · intro c w h
    exact h
  · intro s w h
    exact h
  · intro a w h
    exact h

/-- The lines are those of the walk along the tree. -/
theorem processTree_eq {pn : Nodes} {shape : Shape Nat}
    (joins : joined table.entries = some pn)
    (encodes : Encodes (firstChild pn) (siblings pn) (some 0) shape)
    (order : shape.preorder.Perm (List.range table.entries.length)) {fuel : Nat}
    (enough : table.entries.length ≤ fuel) :
    processTree fuel table.entries =
      some (shape.walk (printLine pn) toChild (toSibling pn) (fun _ w => w)
        (entryWalk pn)).lines := by
  have length : shape.preorder.length = table.entries.length := by
    rw [order.length_eq, List.length_range]
  have run := traversal_walk encodes (length ▸ enough) (entryWalk pn)
  rw [processTree, joins, Option.bind_some, ← entryWalk, run, Option.map_some]

theorem lines_entries (pn : Nodes) (shape : Shape Nat) :
    (shape.walk (printLine pn) toChild (toSibling pn) (fun _ w => w) (entryWalk pn)).lines.map
      Line.entry = shape.preorder :=
  walk_entries pn shape (entryWalk pn)

/-- In a kernel table the process with the pid of a parent is the father. -/
theorem father_of_parent {j k : Nat} (inside : j < table.entries.length)
    (inside' : k < table.entries.length)
    (parent : (load table.entries k).pid = (load table.entries j).ppid) :
    table.father j = some k := by
  by_cases later : 2 ≤ j
  · obtain ⟨i, less, same⟩ := table.listed j inside later
    have equal : i = k := pid_injective table.distinct (Nat.lt_trans less inside) inside'
      (same.trans parent.symm)
    exact (table.father_eq inside).mpr ⟨equal ▸ less, parent⟩
  · have root : (load table.entries j).ppid = 0 := by
      rcases Nat.lt_or_ge j 1 with zero | one
      · obtain rfl : j = 0 := by omega
        exact table.first.2
      · obtain rfl : j = 1 := by omega
        exact table.second.2
    exact absurd (parent.trans root) (table.numbered k inside')

/-- The traversal ends, and prints every process once and behind its parent. -/
theorem prints_every_process_once :
    ∃ lines, (∀ fuel, table.entries.length ≤ fuel →
        processTree fuel table.entries = some lines) ∧
      (lines.map Line.entry).Perm (List.range table.entries.length) ∧
      (∀ line ∈ lines, line.name = (load table.entries line.entry).name) ∧
      ∀ j < table.entries.length, ∀ k < table.entries.length,
        (load table.entries k).pid = (load table.entries j).ppid →
          List.Sublist [k, j] (lines.map Line.entry) := by
  obtain ⟨pn, joins, final⟩ := table.joined_eq
  obtain ⟨shape, encodes, order⟩ := table.encoded final
  have entries := lines_entries (setSibling pn 0 1) shape
  refine ⟨_, fun _ enough => table.processTree_eq joins encodes order enough, entries ▸ order,
    ?_, ?_⟩
  · intro line member
    have name := walk_names (setSibling pn 0 1) shape (by simp [entryWalk]) line member
    rw [name, setSibling_apply]
    exact (final.data line.entry).2.2.2
  · intro j hj k hk parent
    rw [entries]
    have up := table.father_of_parent hj hk parent
    have member : k ∈ shape.preorder := order.mem_iff.mpr (List.mem_range.mpr hk)
    exact (joined_forest final).father_first encodes member up

end ProcessTable
end ProcessTree
