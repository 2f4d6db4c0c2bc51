import Mathlib.Data.List.Nodup
import NetworkSystemProgramming.SiblingLists

/-!
# Linking the process table

`hw3_part2.c` up to its output: the table read from /proc, and the double loop that links
each process to its father. The father is searched among the entries before the process
only. Pointers are indices into the table.
-/

namespace ProcessTree

open SiblingLists

/-- What /proc tells about a process, in the order of the directory. -/
structure Entry where
  pid : Int
  ppid : Int
  name : String
  deriving DecidableEq

structure ProcessNode where
  pid : Int
  ppid : Int
  space : Nat
  name : String
  child : Option Nat
  father : Option Nat
  sibling : Option Nat

/-- The array `pn`. What lies behind the table is not looked at. -/
abbrev Nodes := Nat → ProcessNode

/-- The array once /proc is read. -/
def load (entries : List Entry) : Nodes := fun i =>
  match entries[i]? with
  | some e => ⟨e.pid, e.ppid, 1, e.name, none, none, none⟩
  | none => ⟨0, 0, 0, "", none, none, none⟩

def siblings (pn : Nodes) (i : Nat) : Option Nat := (pn i).sibling

def setFather (pn : Nodes) (j k : Nat) : Nodes :=
  Function.update pn j { pn j with father := some k }

def setChild (pn : Nodes) (k j : Nat) : Nodes :=
  Function.update pn k { pn k with child := some j }

def setSibling (pn : Nodes) (i j : Nat) : Nodes :=
  Function.update pn i { pn i with sibling := some j }

/-- The body of the inner loop: `pn[k]` is the father of `pn[j]`. The fuel is for the walk to
the end of the sibling list. -/
def attach (fuel : Nat) (pn : Nodes) (j k : Nat) : Option Nodes :=
  let pn := setFather pn j k
  match (pn k).child with
  | none => some (setChild pn k j)
  | some first => (last (siblings pn) fuel first).map fun ptr => setSibling pn ptr j

/-- The inner loop, over the entries before `k`. -/
def linkInner (fuel : Nat) (pn : Nodes) (j : Nat) : Nat → Option Nodes
  | 0 => some pn
  | k + 1 =>
    if (pn j).ppid = (pn k).pid then attach fuel pn j k else linkInner fuel pn j k

/-- The outer loop, over the entries before `j`. -/
def linkLoop (fuel : Nat) : Nat → Nodes → Option Nodes
  | 0, pn => some pn
  | j + 1, pn => (linkInner fuel pn j j).bind (linkLoop fuel j)

/-- The array behind the linking loops. -/
def link (entries : List Entry) : Option Nodes :=
  linkLoop entries.length entries.length (load entries)

section Updates
variable (pn : Nodes) (i j k : Nat)

theorem setFather_apply : setFather pn j k i =
    { pn i with father := if i = j then some k else (pn i).father } := by
  by_cases h : i = j
  · subst h
    simp [setFather]
  · simp [setFather, h]

theorem setChild_apply : setChild pn k j i =
    { pn i with child := if i = k then some j else (pn i).child } := by
  by_cases h : i = k
  · subst h
    simp [setChild]
  · simp [setChild, h]

theorem setSibling_apply (ptr : Nat) : setSibling pn ptr j i =
    { pn i with sibling := if i = ptr then some j else (pn i).sibling } := by
  by_cases h : i = ptr
  · subst h
    simp [setSibling]
  · simp [setSibling, h]

@[simp] theorem siblings_setFather : siblings (setFather pn j k) = siblings pn := by
  funext i
  simp [siblings, setFather_apply]

@[simp] theorem siblings_setChild : siblings (setChild pn k j) = siblings pn := by
  funext i
  simp [siblings, setChild_apply]

theorem siblings_setSibling (ptr : Nat) :
    siblings (setSibling pn ptr j) = Function.update (siblings pn) ptr (some j) := by
  funext i
  by_cases h : i = ptr
  · subst h
    simp [siblings, setSibling_apply]
  · simp [siblings, setSibling_apply, h]

end Updates

/-- The entry that the inner loop finds: the last one before `m` with the pid. -/
def fatherIndex (pn : Nodes) (j : Nat) : Nat → Option Nat
  | 0 => none
  | k + 1 => if (pn j).ppid = (pn k).pid then some k else fatherIndex pn j k

theorem fatherIndex_eq_some {pn : Nodes} {j m k : Nat} (found : fatherIndex pn j m = some k) :
    k < m ∧ (pn j).ppid = (pn k).pid := by
  induction m with
  | zero => cases found
  | succ m ih =>
    rw [fatherIndex] at found
    split at found
    · next same =>
      cases found
      exact ⟨Nat.lt_succ_self _, same⟩
    · obtain ⟨less, same⟩ := ih found
      exact ⟨Nat.lt_succ_of_lt less, same⟩

theorem fatherIndex_eq_none {pn : Nodes} {j m : Nat} :
    fatherIndex pn j m = none ↔ ∀ k < m, (pn j).ppid ≠ (pn k).pid := by
  induction m with
  | zero => simp [fatherIndex]
  | succ m ih =>
    rw [fatherIndex]
    constructor
    · intro none k less
      split at none
      · cases none
      · next other =>
        rcases Nat.lt_succ_iff_lt_or_eq.mp less with less | rfl
        · exact ih.mp none k less
        · exact other
    · intro none
      rw [if_neg (none m (Nat.lt_succ_self m))]
      exact ih.mpr fun k less => none k (Nat.lt_succ_of_lt less)

theorem linkInner_eq (fuel : Nat) (pn : Nodes) (j m : Nat) :
    linkInner fuel pn j m =
      match fatherIndex pn j m with
      | none => some pn
      | some k => attach fuel pn j k := by
  induction m with
  | zero => rfl
  | succ m ih =>
    rw [linkInner, fatherIndex]
    split
    · rfl
    · exact ih

/-- The father of an entry in the finished table. -/
def fatherOf (entries : List Entry) (j : Nat) : Option Nat :=
  if j < entries.length then fatherIndex (load entries) j j else none

/-- The children of an entry among those from `m` on, the last one first. -/
def childrenFrom (entries : List Entry) (m k : Nat) : List Nat :=
  ((List.range' m (entries.length - m)).filter (fatherOf entries · = some k)).reverse

theorem mem_childrenFrom {entries : List Entry} {m k j : Nat} :
    j ∈ childrenFrom entries m k ↔ m ≤ j ∧ fatherOf entries j = some k := by
  have inside : fatherOf entries j = some k → j < entries.length := by
    intro found
    by_contra outside
    simp [fatherOf, outside] at found
  simp only [childrenFrom, List.mem_reverse, List.mem_filter, List.mem_range'_1, decide_eq_true_eq]
  constructor
  · rintro ⟨⟨less, -⟩, found⟩
    exact ⟨less, found⟩
  · rintro ⟨less, found⟩
    have := inside found
    exact ⟨⟨less, by omega⟩, found⟩

theorem nodup_childrenFrom (entries : List Entry) (m k : Nat) :
    (childrenFrom entries m k).Nodup :=
  List.nodup_reverse.mpr (List.Nodup.filter _ (List.nodup_range' ..))

theorem childrenFrom_step {entries : List Entry} {m : Nat} (inside : m < entries.length)
    (k : Nat) :
    childrenFrom entries m k =
      childrenFrom entries (m + 1) k ++ if fatherOf entries m = some k then [m] else [] := by
  have steps : entries.length - m = entries.length - (m + 1) + 1 := by omega
  rw [childrenFrom, steps, List.range'_succ, List.filter_cons]
  split
  · next found =>
    rw [List.reverse_cons, if_pos (by simpa using found)]
    rfl
  · next other =>
    rw [if_neg (by simpa using other), List.append_nil]
    rfl

/-- The array when the entries from `m` on are linked. -/
structure Linked (entries : List Entry) (m : Nat) (pn : Nodes) : Prop where
  data : ∀ i, (pn i).pid = (load entries i).pid ∧ (pn i).ppid = (load entries i).ppid ∧
    (pn i).space = (load entries i).space ∧ (pn i).name = (load entries i).name
  father : ∀ i, (pn i).father = if m ≤ i then fatherOf entries i else none
  chain : ∀ k, Chain (siblings pn) (pn k).child (childrenFrom entries m k)
  fresh : ∀ i, i < m ∨ fatherOf entries i = none → (pn i).sibling = none

theorem load_linked (entries : List Entry) : Linked entries entries.length (load entries) := by
  have empty (i : Nat) : (load entries i).child = none ∧ (load entries i).father = none ∧
      (load entries i).sibling = none := by
    simp only [load]
    split <;> exact ⟨rfl, rfl, rfl⟩
  refine ⟨fun i => ⟨rfl, rfl, rfl, rfl⟩, ?_, ?_, fun i _ => (empty i).2.2⟩
  · intro i
    rw [(empty i).2.1]
    split
    · next behind => rw [fatherOf, if_neg (Nat.not_lt.mpr behind)]
    · rfl
  · intro k
    have none : childrenFrom entries entries.length k = [] := by simp [childrenFrom]
    rw [(empty k).1, none]
    exact .nil

section Step
variable {entries : List Entry} {m : Nat} {pn : Nodes}

theorem Linked.fatherIndex_eq (linked : Linked entries m pn) (j i : Nat) :
    fatherIndex pn j i = fatherIndex (load entries) j i := by
  induction i with
  | zero => rfl
  | succ i ih => rw [fatherIndex, fatherIndex, ih, (linked.data j).2.1, (linked.data i).1]

/-- An entry without a father among those before it stays as it is. -/
theorem Linked.orphan (linked : Linked entries (m + 1) pn) (inside : m < entries.length)
    (none : fatherOf entries m = none) : Linked entries m pn := by
  refine ⟨linked.data, ?_, ?_, fun i out => linked.fresh i (out.imp_left Nat.lt_succ_of_lt)⟩
  · intro i
    rw [linked.father i]
    by_cases here : i = m
    · subst here
      simp [none]
    · have same : m + 1 ≤ i ↔ m ≤ i := by omega
      simp [same]
  · intro k
    have chain := linked.chain k
    rwa [childrenFrom_step inside, none, if_neg (by simp), List.append_nil]

theorem childrenFrom_other (inside : m < entries.length) {k k' : Nat}
    (found : fatherOf entries m = some k) (other : k' ≠ k) :
    childrenFrom entries m k' = childrenFrom entries (m + 1) k' := by
  have differs : fatherOf entries m ≠ some k' := by
    rw [found]
    intro same
    exact other (Option.some.inj same).symm
  rw [childrenFrom_step inside, if_neg differs, List.append_nil]

theorem childrenFrom_own (inside : m < entries.length) {k : Nat}
    (found : fatherOf entries m = some k) :
    childrenFrom entries m k = childrenFrom entries (m + 1) k ++ [m] := by
  rw [childrenFrom_step inside, if_pos found]

theorem Linked.father_set (linked : Linked entries (m + 1) pn) {k : Nat}
    (found : fatherOf entries m = some k) (i : Nat) :
    (setFather pn m k i).father = if m ≤ i then fatherOf entries i else none := by
  rw [setFather_apply]
  by_cases here : i = m
  · subst here
    simp [found]
  · have same : m + 1 ≤ i ↔ m ≤ i := by omega
    simp [here, linked.father i, same]

/-- The first child of an entry. -/
theorem Linked.attach_first (linked : Linked entries (m + 1) pn) (inside : m < entries.length)
    {k : Nat} (found : fatherOf entries m = some k) (childless : (pn k).child = none) :
    Linked entries m (setChild (setFather pn m k) k m) := by
  have empty : childrenFrom entries (m + 1) k = [] := by
    have chain := linked.chain k
    rw [childless] at chain
    exact chain.unique .nil
  refine ⟨?_, ?_, ?_, ?_⟩
  · intro i
    have data := linked.data i
    simpa [setChild_apply, setFather_apply] using data
  · intro i
    rw [setChild_apply]
    exact linked.father_set found i
  · intro k'
    rw [siblings_setChild, siblings_setFather]
    by_cases own : k' = k
    · subst own
      have child : (setChild (setFather pn m k') k' m k').child = some m := by
        simp [setChild_apply]
      have single : siblings pn m = none := linked.fresh m (Or.inl (Nat.lt_succ_self m))
      rw [childrenFrom_own inside found, empty, child]
      refine .cons ?_
      rw [single]
      exact .nil
    · have child : (setChild (setFather pn m k) k m k').child = (pn k').child := by
        simp [setChild_apply, setFather_apply, own]
      rw [childrenFrom_other inside found own, child]
      exact linked.chain k'
  · intro i out
    have alone := linked.fresh i (out.imp_left Nat.lt_succ_of_lt)
    simpa [setChild_apply, setFather_apply] using alone

/-- Another child goes behind the last one. -/
theorem Linked.attach_next (linked : Linked entries (m + 1) pn) (inside : m < entries.length)
    {k : Nat} (found : fatherOf entries m = some k) {before : List Nat} {z : Nat}
    (ends : childrenFrom entries (m + 1) k = before ++ [z]) :
    Linked entries m (setSibling (setFather pn m k) z m) := by
  have member : z ∈ childrenFrom entries (m + 1) k := by simp [ends]
  obtain ⟨later, father⟩ := mem_childrenFrom.mp member
  refine ⟨?_, ?_, ?_, ?_⟩
  · intro i
    have data := linked.data i
    simpa [setSibling_apply, setFather_apply] using data
  · intro i
    rw [setSibling_apply]
    exact linked.father_set found i
  · intro k'
    have child : (setSibling (setFather pn m k) z m k').child = (pn k').child := by
      rw [setSibling_apply, setFather_apply]
    rw [siblings_setSibling, siblings_setFather, child]
    by_cases own : k' = k
    · subst own
      rw [childrenFrom_own inside found]
      have new : m ∉ childrenFrom entries (m + 1) k' := by
        intro old
        have := (mem_childrenFrom.mp old).1
        omega
      exact (linked.chain k').append ends new (linked.fresh m (Or.inl (Nat.lt_succ_self m)))
    · rw [childrenFrom_other inside found own]
      refine (linked.chain k').frame ?_ _
      intro other
      have father' := (mem_childrenFrom.mp other).2
      rw [father] at father'
      exact own (Option.some.inj father').symm
  · intro i out
    have apart : i ≠ z := by
      rintro rfl
      rcases out with less | orphan
      · omega
      · rw [father] at orphan
        cases orphan
    have alone := linked.fresh i (out.imp_left Nat.lt_succ_of_lt)
    simpa [setSibling_apply, setFather_apply, apart] using alone

theorem length_childrenFrom (entries : List Entry) (m k : Nat) :
    (childrenFrom entries m k).length ≤ entries.length := by
  rw [childrenFrom, List.length_reverse]
  refine Nat.le_trans (List.length_filter_le _ _) ?_
  rw [List.length_range']
  exact Nat.sub_le _ _

/-- One turn of the outer loop. -/
theorem Linked.step (linked : Linked entries (m + 1) pn) (inside : m < entries.length) :
    ∃ pn', linkInner entries.length pn m m = some pn' ∧ Linked entries m pn' := by
  have index : fatherIndex pn m m = fatherOf entries m := by
    rw [linked.fatherIndex_eq, fatherOf, if_pos inside]
  rw [linkInner_eq, index]
  cases found : fatherOf entries m with
  | none => exact ⟨pn, rfl, linked.orphan inside found⟩
  | some k =>
    have child : (setFather pn m k k).child = (pn k).child := by rw [setFather_apply]
    simp only [attach, child, siblings_setFather]
    cases first : (pn k).child with
    | none => exact ⟨_, rfl, linked.attach_first inside found first⟩
    | some c =>
      have chain := linked.chain k
      rw [first] at chain
      obtain ⟨before, z, ends, walk⟩ := chain.last (length_childrenFrom entries (m + 1) k)
      exact ⟨_, by simp only [walk, Option.map_some], linked.attach_next inside found ends⟩

end Step

theorem linkLoop_linked {entries : List Entry} {m : Nat} {pn : Nodes}
    (linked : Linked entries m pn) (inside : m ≤ entries.length) :
    ∃ pn', linkLoop entries.length m pn = some pn' ∧ Linked entries 0 pn' := by
  induction m generalizing pn with
  | zero => exact ⟨pn, rfl, linked⟩
  | succ m ih =>
    obtain ⟨pn1, turn, linked1⟩ := linked.step (by omega)
    obtain ⟨pn2, rest, linked2⟩ := ih linked1 (by omega)
    exact ⟨pn2, by rw [linkLoop, turn, Option.bind_some, rest], linked2⟩

/-- The loops end, and the lists are those of the fathers found. -/
theorem link_linked (entries : List Entry) :
    ∃ pn, link entries = some pn ∧ Linked entries 0 pn :=
  linkLoop_linked (load_linked entries) (Nat.le_refl _)

/-- Every process whose parent is in the table points to it and stands once in its list, and
the others have no father. -/
def RightLinks (entries : List Entry) (pn : Nodes) : Prop :=
  ∀ j < entries.length,
    (∀ k < entries.length, k ≠ j → (pn k).pid = (pn j).ppid →
      (pn j).father = some k ∧ ∃ l, Chain (siblings pn) (pn k).child l ∧ l.count j = 1) ∧
    ((∀ k < entries.length, k ≠ j → (pn k).pid ≠ (pn j).ppid) → (pn j).father = none)

/-- Every process that has its parent in the table is listed behind it. -/
def ParentsFirst (entries : List Entry) : Prop :=
  ∀ j < entries.length, ∀ k < entries.length, k ≠ j →
    (load entries k).pid = (load entries j).ppid → k < j

instance (entries : List Entry) : Decidable (ParentsFirst entries) :=
  inferInstanceAs (Decidable (∀ j < entries.length, ∀ k < entries.length, _))

theorem pid_injective {entries : List Entry} (distinct : (entries.map Entry.pid).Nodup) {i k : Nat}
    (inside : i < entries.length) (inside' : k < entries.length)
    (same : (load entries i).pid = (load entries k).pid) : i = k := by
  have pid {i : Nat} (inside : i < entries.length) :
      (entries.map Entry.pid)[i]? = some (load entries i).pid := by
    simp [load, List.getElem?_eq_getElem inside]
  have bound : i < (entries.map Entry.pid).length := by
    rw [List.length_map]
    exact inside
  refine (List.getElem?_inj bound distinct).mp ?_
  rw [pid inside, pid inside', same]

theorem fatherOf_eq_some {entries : List Entry} (distinct : (entries.map Entry.pid).Nodup)
    {j k : Nat} (inside : j < entries.length) :
    fatherOf entries j = some k ↔ k < j ∧ (load entries k).pid = (load entries j).ppid := by
  rw [fatherOf, if_pos inside]
  constructor
  · intro found
    obtain ⟨less, same⟩ := fatherIndex_eq_some found
    exact ⟨less, same.symm⟩
  · rintro ⟨less, same⟩
    cases found : fatherIndex (load entries) j j with
    | none => exact absurd same.symm (fatherIndex_eq_none.mp found k less)
    | some i =>
      obtain ⟨less', same'⟩ := fatherIndex_eq_some found
      have equal := pid_injective distinct (Nat.lt_trans less' inside) (Nat.lt_trans less inside)
        (same'.symm.trans same.symm)
      rw [equal]

/-- The links are right exactly if no parent is listed behind one of its children. -/
theorem right_links_iff {entries : List Entry} (distinct : (entries.map Entry.pid).Nodup) :
    (∃ pn, link entries = some pn ∧ RightLinks entries pn) ↔ ParentsFirst entries := by
  obtain ⟨pn, linked, final⟩ := link_linked entries
  have father (i : Nat) : (pn i).father = fatherOf entries i := by
    rw [final.father i, if_pos (Nat.zero_le i)]
  constructor
  · rintro ⟨pn', linked', right⟩ j hj k hk other same
    obtain rfl : pn = pn' := Option.some.inj (linked.symm.trans linked')
    have pids : (pn k).pid = (pn j).ppid := by
      rw [(final.data k).1, (final.data j).2.1, same]
    have found := ((right j hj).1 k hk other pids).1
    rw [father j] at found
    exact ((fatherOf_eq_some distinct hj).mp found).1
  · intro first
    refine ⟨pn, linked, ?_⟩
    intro j hj
    constructor
    · intro k hk other pids
      rw [(final.data k).1, (final.data j).2.1] at pids
      have found := (fatherOf_eq_some distinct hj).mpr ⟨first j hj k hk other pids, pids⟩
      refine ⟨by rw [father j, found], _, final.chain k, ?_⟩
      exact List.count_eq_one_of_mem (nodup_childrenFrom entries 0 k)
        (mem_childrenFrom.mpr ⟨Nat.zero_le j, found⟩)
    · intro alone
      rw [father j]
      cases found : fatherOf entries j with
      | none => rfl
      | some k =>
        obtain ⟨less, pids⟩ := (fatherOf_eq_some distinct hj).mp found
        refine absurd ?_ (alone k (Nat.lt_trans less hj) (Nat.ne_of_lt less))
        rw [(final.data k).1, (final.data j).2.1, pids]

/-- A process behind its parent. -/
theorem right_links_of_child :
    ∃ pn, link [⟨1, 0, "init"⟩, ⟨7, 1, "sh"⟩] = some pn ∧
      RightLinks [⟨1, 0, "init"⟩, ⟨7, 1, "sh"⟩] pn :=
  (right_links_iff (by decide)).mpr (by decide)

/-- Process 3 is listed before its parent 7, as after a wrap of the pids, and is not linked
to it. -/
theorem wrapped_pid_not_linked :
    (∃ pn, link [⟨3, 7, "ls"⟩, ⟨7, 0, "sh"⟩] = some pn ∧ (pn 0).father = none ∧
      (pn 1).child = none) ∧
      ¬ ∃ pn, link [⟨3, 7, "ls"⟩, ⟨7, 0, "sh"⟩] = some pn ∧
        RightLinks [⟨3, 7, "ls"⟩, ⟨7, 0, "sh"⟩] pn := by
  constructor
  · exact ⟨_, rfl, rfl, rfl⟩
  · rw [right_links_iff (by decide)]
    decide

end ProcessTree
