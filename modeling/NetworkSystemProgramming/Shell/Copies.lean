import Mathlib.Data.List.Forall2
import NetworkSystemProgramming.Shell.Vectors

/-!
# What is read of a copied word

`malloc(strlen(s))` and `strcpy` leave it to the allocator whether the NUL is in the block.
Where it is not, it goes to memory that belongs to something else, and who reads the word
later may find anything there.
-/

namespace Shell

open ByteBuffers

/-- How many bytes a block has when so many were asked for. -/
structure Heap where
  usable : Nat → Nat
  asked_le : ∀ size, size ≤ usable size

/-- glibc on 64 bits: chunks of a multiple of 16 bytes, of 32 at least, 8 of which hold the
size of the chunk. -/
def glibc : Heap where
  usable size := max 32 ((size + 23) / 16 * 16) - 8
  asked_le size := by omega

/-- The NUL behind a copy of `s` is in its block. -/
def Heap.Fits (heap : Heap) (s : Word) : Prop := s.length < heap.usable s.length

instance (heap : Heap) : DecidablePred heap.Fits := fun _ => inferInstanceAs (Decidable (_ < _))

/-- A reader of a copy of `s` finds `w`: `behind` is what then stands behind the block. -/
def Heap.Reads (heap : Heap) (s w : Word) : Prop :=
  ∃ behind, w = cstr ((s ++ [0]).take (heap.usable s.length) ++ behind)

/-- The words of a vector, as a reader finds them. -/
def Heap.ReadsAll (heap : Heap) : List Word → List Word → Prop := List.Forall₂ heap.Reads

variable {heap : Heap}

/-- What a reader finds in memory: `word s` in a copy of `s`, and `unset` in an entry that was
never stored to, where no word is NULL. -/
structure Heap.Contents (heap : Heap) where
  word : Word → Word
  reads : ∀ s, heap.Reads s (word s)
  unset : Option Word

/-- The words that `execvp` finds in a vector. -/
def Heap.Contents.words (mem : heap.Contents) : List Cell → List Word
  | .str s :: rest => mem.word s :: mem.words rest
  | .unset :: rest =>
    match mem.unset with
    | some s => s :: mem.words rest
    | none => []
  | _ => []

/-- Entry by entry only a list itself is related to it, exactly if this is so of each of its
entries. -/
theorem forall₂_only_self {A : Type} {R : A → A → Prop} {l : List A} (self : ∀ a ∈ l, R a a) :
    (∀ found, List.Forall₂ R l found → found = l) ↔ ∀ a ∈ l, ∀ b, R a b → b = a := by
  induction l with
  | nil => simp
  | cons a l ih =>
    have selfHere := self a List.mem_cons_self
    have selfMore : ∀ b ∈ l, R b b := fun b member => self b (List.mem_cons_of_mem a member)
    have rest : List.Forall₂ R l l := List.forall₂_same.mpr selfMore
    constructor
    · intro only
      refine List.forall_mem_cons.mpr ⟨?_, (ih selfMore).mp ?_⟩
      · intro b related
        exact (List.cons.inj (only (b :: l) (.cons related rest))).1
      · intro found related
        exact (List.cons.inj (only (a :: found) (.cons selfHere related))).2
    · intro only found related
      obtain ⟨here, more⟩ := List.forall_mem_cons.mp only
      cases related with
      | cons first rest => rw [here _ first, (ih selfMore).mpr more _ rest]

section
variable {s w : Word} {words : List Word}

theorem Heap.Fits.reads (fits : heap.Fits s) (clean : 0 ∉ s) (reads : heap.Reads s w) : w = s := by
  obtain ⟨behind, rfl⟩ := reads
  have whole : (s ++ [0]).take (heap.usable s.length) = s ++ [0] := by
    apply List.take_of_length_le
    rw [List.length_append]
    exact fits
  rw [whole, List.append_assoc]
  exact cstr_terminated clean behind

theorem Heap.reads_behind (overflows : ¬ heap.Fits s) (behind : List Byte) :
    heap.Reads s (cstr (s ++ behind)) := by
  have full : heap.usable s.length = s.length :=
    Nat.le_antisymm (Nat.le_of_not_lt overflows) (heap.asked_le s.length)
  exact ⟨behind, by rw [full, List.take_left]⟩

/-- The NUL may still be there, wherever it is. -/
theorem Heap.reads_self (heap : Heap) (clean : 0 ∉ s) : heap.Reads s s := by
  refine ⟨(s ++ [0]).drop (heap.usable s.length), ?_⟩
  rw [List.take_append_drop, cstr_terminated clean]

/-- The low byte of the next chunk's size may stand there: `!` for one of 32 bytes. -/
theorem Heap.reads_longer (overflows : ¬ heap.Fits s) (clean : 0 ∉ s) :
    heap.Reads s (s ++ [33]) := by
  have longer := heap.reads_behind overflows [33, 0]
  have longerClean : 0 ∉ s ++ [33] := by simp [clean]
  rwa [List.append_cons s 33 [0], cstr_terminated longerClean] at longer

theorem Heap.reads_only_iff (heap : Heap) (clean : 0 ∉ s) :
    (∀ w, heap.Reads s w → w = s) ↔ heap.Fits s := by
  constructor
  · intro only
    by_contra overflows
    have longer := only _ (Heap.reads_longer overflows clean)
    simp at longer
  · intro fits w reads
    exact fits.reads clean reads

theorem Heap.readsAll_self (heap : Heap) (clean : ∀ s ∈ words, 0 ∉ s) : heap.ReadsAll words words :=
  List.forall₂_same.mpr fun s member => heap.reads_self (clean s member)

/-- The words of a vector are read as they were copied, whatever stands behind the blocks,
exactly if each of them fits. -/
theorem Heap.readsAll_only_iff (heap : Heap) (clean : ∀ s ∈ words, 0 ∉ s) :
    (∀ found, heap.ReadsAll words found → found = words) ↔ ∀ s ∈ words, heap.Fits s := by
  rw [Heap.ReadsAll, forall₂_only_self fun s member => heap.reads_self (clean s member)]
  exact forall₂_congr fun s member => heap.reads_only_iff (clean s member)

/-- The same for several vectors. -/
theorem Heap.vectors_only_iff (heap : Heap) {vectors : List (List Word)}
    (clean : ∀ words ∈ vectors, ∀ s ∈ words, 0 ∉ s) :
    (∀ found, List.Forall₂ heap.ReadsAll vectors found → found = vectors) ↔
      ∀ words ∈ vectors, ∀ s ∈ words, heap.Fits s := by
  rw [forall₂_only_self fun words member => heap.readsAll_self (clean words member)]
  exact forall₂_congr fun words member => heap.readsAll_only_iff (clean words member)

theorem Heap.Contents.words_eq (mem : heap.Contents) {cells : List Cell} (unset : mem.unset = none)
    (clean : ∀ s ∈ leadingWords cells, 0 ∉ s) (fit : ∀ s ∈ leadingWords cells, heap.Fits s) :
    mem.words cells = leadingWords cells := by
  induction cells with
  | nil => rfl
  | cons c rest ih =>
    cases c with
    | unset => simp only [words, unset, leadingWords]
    | null => rfl
    | str s =>
      have cleanHere : 0 ∉ s := clean s List.mem_cons_self
      have fitsHere : heap.Fits s := fit s List.mem_cons_self
      have more := ih (fun t member => clean t (List.mem_cons_of_mem s member))
        fun t member => fit t (List.mem_cons_of_mem s member)
      rw [words, leadingWords, more, fitsHere.reads cleanHere (mem.reads s)]

end

/-- With glibc the NUL of a word of 24 bytes is behind its block, that of a shorter one is
not. -/
example : ¬ glibc.Fits (List.replicate 24 97) ∧ ∀ n < 24, glibc.Fits (List.replicate n 97) := by
  decide

end Shell
