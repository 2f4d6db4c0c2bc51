import NetworkSystemProgramming.Shell.Tokens
import NetworkSystemProgramming.Shell.Vectors

/-!
# The blocks of the argument vectors

Every store that `parse` and `pipe_and_exec` make to memory from `malloc` or `realloc`, with
the size that was asked for. `strcpy` stores one byte behind each string, and NULL goes
behind `right_argv`.
-/

namespace Shell

open ByteBuffers

/-- `count` elements stored from the index `first` on, in a block of `size` elements. -/
structure Store where
  size : Nat
  first : Nat
  count : Nat
  deriving DecidableEq, Repr

def Store.InBounds (s : Store) : Prop := s.first + s.count ≤ s.size

instance : DecidablePred Store.InBounds := fun _ => inferInstanceAs (Decidable (_ ≤ _))

/-- The `strcpy` of a word, to the block of its length. -/
def wordStore (s : Word) : Store := ⟨s.length, 0, s.length + 1⟩

/-- The pointer that a push stores behind the entries. -/
def Block.pushStore (b : Block) : Store := ⟨b.cells.length + 1, b.cells.length, 1⟩

/-- The stores for the tokens behind the first one, and for the terminating NULL. -/
def tokenStores : Nat → List Byte → Block → List Store
  | 0, _, argv => [argv.pushStore]
  | fuel + 1, s, argv =>
    match strtok s with
    | none => [argv.pushStore]
    | some (token, s) =>
      argv.pushStore :: wordStore token :: tokenStores fuel s (argv.push (.str token))

def newArgvStores (line : List Byte) : List Store :=
  match strtok line with
  | none => []
  | some (token, s) =>
    ⟨1, 0, 1⟩ :: wordStore token :: tokenStores line.length s ⟨1, [.str token]⟩

/-- The stores of `parse`. -/
def Version.parseStores (v : Version) (line : List Byte) : List Store :=
  match v with
  | .hw2 => newArgvStores line
  | .part2 => if line = [newline] then [] else newArgvStores line

/-- The loops that copy words: a pointer into the vector, and the string behind it. -/
def copyStores (size : Nat) : Nat → List Word → List Store
  | _, [] => []
  | i, s :: rest => ⟨size, i, 1⟩ :: wordStore s :: copyStores size (i + 1) rest

/-- The stores for `left_argv`. -/
def leftStores (words : List Word) : List Store :=
  copyStores (words.length + 1) 0 words ++ [⟨words.length + 1, words.length, 1⟩]

/-- The stores for `right_argv`, the NULL at `j + 1` included. -/
def rightStores (words : List Word) : List Store :=
  copyStores (words.length + 1) 0 words ++ [⟨words.length + 1, words.length + 1, 1⟩]

/-- The vectors that the calls of `pipe_and_exec` split, one recursion level after the
other. -/
def levels : Nat → List Word → List (List Word)
  | 0, _ => []
  | fuel + 1, argv =>
    if 0 < pipePresent argv then
      argv :: levels fuel (splitPipe argv (pipePresent argv).toNat).rest
    else []

/-- The stores of one call. -/
def splitStores (argv : List Word) : List Store :=
  let index := (pipePresent argv).toNat
  leftStores (argv.take index) ++ rightStores ((argv.drop (index + 1)).takeWhile (· ≠ bar))

/-- The stores of `pipe_and_exec` at all levels. -/
def pipeStores (argv : List Word) : List Store := (levels argv.length argv).flatMap splitStores

theorem wordStore_not_inBounds (s : Word) : ¬ (wordStore s).InBounds := by
  simp [Store.InBounds, wordStore]

theorem newArgvStores_inBounds_iff (line : List Byte) :
    (∀ s ∈ newArgvStores line, s.InBounds) ↔ ∀ c ∈ line, isDelim c := by
  rcases strtok_cases line with ⟨last, none⟩ | ⟨token, rest, found, first, -⟩
  · simpa [newArgvStores, last] using tokenise_eq_nil.mp none
  · have some : ¬ ∀ c ∈ line, isDelim c := by
      rw [← tokenise_eq_nil, first]
      exact List.cons_ne_nil _ _
    refine iff_of_false ?_ some
    intro all
    exact wordStore_not_inBounds token (all _ (by simp [newArgvStores, found]))

/-- `parse` keeps to its blocks exactly on lines without a token, where it stores nothing. -/
theorem parseStores_inBounds_iff (v : Version) (line : List Byte) :
    (∀ s ∈ v.parseStores line, s.InBounds) ↔ ∀ c ∈ line, isDelim c := by
  cases v with
  | hw2 => exact newArgvStores_inBounds_iff line
  | part2 =>
    by_cases entered : line = [newline]
    · subst entered
      simp [Version.parseStores, isDelim]
    · rw [Version.parseStores, if_neg entered]
      exact newArgvStores_inBounds_iff line

/-- NULL behind `right_argv` is out of bounds at every split. -/
theorem rightStores_not_inBounds (words : List Word) :
    ¬ ∀ s ∈ rightStores words, s.InBounds := by
  intro all
  have last := all ⟨words.length + 1, words.length + 1, 1⟩ (by simp [rightStores])
  simp only [Store.InBounds] at last
  omega

/-- `pipe_and_exec` keeps to its blocks exactly if it splits nothing. -/
theorem pipeStores_inBounds_iff (argv : List Word) :
    (∀ s ∈ pipeStores argv, s.InBounds) ↔ pipePresent argv ≤ 0 := by
  constructor
  · intro all
    by_contra splits
    have positive : 0 < pipePresent argv := Int.not_le.mp splits
    have some : argv ≠ [] := by
      rintro rfl
      exact absurd positive (by decide)
    obtain ⟨fuel, length⟩ : ∃ fuel, argv.length = fuel + 1 :=
      ⟨argv.length - 1, by have := List.length_pos_iff.mpr some; omega⟩
    refine rightStores_not_inBounds
      ((argv.drop ((pipePresent argv).toNat + 1)).takeWhile (· ≠ bar)) ?_
    intro s member
    apply all
    rw [pipeStores, length, levels, if_pos positive, List.flatMap_cons, splitStores]
    exact List.mem_append_left _ (List.mem_append_right _ member)
  · intro whole
    have none : levels argv.length argv = [] := by
      cases argv.length with
      | zero => rfl
      | succ fuel => rw [levels, if_neg (Int.not_lt.mpr whole)]
    simp [pipeStores, none]

/-- The vector holds the words of a stage and then one NULL, and nothing else. -/
def Block.Exact (b : Block) (words : List Word) : Prop := b.cells = words.map .str ++ [.null]

instance (b : Block) (words : List Word) : Decidable (b.Exact words) :=
  inferInstanceAs (Decidable (_ = _))

/-- Both vectors of every recursion level are those of the level's two stages. -/
def ExactLevels (stages : List (List Word)) : Prop :=
  ∀ k left right, stages[k]? = some left → stages[k + 1]? = some right →
    ∃ argv, (levels (pipeline stages).length (pipeline stages))[k]? = some argv ∧
      (splitPipe argv (pipePresent argv).toNat).left.Exact left ∧
      (splitPipe argv (pipePresent argv).toNat).right.Exact right

theorem leftArgv_exact (words : List Word) : (leftArgv words).Exact words := leftArgv_cells words

theorem rightArgv_not_exact (words : List Word) : ¬ (rightArgv words).Exact words := by
  rw [Block.Exact, rightArgv_cells]
  simp

/-- The first split of a pipeline. -/
theorem levels_head {left right : List Word} {more : List (List Word)}
    (all : ∀ s ∈ left :: right :: more, Stage s) (fuel : Nat) :
    levels (fuel + 1) (pipeline (left :: right :: more)) =
      pipeline (left :: right :: more) :: levels fuel (pipeline (right :: more)) ∧
    splitPipe (pipeline (left :: right :: more))
        (pipePresent (pipeline (left :: right :: more))).toNat =
      ⟨leftArgv left, rightArgv right, pipeline (right :: more)⟩ := by
  have index := pipePresent_pipeline all
  have split := splitPipe_pipeline all
  have positive : 0 < pipePresent (pipeline (left :: right :: more)) := by
    have words := List.length_pos_iff.mpr (all left (by simp)).1
    omega
  have number : (pipePresent (pipeline (left :: right :: more))).toNat = left.length := by
    rw [index, Int.toNat_natCast]
  refine ⟨?_, by rw [number, split]⟩
  rw [levels, if_pos positive, number, split]

/-- At every level of a pipeline `left_argv` is right and `right_argv` is not. -/
theorem levels_vectors {stages : List (List Word)} (all : ∀ s ∈ stages, Stage s) {fuel : Nat}
    (enough : stages.length ≤ fuel) {k : Nat} {left right : List Word}
    (first : stages[k]? = some left) (second : stages[k + 1]? = some right) :
    ∃ argv, (levels fuel (pipeline stages))[k]? = some argv ∧
      (splitPipe argv (pipePresent argv).toNat).left.Exact left ∧
      ¬ (splitPipe argv (pipePresent argv).toNat).right.Exact right := by
  induction stages generalizing fuel k with
  | nil => simp at first
  | cons s stages ih =>
    obtain ⟨fuel, rfl⟩ : ∃ n, fuel = n + 1 := ⟨fuel - 1, by simp at enough; omega⟩
    cases stages with
    | nil => simp at second
    | cons next more =>
      obtain ⟨head, split⟩ := levels_head all fuel
      rw [head]
      cases k with
      | zero =>
        obtain rfl : s = left := by simpa using first
        obtain rfl : next = right := by simpa using second
        exact ⟨_, rfl, by rw [split]; exact leftArgv_exact s,
          by rw [split]; exact rightArgv_not_exact next⟩
      | succ k =>
        exact ih (fun t member => all t (List.mem_cons_of_mem s member))
          (by simpa using enough) (by simpa using first) (by simpa using second)

theorem length_pipeline {stages : List (List Word)} (all : ∀ s ∈ stages, Stage s) :
    stages.length ≤ (pipeline stages).length := by
  induction stages with
  | nil => exact Nat.zero_le _
  | cons s stages ih =>
    have words := List.length_pos_iff.mpr (all s (by simp)).1
    cases stages with
    | nil => exact words
    | cons next more =>
      have rest := ih fun t member => all t (List.mem_cons_of_mem s member)
      simp only [pipeline, List.length_append, List.length_cons] at rest ⊢
      omega

theorem exactLevels_iff {stages : List (List Word)} (all : ∀ s ∈ stages, Stage s) :
    ExactLevels stages ↔ stages.length ≤ 1 := by
  constructor
  · intro levelsExact
    by_contra several
    have first := List.getElem?_eq_getElem (l := stages) (i := 0) (by omega)
    have second := List.getElem?_eq_getElem (l := stages) (i := 1) (by omega)
    obtain ⟨argv, level, -, right⟩ := levelsExact 0 _ _ first second
    obtain ⟨argv', level', -, wrong⟩ := levels_vectors all (length_pipeline all) first second
    have same : argv = argv' := Option.some.inj (level.symm.trans level')
    exact wrong (same ▸ right)
  · intro single k left right first second
    have inside := (List.getElem?_eq_some_iff.mp second).1
    omega

/-- The words that `parse` hands on; none when it returns NULL. -/
def Version.words (v : Version) (line : List Byte) : List Word :=
  match v.parse line with
  | none => []
  | some argv => leadingWords argv.cells

/-- Every store for a line is in bounds, and every vector is exact if it is a pipeline. -/
def SoundLine (v : Version) (line : List Byte) : Prop :=
  (∀ s ∈ v.parseStores line, s.InBounds) ∧ (∀ s ∈ pipeStores (v.words line), s.InBounds) ∧
    ∀ stages, (∀ s ∈ stages, Stage s) → v.words line = pipeline stages → ExactLevels stages

/-- All is in order only for a line without tokens. Where the stores of `parse` are left
out, it is for a line that is not split. -/
theorem soundLine_iff (v : Version) (line : List Byte) :
    (SoundLine v line ↔ ∀ c ∈ line, isDelim c) ∧
      ((∀ s ∈ pipeStores (v.words line), s.InBounds) ↔ pipePresent (v.words line) ≤ 0) ∧
      ∀ stages, (∀ s ∈ stages, Stage s) → (ExactLevels stages ↔ stages.length ≤ 1) := by
  refine ⟨?_, pipeStores_inBounds_iff _, fun stages all => exactLevels_iff all⟩
  constructor
  · intro sound
    exact (parseStores_inBounds_iff v line).mp sound.1
  · intro blank
    have none : v.words line = [] := by
      rcases parse_cases v line with ⟨null, -⟩ | ⟨_, -, -, some⟩
      · rw [Version.words, null]
      · exact absurd (tokenise_eq_nil.mpr blank) some
    refine ⟨(parseStores_inBounds_iff v line).mpr blank, ?_, ?_⟩
    · rw [none, pipeStores_inBounds_iff]
      decide
    · intro stages all words
      have length := length_pipeline all
      rw [← words, none, List.length_nil] at length
      exact (exactLevels_iff all).mpr (by omega)

/-- The line `ls | cat`. -/
theorem ls_cat_out_of_bounds :
    ¬ SoundLine .part2 [108, 115, 32, 124, 32, 99, 97, 116, 10] ∧
      Version.part2.words [108, 115, 32, 124, 32, 99, 97, 116, 10] =
        (["ls", bar, "cat"] : List Word) ∧
      (⟨2, 0, 3⟩ ∈ Version.part2.parseStores [108, 115, 32, 124, 32, 99, 97, 116, 10]) ∧
      (⟨2, 2, 1⟩ ∈ pipeStores ["ls", bar, "cat"]) ∧
      (splitPipe ["ls", bar, "cat"] 1).right.cells = [.str "cat", .unset, .null] := by
  refine ⟨?_, by decide, by decide, by decide, by decide⟩
  rw [(soundLine_iff _ _).1]
  decide

end Shell
