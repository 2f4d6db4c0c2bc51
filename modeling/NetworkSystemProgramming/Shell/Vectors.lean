import Mathlib.Data.List.Basic
import NetworkSystemProgramming.Texts

/-!
# Argument vectors

The vectors that `parse` and `pipe_and_exec` allocate, with the stores they make, and
`pipe_present`. A vector that a function only reads is the list of its words up to the
first NULL.
-/

namespace Shell

open ByteBuffers Texts

/-- The bytes of a string in front of its NUL. -/
abbrev Word := List Byte

instance : Coe String Word := ⟨ascii⟩

/-- The words that the shell looks for in a vector: "|", "&", "<" and ">". -/
def bar : Word := "|"
def ampersand : Word := "&"
def less : Word := "<"
def greater : Word := ">"

theorem less_ne_greater : less ≠ greater := by decide

/-- An entry of a `char **`. Every string is a copy: `malloc` was asked for its length, and
`strcpy` stored it with a NUL behind it. -/
inductive Cell where
  | unset
  | null
  | str (s : Word)
  deriving DecidableEq, Repr

/-- An allocated vector. `cells` also has the entries that were stored past its end. -/
structure Block where
  size : Nat
  cells : List Cell
  deriving DecidableEq, Repr

def malloc (size : Nat) : Block := ⟨size, List.replicate size .unset⟩

/-- `realloc` by one entry, and the store to it. -/
def Block.push (b : Block) (c : Cell) : Block := ⟨b.cells.length + 1, b.cells ++ [c]⟩

def Block.store (b : Block) (i : Nat) (c : Cell) : Block :=
  { b with cells :=
      if i < b.cells.length then b.cells.set i c
      else b.cells ++ List.replicate (i - b.cells.length) .unset ++ [c] }

/-- The loops that copy words into a vector, from index `i` on. -/
def copyWords (i : Nat) : List Word → Block → Block
  | [], b => b
  | s :: rest, b => copyWords (i + 1) rest (b.store i (.str s))

/-- The words that `execvp` finds: the entries up to the first one that is not a string. -/
def leadingWords : List Cell → List Word
  | .str s :: rest => s :: leadingWords rest
  | _ => []

/-- `left_argv`. -/
def leftArgv (words : List Word) : Block :=
  (copyWords 0 words (malloc (words.length + 1))).store words.length .null

/-- `right_argv`. After its loop `j` is the number of words, and NULL goes to `j + 1`. -/
def rightArgv (words : List Word) : Block :=
  (copyWords 0 words (malloc (words.length + 1))).store (words.length + 1) .null

/-- `pipe_present` for a vector with at least one word. -/
def pipePresent (argv : List Word) : Int :=
  let index := argv.findIdx (· = bar)
  if argv.head? = some bar ∨ argv.getLast? = some bar then -1
  else if index = argv.length then 0
  else index

/-- What the words of the vectors become when `pipe_and_exec` splits its argument at
the first "|". -/
structure Split where
  left : Block
  right : Block
  /-- `&myArgv[pipe_argv_index + 1]` -/
  rest : List Word
  deriving DecidableEq

def splitPipe (argv : List Word) (pipeArgvIndex : Nat) : Split where
  left := leftArgv (argv.take pipeArgvIndex)
  right := rightArgv ((argv.drop (pipeArgvIndex + 1)).takeWhile (· ≠ bar))
  rest := argv.drop (pipeArgvIndex + 1)

theorem copyWords_cells (words : List Word) {b : Block} {done rest : List Cell}
    (hb : b.cells = done ++ List.replicate words.length .unset ++ rest) :
    (copyWords done.length words b).cells = done ++ words.map .str ++ rest := by
  induction words generalizing b done with
  | nil => simpa [copyWords] using hb
  | cons s words ih =>
    have room : done.length < b.cells.length := by
      rw [hb, List.length_append, List.length_append, List.length_replicate, List.length_cons]
      omega
    have stored : (b.store done.length (.str s)).cells =
        (done ++ [.str s]) ++ List.replicate words.length .unset ++ rest := by
      rw [Block.store, if_pos room, hb]
      simp [List.replicate_succ]
    have tail := ih stored
    rw [List.length_append, List.length_singleton] at tail
    rw [copyWords, tail]
    simp

theorem copied_cells (words : List Word) :
    (copyWords 0 words (malloc (words.length + 1))).cells = words.map .str ++ [.unset] := by
  have filled : (malloc (words.length + 1)).cells =
      [] ++ List.replicate words.length .unset ++ [.unset] := by
    rw [malloc, List.replicate_succ', List.nil_append]
  exact copyWords_cells words filled

theorem leftArgv_cells (words : List Word) :
    (leftArgv words).cells = words.map .str ++ [.null] := by
  rw [leftArgv, Block.store, copied_cells, if_pos (by simp)]
  simp

/-- The entry behind the words stays unset, and NULL is stored past the end. -/
theorem rightArgv_cells (words : List Word) :
    (rightArgv words).cells = words.map .str ++ [.unset, .null] := by
  rw [rightArgv, Block.store, copied_cells, if_neg (by simp)]
  simp

theorem leadingWords_append (words : List Word) {rest : List Cell}
    (stops : leadingWords rest = []) : leadingWords (words.map .str ++ rest) = words := by
  induction words with
  | nil => exact stops
  | cons s words ih => simp [leadingWords, ih]

@[simp] theorem leadingWords_leftArgv (words : List Word) :
    leadingWords (leftArgv words).cells = words := by
  rw [leftArgv_cells]
  exact leadingWords_append words rfl

@[simp] theorem leadingWords_rightArgv (words : List Word) :
    leadingWords (rightArgv words).cells = words := by
  rw [rightArgv_cells]
  exact leadingWords_append words rfl

/-! ## Pipelines -/

/-- A stage has words, and none of them is "|". -/
def Stage (words : List Word) : Prop := words ≠ [] ∧ bar ∉ words

/-- The tokens of stages with single "|" tokens between them. -/
def pipeline : List (List Word) → List Word
  | [] => []
  | [stage] => stage
  | stage :: next :: more => stage ++ bar :: pipeline (next :: more)

section
variable {stage next : List Word} {more : List (List Word)}

theorem findIdx_pipe (noPipe : bar ∉ stage) (tail : List Word) :
    (stage ++ bar :: tail).findIdx (· = bar) = stage.length := by
  induction stage with
  | nil => simp [List.findIdx_cons]
  | cons s stage ih =>
    have other : s ≠ bar := fun same => noPipe (by simp [same])
    simp [List.findIdx_cons, other, ih (fun h => noPipe (List.mem_cons_of_mem _ h))]

theorem Stage.head (ok : Stage stage) (tail : List Word) :
    (stage ++ tail).head? ≠ some bar := by
  obtain ⟨nonempty, noPipe⟩ := ok
  cases stage with
  | nil => exact absurd rfl nonempty
  | cons s stage =>
    intro same
    have eq : s = bar := by simpa using same
    exact noPipe (by simp [eq])

theorem Stage.last (ok : Stage stage) (front : List Word) :
    (front ++ stage).getLast? ≠ some bar := by
  obtain ⟨nonempty, noPipe⟩ := ok
  rw [List.getLast?_append_of_ne_nil _ nonempty]
  intro same
  exact noPipe (List.mem_of_getLast? same)

/-- The tokens of a pipeline end with those of a stage. -/
theorem pipeline_last (stages : List (List Word)) (nonempty : stages ≠ []) :
    ∃ front, ∃ stage ∈ stages, pipeline stages = front ++ stage := by
  induction stages with
  | nil => exact absurd rfl nonempty
  | cons stage more ih =>
    cases more with
    | nil => exact ⟨[], stage, by simp, rfl⟩
    | cons next more =>
      obtain ⟨front, last, member, same⟩ := ih (by simp)
      refine ⟨stage ++ bar :: front, last, List.mem_cons_of_mem _ member, ?_⟩
      rw [pipeline, same]
      simp

/-- At a pipeline of several stages the index is that of the first "|". -/
theorem pipePresent_pipeline (all : ∀ s ∈ stage :: next :: more, Stage s) :
    pipePresent (pipeline (stage :: next :: more)) = stage.length := by
  have ok := all stage (by simp)
  obtain ⟨front, final, member, ends⟩ := pipeline_last (stage :: next :: more) (by simp)
  have last := (all final member).last front
  rw [← ends] at last
  have index : (pipeline (stage :: next :: more)).findIdx (· = bar) = stage.length :=
    findIdx_pipe ok.2 _
  have middle : stage.length ≠ (pipeline (stage :: next :: more)).length := by
    rw [pipeline, List.length_append, List.length_cons]
    omega
  have head : (pipeline (stage :: next :: more)).head? ≠ some bar := ok.head _
  rw [pipePresent, index, if_neg (not_or.mpr ⟨head, last⟩), if_neg middle]

/-- At the last stage there is none. -/
theorem pipePresent_stage (ok : Stage stage) : pipePresent stage = 0 := by
  have head := ok.head []
  rw [List.append_nil] at head
  have last := ok.last []
  rw [List.nil_append] at last
  have index : stage.findIdx (· = bar) = stage.length := by
    rw [List.findIdx_eq_length]
    intro s hs
    have other : s ≠ bar := fun same => ok.2 (same ▸ hs)
    simpa using other
  rw [pipePresent, index, if_neg (not_or.mpr ⟨head, last⟩), if_pos rfl]

theorem takeWhile_pipeline (noPipe : bar ∉ next) (more : List (List Word)) :
    (pipeline (next :: more)).takeWhile (· ≠ bar) = next := by
  have words := ByteBuffers.differ_of_absent noPipe
  cases more with
  | nil =>
    rw [pipeline]
    exact List.takeWhile_eq_self_iff.mpr words
  | cons _ _ =>
    rw [pipeline]
    exact ByteBuffers.takeWhile_run words (by simp)

/-- The split of a pipeline at its first "|". -/
theorem splitPipe_pipeline (all : ∀ s ∈ stage :: next :: more, Stage s) :
    splitPipe (pipeline (stage :: next :: more)) stage.length =
      ⟨leftArgv stage, rightArgv next, pipeline (next :: more)⟩ := by
  have left : (pipeline (stage :: next :: more)).take stage.length = stage := by
    rw [pipeline, List.take_left]
  have rest :
      (pipeline (stage :: next :: more)).drop (stage.length + 1) = pipeline (next :: more) := by
    rw [pipeline, List.drop_append]
    simp
  rw [splitPipe, left, rest, takeWhile_pipeline (all next (by simp)).2]

end
end Shell
