import NetworkSystemProgramming.DescriptorTables
import NetworkSystemProgramming.Shell.Vectors

/-!
# Redirections

`redirect_in` and `redirect_out` look for their operator up to the first NULL, open the
file at the descriptor of the stream, and put NULL in the place of both words. What
stands behind them is out of reach for whoever reads the vector next.
-/

namespace Shell

open DescriptorTables

/-- What a descriptor refers to. -/
inductive Target (E : Type) where
  | entry (e : E)
  | file (name : Word) (mode : String)
  deriving DecidableEq, Repr

/-- The argument vector and the descriptors of the child of `run_command`. -/
structure Command (E : Type) where
  argv : List Cell
  fds : Table (Target E)

variable {E : Type}

/-- The index at which the loop over the vector finds `op`. -/
def searchForward (op : Word) : List Cell → Option Nat
  | .str s :: rest => if s = op then some 0 else (searchForward op rest).map (· + 1)
  | _ => none

/-- `freopen` after `close(fd)`. The stream keeps its descriptor, which stays closed when
the file cannot be opened. -/
def reopen (opens : Word → String → Bool) (fds : Table (Target E)) (fd : Nat) (mode : String) :
    Option Cell → Table (Target E)
  | some (.str name) =>
    if opens name mode then assign (close fds fd) fd (.file name mode) else close fds fd
  | _ => close fds fd

/-- The common body of `redirect_in` and `redirect_out`, with what they return. -/
def redirect (op : Word) (fd : Nat) (mode : String) (opens : Word → String → Bool)
    (c : Command E) : Int × Command E :=
  match searchForward op c.argv with
  | some i =>
    (0, { argv := (c.argv.set i .null).set (i + 1) .null
          fds := reopen opens c.fds fd mode c.argv[i + 1]? })
  | none => (-1, c)

def redirectIn (opens : Word → String → Bool) (c : Command E) : Int × Command E :=
  redirect less 0 "r" opens c

def redirectOut (opens : Word → String → Bool) (c : Command E) : Int × Command E :=
  redirect greater 1 "w+" opens c

/-- The two calls in the child of `run_command`. -/
def redirections (opens : Word → String → Bool) (c : Command E) : Command E :=
  (redirectOut opens (redirectIn opens c).2).2

/-! ## What is to be removed -/

/-- A part of a command line. -/
inductive Item where
  | word (s : Word)
  | input (file : Word)
  | output (file : Word)
  deriving DecidableEq

def Item.tokens : Item → List Word
  | .word s => [s]
  | .input file => [less, file]
  | .output file => [greater, file]

def Item.isInput : Item → Bool
  | .input _ => true
  | _ => false

def Item.isOutput : Item → Bool
  | .output _ => true
  | _ => false

/-- Neither operator. -/
def Plain (s : Word) : Prop := s ≠ less ∧ s ≠ greater

def Item.Plain : Item → Prop
  | .word s | .input s | .output s => Shell.Plain s

/-- Words with at most one redirection of each kind, anywhere among them. -/
structure Redirected (items : List Item) : Prop where
  plain : ∀ item ∈ items, item.Plain
  oneInput : items.countP Item.isInput ≤ 1
  oneOutput : items.countP Item.isOutput ≤ 1

def tokens (items : List Item) : List Word := items.flatMap Item.tokens

def plainWords (items : List Item) : List Word :=
  items.filterMap fun
    | .word s => some s
    | _ => none

def inputFile (items : List Item) : Option Word :=
  items.findSome? fun
    | .input file => some file
    | _ => none

def outputFile (items : List Item) : Option Word :=
  items.findSome? fun
    | .output file => some file
    | _ => none

/-- The vector of a command line and the descriptors at entry. -/
def Command.initial (entry : Table E) (items : List Item) : Command E where
  argv := (tokens items).map .str ++ [.null]
  fds := entry.map (Option.map .entry)

/-- A stream refers to its file if there is one, and to what it was at entry otherwise. -/
def streamTarget (entry : Table E) (fd : Nat) (mode : String) (file : Option Word) :
    Option (Target E) :=
  match file with
  | some name => some (.file name mode)
  | none => (lookup entry fd).map .entry

/-- Both streams are redirected as asked for, and the words are left. -/
structure Removed (entry : Table E) (items : List Item) (c : Command E) : Prop where
  stdin : lookup c.fds 0 = streamTarget entry 0 "r" (inputFile items)
  stdout : lookup c.fds 1 = streamTarget entry 1 "w+" (outputFile items)
  words : leadingWords c.argv = plainWords items

/-- All words come first, and "> g" before "< f". -/
def InOrder : List Item → Prop
  | [] => True
  | .word _ :: rest => InOrder rest
  | .input _ :: rest => rest = []
  | .output _ :: rest => rest = [] ∨ ∃ file, rest = [.input file]

/-! ## What the two functions do -/

section
variable {op file : Word} {mode : String} {fd : Nat} {opens : Word → String → Bool}
  {front : List Word}
  {rest : List Cell} {fds : Table (Target E)}

theorem searchForward_found (absent : op ∉ front) :
    searchForward op (front.map .str ++ .str op :: rest) = some front.length := by
  induction front with
  | nil => simp [searchForward]
  | cons s front ih =>
    have other : s ≠ op := fun same => absent (by simp [same])
    have tail := ih (fun member => absent (List.mem_cons_of_mem _ member))
    simp [searchForward, other, tail]

theorem searchForward_absent (absent : op ∉ front) :
    searchForward op (front.map .str ++ .null :: rest) = none := by
  induction front with
  | nil => rfl
  | cons s front ih =>
    have other : s ≠ op := fun same => absent (by simp [same])
    have tail := ih (fun member => absent (List.mem_cons_of_mem _ member))
    simp [searchForward, other, tail]

theorem redirect_found (absent : op ∉ front) (opened : opens file mode = true) :
    redirect op fd mode opens ⟨front.map .str ++ .str op :: .str file :: rest, fds⟩ =
      (0, ⟨front.map .str ++ .null :: .null :: rest,
        assign (close fds fd) fd (.file file mode)⟩) := by
  have name : (front.map Cell.str ++ .str op :: .str file :: rest)[front.length + 1]? =
      some (.str file) := by
    rw [List.getElem?_append_right (by simp)]
    simp
  have cut : ((front.map Cell.str ++ .str op :: .str file :: rest).set front.length .null).set
      (front.length + 1) .null = front.map .str ++ .null :: .null :: rest := by
    rw [List.set_append_right _ _ (by simp), List.set_append_right _ _ (by simp)]
    simp
  simp only [redirect, searchForward_found absent, name, cut, reopen, opened, if_true]

theorem redirect_absent (absent : op ∉ front) :
    redirect op fd mode opens ⟨front.map .str ++ .null :: rest, fds⟩ =
      (-1, ⟨front.map .str ++ .null :: rest, fds⟩) := by
  simp only [redirect, searchForward_absent absent]

theorem lookup_reopened : lookup (assign (close fds fd) fd (.file file mode)) =
    Function.update (lookup fds) fd (some (.file file mode)) := by
  rw [lookup_assign, lookup_close, Function.update_idem]

end

/-! ## Command lines by their first redirections -/

section
variable {words : List Word} {items rest : List Item}

theorem first_redirection (items : List Item) :
    ∃ (words : List Word) (rest : List Item), items = words.map Item.word ++ rest ∧
      (rest = [] ∨ (∃ file more, rest = .input file :: more) ∨
        ∃ file more, rest = .output file :: more) := by
  induction items with
  | nil => exact ⟨[], [], rfl, Or.inl rfl⟩
  | cons item items ih =>
    cases item with
    | word s =>
      obtain ⟨words, rest, same, shape⟩ := ih
      exact ⟨s :: words, rest, by rw [same]; rfl, shape⟩
    | input file => exact ⟨[], _, rfl, Or.inr (Or.inl ⟨file, items, rfl⟩)⟩
    | output file => exact ⟨[], _, rfl, Or.inr (Or.inr ⟨file, items, rfl⟩)⟩

theorem tokens_words (words : List Word) (rest : List Item) :
    tokens (words.map .word ++ rest) = words ++ tokens rest := by
  induction words with
  | nil => rfl
  | cons s words ih =>
    rw [List.map_cons, List.cons_append, tokens, List.flatMap_cons, ← tokens, ih]
    rfl

theorem plainWords_words : plainWords (words.map .word ++ rest) = words ++ plainWords rest := by
  induction words with
  | nil => rfl
  | cons s words ih => exact congrArg (s :: ·) ih

theorem inputFile_words : inputFile (words.map .word ++ rest) = inputFile rest := by
  induction words with
  | nil => rfl
  | cons s words ih => simpa [inputFile] using ih

theorem outputFile_words : outputFile (words.map .word ++ rest) = outputFile rest := by
  induction words with
  | nil => rfl
  | cons s words ih => simpa [outputFile] using ih

theorem inOrder_words : InOrder (words.map .word ++ rest) ↔ InOrder rest := by
  induction words with
  | nil => rfl
  | cons s words ih => exact ih

theorem count_words {p : Item → Bool} (other : ∀ s, p (.word s) = false) :
    (words.map Item.word ++ rest).countP p = rest.countP p := by
  rw [List.countP_append, List.countP_map]
  have none : List.countP (p ∘ Item.word) words = 0 := by
    rw [List.countP_eq_zero]
    intro s _
    simp [other s]
  rw [none, Nat.zero_add]

theorem words_plain (plain : ∀ item ∈ words.map Item.word ++ rest, item.Plain) :
    less ∉ words ∧ greater ∉ words := by
  have ok : ∀ s ∈ words, Plain s := fun s hs =>
    plain (.word s) (List.mem_append_left _ (List.mem_map_of_mem hs))
  exact ⟨fun member => (ok _ member).1 rfl, fun member => (ok _ member).2 rfl⟩

/-- What has no redirection and no words is empty. -/
theorem eq_nil_of_nothing (noInput : items.countP Item.isInput = 0)
    (noOutput : outputFile items = none) (noWords : plainWords items = []) : items = [] := by
  cases items with
  | nil => rfl
  | cons item items =>
    cases item with
    | word s => simp [plainWords] at noWords
    | input file => simp [Item.isInput] at noInput
    | output file => simp [outputFile] at noOutput

theorem outputFile_none (noOutput : items.countP Item.isOutput = 0) : outputFile items = none := by
  rw [outputFile, List.findSome?_eq_none_iff]
  intro item member
  have other := List.countP_eq_zero.mp noOutput item member
  cases item with
  | output file => exact absurd rfl other
  | _ => rfl

end

section
variable {opens : Word → String → Bool} {entry : Table E} {words mid : List Word}
  {file out : Word} {more post : List Item}

theorem lookup_entry (fd : Nat) :
    lookup (entry.map (Option.map Target.entry)) fd = (lookup entry fd).map .entry :=
  lookup_map _ entry fd

/-- Without redirections nothing happens. -/
theorem redirections_words (plain : less ∉ words ∧ greater ∉ words) :
    redirections opens ⟨words.map Cell.str ++ [Cell.null], entry.map (Option.map .entry)⟩ =
      ⟨words.map Cell.str ++ [Cell.null], entry.map (Option.map .entry)⟩ := by
  rw [redirections, redirectIn, redirect_absent plain.1, redirectOut, redirect_absent plain.2]

/-- When "<" comes first, `redirect_out` does not see what is behind it. -/
theorem redirections_input (plain : less ∉ words ∧ greater ∉ words) (opened : opens file "r" = true)
    (fds : Table (Target E)) (behind : List Cell) :
    redirections opens ⟨words.map Cell.str ++ Cell.str less :: .str file :: behind, fds⟩ =
      ⟨words.map Cell.str ++ Cell.null :: .null :: behind,
        assign (close fds 0) 0 (.file file "r")⟩ := by
  rw [redirections, redirectIn, redirect_found plain.1 opened, redirectOut,
    redirect_absent plain.2]

/-- When ">" is the only operator, its file is opened. -/
theorem redirections_output (plain : less ∉ words ∧ greater ∉ words)
    (opened : opens out "w+" = true) (outPlain : out ≠ less) (noInput : less ∉ mid)
    (fds : Table (Target E)) :
    redirections opens ⟨(words ++ greater :: out :: mid).map Cell.str ++ [Cell.null], fds⟩ =
      ⟨words.map Cell.str ++ Cell.null :: .null :: (mid.map Cell.str ++ [Cell.null]),
        assign (close fds 1) 1 (.file out "w+")⟩ := by
  have absent : less ∉ words ++ greater :: out :: mid := by
    simp [plain.1, noInput, outPlain.symm, less_ne_greater]
  rw [redirections, redirectIn, redirect_absent absent, redirectOut, List.map_append,
    List.map_cons, List.map_cons, List.append_assoc, List.cons_append, List.cons_append,
    redirect_found plain.2 opened]

/-- When ">" comes before "<", both files are opened. -/
theorem redirections_output_input (plain : less ∉ words ∧ greater ∉ words)
    (inOpened : opens file "r" = true) (outOpened : opens out "w+" = true)
    (outPlain : out ≠ less) (noInput : less ∉ mid) (fds : Table (Target E)) (behind : List Cell) :
    redirections opens
        ⟨(words ++ greater :: out :: mid).map Cell.str ++ Cell.str less :: .str file :: behind,
          fds⟩ =
      ⟨words.map Cell.str ++
          Cell.null :: .null :: (mid.map Cell.str ++ Cell.null :: .null :: behind),
        assign (close (assign (close fds 0) 0 (.file file "r")) 1) 1 (.file out "w+")⟩ := by
  have absent : less ∉ words ++ greater :: out :: mid := by
    simp [plain.1, noInput, outPlain.symm, less_ne_greater]
  rw [redirections, redirectIn, redirect_found absent inOpened, redirectOut,
    List.map_append, List.map_cons, List.map_cons, List.append_assoc, List.cons_append,
    List.cons_append, redirect_found plain.2 outOpened]

theorem leadingWords_cut (words : List Word) (behind : List Cell) :
    leadingWords (words.map Cell.str ++ Cell.null :: behind) = words :=
  leadingWords_append words rfl

theorem initial_eq {items : List Item} :
    Command.initial entry items =
      ⟨(tokens items).map Cell.str ++ [Cell.null], entry.map (Option.map .entry)⟩ := rfl

/-- The redirection of stdin is the first one: it has to be the last part. -/
theorem removed_input_iff (opened : ∀ name mode, opens name mode = true)
    (ok : Redirected (words.map Item.word ++ Item.input file :: more)) :
    Removed entry (words.map Item.word ++ Item.input file :: more)
      (redirections opens
        (Command.initial entry (words.map Item.word ++ Item.input file :: more))) ↔
        more = [] := by
  have plain := words_plain ok.plain
  have noInput : more.countP Item.isInput = 0 := by
    have atMost := ok.oneInput
    rw [count_words (fun _ => rfl), List.countP_cons] at atMost
    simpa [Item.isInput] using atMost
  have behind : (tokens (words.map Item.word ++ Item.input file :: more)).map Cell.str ++
      [Cell.null] = words.map Cell.str ++
        Cell.str less :: .str file :: ((tokens more).map Cell.str ++ [Cell.null]) := by
    rw [tokens_words]
    simp [tokens, Item.tokens]
  rw [initial_eq, behind, redirections_input plain (opened file "r")]
  constructor
  · rintro ⟨-, stdout, left⟩
    apply eq_nil_of_nothing noInput
    · rw [lookup_reopened, Function.update_of_ne (by omega), lookup_entry,
        outputFile_words] at stdout
      cases asked : outputFile more with
      | none => rfl
      | some out =>
        have wanted : outputFile (.input file :: more) = some out := asked
        rw [wanted, streamTarget, Option.map_eq_some_iff] at stdout
        obtain ⟨e, -, same⟩ := stdout
        cases same
    · rw [leadingWords_cut, plainWords_words] at left
      exact List.append_right_eq_self.mp left.symm
  · rintro rfl
    constructor
    · rw [lookup_reopened, Function.update_self, inputFile_words]
      rfl
    · rw [lookup_reopened, Function.update_of_ne (by omega), lookup_entry, outputFile_words]
      rfl
    · rw [leadingWords_cut, plainWords_words]
      exact (List.append_nil words).symm

theorem tokens_output (words mid : List Word) (out : Word) (rest : List Item) :
    tokens (words.map Item.word ++ Item.output out :: (mid.map Item.word ++ rest)) =
      (words ++ greater :: out :: mid) ++ tokens rest := by
  have tail : tokens (.output out :: (mid.map Item.word ++ rest)) =
      greater :: out :: tokens (mid.map Item.word ++ rest) := rfl
  rw [tokens_words, tail, tokens_words, List.append_assoc, List.cons_append, List.cons_append]

/-- Behind the redirection of stdout no words may follow. -/
theorem removed_output_words (opened : opens out "w+" = true)
    (plain : less ∉ words ∧ greater ∉ words)
    (outPlain : out ≠ less) (noInput : less ∉ mid) :
    Removed entry (words.map Item.word ++ Item.output out :: (mid.map Item.word ++ []))
      (redirections opens (Command.initial entry
        (words.map Item.word ++ Item.output out :: (mid.map Item.word ++ [])))) ↔
      mid = [] := by
  have vector : tokens (words.map Item.word ++ Item.output out :: (mid.map Item.word ++ [])) =
      words ++ greater :: out :: mid := by
    rw [tokens_output]
    exact List.append_nil _
  rw [initial_eq, vector, redirections_output plain opened outPlain noInput]
  have wanted : plainWords (.output out :: (mid.map Item.word ++ [])) = mid := by
    have tail : plainWords (.output out :: (mid.map Item.word ++ [])) =
        plainWords (mid.map Item.word ++ []) := rfl
    rw [tail, plainWords_words]
    exact List.append_nil mid
  constructor
  · rintro ⟨-, -, left⟩
    rw [leadingWords_cut, plainWords_words, wanted] at left
    exact List.append_right_eq_self.mp left.symm
  · rintro rfl
    constructor
    · rw [lookup_reopened, Function.update_of_ne (by omega), lookup_entry, inputFile_words]
      rfl
    · rw [lookup_reopened, Function.update_self, outputFile_words]
      rfl
    · rw [leadingWords_cut, plainWords_words, wanted, List.append_nil]

/-- And between or behind both redirections no words either. -/
theorem removed_output_input (opened : ∀ name mode, opens name mode = true)
    (plain : less ∉ words ∧ greater ∉ words) (outPlain : out ≠ less) (noInput : less ∉ mid)
    (postInput : post.countP Item.isInput = 0) (postOutput : post.countP Item.isOutput = 0) :
    Removed entry
      (words.map Item.word ++ Item.output out :: (mid.map Item.word ++ Item.input file :: post))
      (redirections opens (Command.initial entry
        (words.map Item.word ++
          Item.output out :: (mid.map Item.word ++ Item.input file :: post)))) ↔
      mid = [] ∧ post = [] := by
  have behind : (tokens (.input file :: post)).map Cell.str ++ [Cell.null] =
      .str less :: .str file :: ((tokens post).map Cell.str ++ [Cell.null]) := rfl
  rw [initial_eq, tokens_output, List.map_append, List.append_assoc, behind,
    redirections_output_input plain (opened file "r") (opened out "w+") outPlain noInput]
  have wanted : plainWords (.output out :: (mid.map Item.word ++ Item.input file :: post)) =
      mid ++ plainWords post := by
    have tail : plainWords (.output out :: (mid.map Item.word ++ Item.input file :: post)) =
        plainWords (mid.map Item.word ++ Item.input file :: post) := rfl
    rw [tail, plainWords_words]
    rfl
  constructor
  · rintro ⟨-, -, left⟩
    rw [leadingWords_cut, plainWords_words, wanted] at left
    obtain ⟨noMid, noPost⟩ := List.append_eq_nil_iff.mp (List.append_right_eq_self.mp left.symm)
    exact ⟨noMid, eq_nil_of_nothing postInput (outputFile_none postOutput) noPost⟩
  · rintro ⟨rfl, rfl⟩
    constructor
    · rw [lookup_reopened, Function.update_of_ne (by omega), lookup_reopened,
        Function.update_self, inputFile_words]
      rfl
    · rw [lookup_reopened, Function.update_self, outputFile_words]
      rfl
    · rw [leadingWords_cut, plainWords_words, wanted]
      exact (List.append_nil words).symm

theorem removed_output_iff (opened : ∀ name mode, opens name mode = true)
    (ok : Redirected (words.map Item.word ++ Item.output out :: more)) :
    Removed entry (words.map Item.word ++ Item.output out :: more)
      (redirections opens
        (Command.initial entry (words.map Item.word ++ Item.output out :: more))) ↔
        more = [] ∨ ∃ file, more = [.input file] := by
  have plain := words_plain ok.plain
  have outPlain : out ≠ less := (ok.plain (.output out) (by simp)).1
  have oneInput := ok.oneInput
  have oneOutput := ok.oneOutput
  obtain ⟨mid, rest, rfl, shape⟩ := first_redirection more
  have plainMore : ∀ item ∈ mid.map Item.word ++ rest, item.Plain := fun item member =>
    ok.plain item (List.mem_append_right _ (List.mem_cons_of_mem _ member))
  have midPlain := words_plain plainMore
  rw [count_words (fun _ => rfl), List.countP_cons, count_words (fun _ => rfl)]
    at oneInput oneOutput
  rcases shape with rfl | ⟨file, post, rfl⟩ | ⟨other, post, rfl⟩
  · rw [removed_output_words (opened out "w+") plain outPlain midPlain.1]
    cases mid <;> simp
  · have postInput : post.countP Item.isInput = 0 := by
      simpa [List.countP_cons, Item.isInput] using oneInput
    have postOutput : post.countP Item.isOutput = 0 := by
      simpa [List.countP_cons, Item.isOutput] using oneOutput
    rw [removed_output_input opened plain outPlain midPlain.1 postInput postOutput]
    cases mid <;> simp
  · simp [List.countP_cons, Item.isOutput] at oneOutput

/-- The redirections are taken out as asked for, if and only if the words come first and
"> g" before "< f". -/
theorem removed_iff_inOrder (opened : ∀ name mode, opens name mode = true) {items : List Item}
    (ok : Redirected items) :
    Removed entry items (redirections opens (Command.initial entry items)) ↔ InOrder items := by
  obtain ⟨words, rest, rfl, shape⟩ := first_redirection items
  rw [inOrder_words]
  rcases shape with rfl | ⟨file, more, rfl⟩ | ⟨out, more, rfl⟩
  · have none : tokens (words.map Item.word ++ []) = words := by
      rw [tokens_words]
      exact List.append_nil words
    rw [initial_eq, none, redirections_words (words_plain ok.plain)]
    refine iff_of_true ⟨?_, ?_, ?_⟩ trivial
    · rw [lookup_entry, inputFile_words]
      rfl
    · rw [lookup_entry, outputFile_words]
      rfl
    · rw [leadingWords_cut, plainWords_words]
      exact (List.append_nil words).symm
  · exact removed_input_iff opened ok
  · exact removed_output_iff opened ok

end

/-! ## Two orders of one command -/

theorem output_before_input_removed :
    Removed standardStreams [.word "sort", .word "-r", .output "out", .input "in"]
      (redirections (fun _ _ => true) (Command.initial standardStreams
        [.word "sort", .word "-r", .output "out", .input "in"])) := by
  have ok : Redirected [.word "sort", .word "-r", .output "out", .input "in"] := by
    constructor
    · simp [Item.Plain, Plain, Texts.ascii_inj, less, greater]
    · decide
    · decide
  exact (removed_iff_inOrder (fun _ _ => rfl) ok).mpr (Or.inr ⟨"in", rfl⟩)

/-- The stdout of the command is not redirected, though the vector asks for it. -/
theorem input_before_output_kept :
    Redirected [.word "sort", .word "-r", .input "in", .output "out"] ∧
      ¬ Removed standardStreams [.word "sort", .word "-r", .input "in", .output "out"]
        (redirections (fun _ _ => true) (Command.initial standardStreams
          [.word "sort", .word "-r", .input "in", .output "out"])) := by
  constructor
  · constructor
    · simp [Item.Plain, Plain, Texts.ascii_inj, less, greater]
    · decide
    · decide
  · rintro ⟨-, stdout, -⟩
    revert stdout
    decide +kernel

end Shell
