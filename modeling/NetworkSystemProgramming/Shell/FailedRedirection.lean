import NetworkSystemProgramming.Shell.Background

/-!
# Redirections to files that cannot be opened

`redirect_in` and `redirect_out` return 0 when they found their operator, whatever
`freopen` returned, and -1 when there is none. The child of `run_command` looks at
neither result.
-/

namespace Shell

open DescriptorTables

variable {E : Type}

/-- The vector that the two functions get in the child. -/
def cutVector (argv : List Word) : List Cell :=
  cutAt (Version.part2.isBackground (tokenVector argv).cells) (tokenVector argv).cells

def Command.cut (entry : Table E) (argv : List Word) : Command E where
  argv := cutVector argv
  fds := entry.map (Option.map .entry)

/-- 0 on success, and -1 on error. -/
def promisedReturn (opens : Word → String → Bool) (mode : String) : Option Word → Int
  | some file => if opens file mode then 0 else -1
  | none => 0

/-- Every file that was asked for is open at the descriptor of its stream. -/
structure Effective (items : List Item) (fds : Table (Target E)) : Prop where
  stdin : ∀ file, inputFile items = some file → lookup fds 0 = some (.file file "r")
  stdout : ∀ file, outputFile items = some file → lookup fds 1 = some (.file file "w+")

/-- The parts of a vector, with one redirection or both. -/
structure Requested (argv : List Word) (items : List Item) : Prop where
  redirected : Redirected items
  vector : leadingWords (cutVector argv) = tokens items
  asked : inputFile items ≠ none ∨ outputFile items ≠ none

/-- The functions report what could not be opened, also when `redirect_out` is called
behind `redirect_in`, and the child goes on with all of its files only. -/
structure StopsOnFailure (opens : Word → String → Bool) (entry : Table E)
    (argv : List Word) (items : List Item) : Prop where
  input : (redirectIn opens (Command.cut entry argv)).1 =
    promisedReturn opens "r" (inputFile items)
  output : (redirectOut opens (Command.cut entry argv)).1 =
    promisedReturn opens "w+" (outputFile items)
  outputBehind : (redirectOut opens (redirectIn opens (Command.cut entry argv)).2).1 =
    promisedReturn opens "w+" (outputFile items)
  stops : ∀ call,
    (Version.part2.child opens
      ⟨(tokenVector argv).cells, entry.map (Option.map Target.entry)⟩).2 = some call →
    Effective items
      (Version.part2.child opens
        ⟨(tokenVector argv).cells, entry.map (Option.map Target.entry)⟩).1.fds

/-- The first redirection is one of stdout. -/
def OutputFirst : List Item → Prop
  | .word _ :: rest => OutputFirst rest
  | .output _ :: _ => True
  | _ => False

/-- Both redirections are there, that of stdout first, and both files can be opened. -/
structure BothOpened (opens : Word → String → Bool) (items : List Item) : Prop where
  input : ∃ file, inputFile items = some file ∧ opens file "r" = true
  output : ∃ file, outputFile items = some file ∧ opens file "w+" = true
  order : OutputFirst items

section
variable {opens : Word → String → Bool} {entry : Table E} {argv words front mid : List Word}
  {items more post : List Item} {op file out : Word} {mode : String} {fd : Nat} {rest : List Cell}
  {fds : Table (Target E)}

/-- What was found is reported as a success. -/
theorem redirect_found_returns {c : Command E} (vector : c.argv = front.map .str ++ .str op :: rest)
    (absent : op ∉ front) : (redirect op fd mode opens c).1 = 0 := by
  simp only [redirect, vector, searchForward_found absent]

/-- And the vector ends in its place. -/
theorem redirect_found_argv {c : Command E}
    (vector : c.argv = front.map .str ++ .str op :: .str file :: rest) (absent : op ∉ front) :
    (redirect op fd mode opens c).2.argv = front.map .str ++ .null :: .null :: rest := by
  simp only [redirect, vector, searchForward_found absent]
  rw [List.set_append_right _ _ (by simp), List.set_append_right _ _ (by simp)]
  simp

/-- What was not asked for is reported as a failure. -/
theorem redirect_absent_returns {c : Command E} (vector : c.argv = front.map .str ++ .null :: rest)
    (absent : op ∉ front) : (redirect op fd mode opens c).1 = -1 := by
  simp only [redirect, vector, searchForward_absent absent]

theorem promisedReturn_eq_zero {name : Word} :
    promisedReturn opens mode (some name) = 0 ↔ opens name mode = true := by
  by_cases can : opens name mode = true <;> simp [promisedReturn, can]

theorem outputFirst_words (words : List Word) :
    OutputFirst (words.map .word ++ more) ↔ OutputFirst more := by
  induction words with
  | nil => rfl
  | cons s words ih => exact ih

theorem cutVector_shape (argv : List Word) :
    ∃ behind, cutVector argv = (leadingWords (cutVector argv)).map .str ++ .null :: behind := by
  have shape : ∃ (words : List Word) (behind : List Cell),
      cutVector argv = words.map .str ++ .null :: behind := by
    rcases ampersand_cases argv with absent | ⟨front, behind, absent, rfl⟩
    · refine ⟨argv, [], ?_⟩
      rw [cutVector, Version.isBackground, tokenVector, ampersandIndex_absent absent]
      rfl
    · rw [cutVector, Version.isBackground, tokenVector_found, ampersandIndex_found absent,
        Nat.zero_add, cutAt_found]
      cases front with
      | nil => exact ⟨ampersand :: behind, [], by simp⟩
      | cons s front => exact ⟨s :: front, _, if_neg (by simp)⟩
  obtain ⟨words, behind, same⟩ := shape
  refine ⟨behind, ?_⟩
  rw [same, leadingWords_cut]

/-- The command that the child works on, by the parts of its vector. -/
theorem Requested.cut (requested : Requested argv items) (entry : Table E) :
    ∃ behind, Command.cut entry argv =
      ⟨(tokens items).map .str ++ .null :: behind, entry.map (Option.map .entry)⟩ := by
  obtain ⟨behind, shape⟩ := cutVector_shape argv
  refine ⟨behind, ?_⟩
  rw [Command.cut, shape, requested.vector]

theorem child_part2 (opens : Word → String → Bool) (entry : Table E) (argv : List Word) :
    Version.part2.child opens ⟨(tokenVector argv).cells, entry.map (Option.map Target.entry)⟩ =
      (redirections opens (Command.cut entry argv),
        pipeOrExec (redirections opens (Command.cut entry argv)).argv) := rfl

/-- The vector of a command line whose first redirection is "< f". -/
theorem input_vector (words : List Word) (file : Word) (more : List Item) (behind : List Cell) :
    (tokens (words.map Item.word ++ Item.input file :: more)).map .str ++ behind =
      words.map .str ++ Cell.str less :: .str file :: ((tokens more).map .str ++ behind) := by
  rw [tokens_words]
  simp [tokens, Item.tokens]

/-- When "< f" comes first, one of the results is not the promised one. -/
theorem input_first_fails
    (requested : Requested argv (words.map Item.word ++ Item.input file :: more)) :
    ¬ StopsOnFailure opens entry argv (words.map Item.word ++ Item.input file :: more) := by
  rintro ⟨-, output, outputBehind, -⟩
  have plain := words_plain requested.redirected.plain
  have oneInput := requested.redirected.oneInput
  rw [count_words (fun _ => rfl), List.countP_cons] at oneInput
  have wanted : outputFile (words.map Item.word ++ Item.input file :: more) = outputFile more := by
    rw [outputFile_words]
    rfl
  obtain ⟨behind, cut⟩ := requested.cut entry
  rw [input_vector] at cut
  rw [wanted] at output outputBehind
  -- `redirect_out` does not see what stands behind "<"
  have missed : (redirectOut opens (redirectIn opens (Command.cut entry argv)).2).1 = -1 :=
    redirect_absent_returns (redirect_found_argv (by rw [cut]) plain.1) plain.2
  obtain ⟨mid, rest, rfl, shape⟩ := first_redirection more
  rw [outputFile_words] at output outputBehind
  rcases shape with rfl | ⟨other, post, rfl⟩ | ⟨out, post, rfl⟩
  · rw [missed] at outputBehind
    exact absurd outputBehind (by simp [promisedReturn, outputFile])
  · rw [count_words (fun _ => rfl), List.countP_cons] at oneInput
    simp [Item.isInput] at oneInput
  · have midPlain := words_plain fun item inside =>
      requested.redirected.plain item
        (List.mem_append_right _ (List.mem_cons_of_mem _ inside))
    have filePlain : file ≠ greater := (requested.redirected.plain (.input file) (by simp)).2
    have vector : (Command.cut entry argv).argv = (words ++ less :: file :: mid).map .str ++
        .str greater :: .str out :: ((tokens post).map .str ++ .null :: behind) := by
      rw [cut, tokens_words]
      simp [tokens, Item.tokens]
    have found : (redirectOut opens (Command.cut entry argv)).1 = 0 :=
      redirect_found_returns vector (by
        simp [plain.2, midPlain.2, filePlain.symm, less_ne_greater.symm])
    rw [found] at output
    rw [missed, ← output] at outputBehind
    exact absurd outputBehind (by decide)

theorem output_vector (words mid : List Word) (out : Word) (behind : List Cell) :
    (words ++ greater :: out :: mid).map .str ++ behind =
      words.map .str ++ Cell.str greater :: .str out :: (mid.map .str ++ behind) := by
  simp

/-- What is not asked for is not to be reported. -/
theorem output_only_fails (plain : less ∉ words ∧ greater ∉ words) (midPlain : less ∉ mid)
    (outPlain : out ≠ less)
    (requested : Requested argv
      (words.map Item.word ++ Item.output out :: (mid.map Item.word ++ []))) :
    ¬ StopsOnFailure opens entry argv
      (words.map Item.word ++ Item.output out :: (mid.map Item.word ++ [])) := by
  rintro ⟨input, -, -, -⟩
  obtain ⟨behind, cut⟩ := requested.cut entry
  have vector : (Command.cut entry argv).argv =
      (words ++ greater :: out :: mid).map .str ++ .null :: behind := by
    rw [cut, tokens_output]
    simp [tokens]
  have missed : (redirectIn opens (Command.cut entry argv)).1 = -1 :=
    redirect_absent_returns vector (by simp [plain.1, midPlain, outPlain.symm, less_ne_greater])
  have none : inputFile (words.map Item.word ++ Item.output out :: (mid.map Item.word ++ [])) =
      none := by
    rw [inputFile_words]
    exact inputFile_words
  rw [missed, none] at input
  exact absurd input (by simp [promisedReturn])

theorem inputFile_output_input : inputFile (words.map Item.word ++
    Item.output out :: (mid.map Item.word ++ Item.input file :: post)) = some file := by
  rw [inputFile_words]
  exact inputFile_words

theorem outputFile_output :
    outputFile (words.map Item.word ++ Item.output out :: more) = some out := by
  rw [outputFile_words]
  rfl

/-- With "> g" before "< f" both functions find their operator, and the results are those
of files that can be opened. -/
theorem output_input_iff (plain : less ∉ words ∧ greater ∉ words) (midPlain : less ∉ mid)
    (outPlain : out ≠ less)
    (requested : Requested argv
      (words.map Item.word ++ Item.output out :: (mid.map Item.word ++ Item.input file :: post))) :
    StopsOnFailure opens entry argv
        (words.map Item.word ++ Item.output out :: (mid.map Item.word ++ Item.input file :: post)) ↔
      opens file "r" = true ∧ opens out "w+" = true := by
  obtain ⟨behind, cut⟩ := requested.cut entry
  have before : less ∉ words ++ greater :: out :: mid := by
    simp [plain.1, midPlain, outPlain.symm, less_ne_greater]
  have whole : Command.cut entry argv =
      ⟨(words ++ greater :: out :: mid).map .str ++
        .str less :: .str file :: ((tokens post).map .str ++ .null :: behind),
        entry.map (Option.map .entry)⟩ := by
    rw [cut, tokens_output]
    simp [tokens, Item.tokens]
  have vector := congrArg Command.argv whole
  have inFound : (redirectIn opens (Command.cut entry argv)).1 = 0 :=
    redirect_found_returns vector before
  have outFound : (redirectOut opens (Command.cut entry argv)).1 = 0 := by
    rw [output_vector] at vector
    exact redirect_found_returns vector plain.2
  have behindFound : (redirectOut opens (redirectIn opens (Command.cut entry argv)).2).1 = 0 := by
    have left : (redirectIn opens (Command.cut entry argv)).2.argv = _ :=
      redirect_found_argv vector before
    rw [output_vector] at left
    exact redirect_found_returns left plain.2
  constructor
  · rintro ⟨inReturn, outReturn, -, -⟩
    rw [inFound, inputFile_output_input, eq_comm, promisedReturn_eq_zero] at inReturn
    rw [outFound, outputFile_output, eq_comm, promisedReturn_eq_zero] at outReturn
    exact ⟨inReturn, outReturn⟩
  · rintro ⟨inOpened, outOpened⟩
    constructor
    · rw [inFound, inputFile_output_input, promisedReturn_eq_zero.mpr inOpened]
    · rw [outFound, outputFile_output, promisedReturn_eq_zero.mpr outOpened]
    · rw [behindFound, outputFile_output, promisedReturn_eq_zero.mpr outOpened]
    · intro call _
      rw [child_part2, whole, redirections_output_input plain inOpened outOpened outPlain midPlain]
      constructor
      · intro name asked
        rw [inputFile_output_input, Option.some.injEq] at asked
        rw [lookup_reopened, Function.update_of_ne (by omega), lookup_reopened,
          Function.update_self, asked]
      · intro name asked
        rw [outputFile_output, Option.some.injEq] at asked
        rw [lookup_reopened, Function.update_self, asked]

/-- Failures are told and stop the command, if and only if there are none: "> g" and
"< f" are there in this order, and both files can be opened. -/
theorem stopsOnFailure_iff (requested : Requested argv items) :
    StopsOnFailure opens entry argv items ↔ BothOpened opens items := by
  obtain ⟨words, rest, rfl, shape⟩ := first_redirection items
  have plain := words_plain requested.redirected.plain
  rcases shape with rfl | ⟨file, more, rfl⟩ | ⟨out, more, rfl⟩
  · have input : inputFile (words.map Item.word ++ []) = none := inputFile_words
    have output : outputFile (words.map Item.word ++ []) = none := outputFile_words
    rcases requested.asked with asked | asked
    · exact absurd input asked
    · exact absurd output asked
  · refine iff_of_false (input_first_fails requested) fun opened => ?_
    exact (outputFirst_words words).mp opened.order
  · have outPlain : out ≠ less := (requested.redirected.plain (.output out) (by simp)).1
    have oneOutput := requested.redirected.oneOutput
    obtain ⟨mid, rest, rfl, shape⟩ := first_redirection more
    have midPlain := (words_plain fun item inside =>
      requested.redirected.plain item
        (List.mem_append_right _ (List.mem_cons_of_mem _ inside))).1
    rw [count_words (fun _ => rfl), List.countP_cons, count_words (fun _ => rfl)] at oneOutput
    rcases shape with rfl | ⟨file, post, rfl⟩ | ⟨other, post, rfl⟩
    · refine iff_of_false (output_only_fails plain midPlain outPlain requested) ?_
      rintro ⟨⟨file, input, -⟩, -, -⟩
      rw [inputFile_words] at input
      have none : inputFile (mid.map Item.word ++ []) = none := inputFile_words
      rw [inputFile, List.findSome?_cons] at input
      exact absurd (none.symm.trans input) (by simp)
    · rw [output_input_iff plain midPlain outPlain requested]
      constructor
      · rintro ⟨inOpened, outOpened⟩
        exact ⟨⟨file, inputFile_output_input, inOpened⟩, ⟨out, outputFile_output, outOpened⟩,
          (outputFirst_words words).mpr trivial⟩
      · rintro ⟨⟨name, inName, inOpened⟩, ⟨other, outName, outOpened⟩, -⟩
        rw [inputFile_output_input, Option.some.injEq] at inName
        rw [outputFile_output, Option.some.injEq] at outName
        exact ⟨inName ▸ inOpened, outName ▸ outOpened⟩
    · simp [List.countP_cons, Item.isOutput] at oneOutput

end

theorem sort_stopsOnFailure :
    StopsOnFailure (fun _ _ => true) standardStreams ["sort", greater, "out", less, "in"]
      [.word "sort", .output "out", .input "in"] := by
  have requested : Requested ["sort", greater, "out", less, "in"]
      [.word "sort", .output "out", .input "in"] := by
    refine ⟨⟨?_, by decide, by decide⟩, by decide, by decide⟩
    simp [Item.Plain, Plain, Texts.ascii_inj, less, greater]
  exact (stopsOnFailure_iff requested).mpr ⟨⟨"in", rfl, rfl⟩, ⟨"out", rfl, rfl⟩, trivial⟩

/-- `redirect_in` returns 0 for a file that is not there, and the child execs the command
with its stdin closed. -/
theorem missing_file_ignored :
    ¬ ∀ (argv : List Word) (items : List Item), Requested argv items →
      ∀ (opens : Word → String → Bool) (entry : Table Nat),
        StopsOnFailure opens entry argv items := by
  intro claim
  have requested : Requested ["cat", less, "missing"] [.word "cat", .input "missing"] := by
    refine ⟨⟨?_, by decide, by decide⟩, by decide, by decide⟩
    simp [Item.Plain, Plain, Texts.ascii_inj, less, greater]
  have right := claim _ _ requested (fun _ _ => false) standardStreams
  exact absurd right.input (by decide)

end Shell
