import NetworkSystemProgramming.Dictionary.RoundTrip

/-!
# Runs of lines and records

`convert` on any NUL-free file. An entry of the file is a maximal run of non-blank lines.
The reading loop writes a record when a blank line ends a definition and drops what it has
when the end of the file does, and every further blank line is a headword to it.
-/

namespace Dictionary

open ByteBuffers

abbrev Line := List Byte

/-- The lines of a file: each ends with its newline, the last one perhaps without. -/
inductive FileLines : List Line → Prop
  | nil : FileLines []
  | last {s : Line} (nonempty : s ≠ []) (clean : newline ∉ s) : FileLines [s]
  | line {s : Line} {rest : List Line} (clean : newline ∉ s) (more : FileLines rest) :
      FileLines ((s ++ [newline]) :: rest)

theorem splitLines_fileLines (file : List Byte) : FileLines (splitLines file) := by
  induction file with
  | nil => exact .nil
  | cons c rest ih =>
    rw [splitLines]
    split
    · rename_i hc
      subst hc
      exact .line (s := []) (by simp) ih
    · rename_i hc
      have differs : ∀ {s : Line}, newline ∉ s → newline ∉ c :: s := by
        intro s clean
        simp [clean, Ne.symm hc]
      cases h : splitLines rest with
      | nil => exact .last (by simp) (differs (by simp))
      | cons line lines =>
        rw [h] at ih
        cases ih with
        | last nonempty clean => exact .last (by simp) (differs clean)
        | line clean more => exact .line (s := c :: _) (differs clean) more

/-- The maximal runs of consecutive non-blank lines. -/
def runs (lines : List Line) : List (List Line) :=
  (lines.splitOn [newline]).filter (· ≠ [])

theorem runs_nil : runs [] = [] := rfl

theorem runs_blank (rest : List Line) : runs ([newline] :: rest) = runs rest := by
  have cut := List.splitOn_append_cons_self (a := [newline]) ([] : List Line) rest
  rw [List.nil_append] at cut
  rw [runs, cut]
  simp [runs]

theorem runs_run {run : List Line} (nonempty : run ≠ []) (full : [newline] ∉ run)
    (rest : List Line) : runs (run ++ [newline] :: rest) = run :: runs rest := by
  rw [runs, List.splitOn_append_cons_self, List.splitOn_eq_singleton full]
  simp [runs, nonempty]

theorem runs_last {run : List Line} (nonempty : run ≠ []) (full : [newline] ∉ run) :
    runs run = [run] := by
  rw [runs, List.splitOn_eq_singleton full]
  simp [nonempty]

/-- Each run is followed by one blank line; one more may stand at the end. -/
inductive Separated : List Line → Prop
  | nil : Separated []
  | extra : Separated [[newline]]
  | run {run rest : List Line} (nonempty : run ≠ []) (full : [newline] ∉ run)
      (more : Separated rest) : Separated (run ++ [newline] :: rest)

/-- The headword line with its terminating NUL and all definition lines, each with one,
fit the fields. -/
def Fits (run : List Line) : Prop :=
  (run.headD []).length < WORD ∧ (run.tail.flatMap (· ++ [0])).length ≤ TEXT

/-- The record of a run: its first line as the word, and its other lines, one string each,
from the start of the text. -/
def Represents (r : Dictrec) (run : List Line) : Prop :=
  r.word.str = run.headD [] ∧ r.text.bytes = padded TEXT (run.tail.flatMap (· ++ [0]))

/-- One record for each run, in order. -/
def Matches (file : List Byte) : Prop :=
  ∃ records, convert file = some records ∧ List.Forall₂ Represents records (runs (splitLines file))

/-- Before another line every line is terminated. -/
theorem FileLines.terminated {pre post : List Line} {next : Line}
    (h : FileLines (pre ++ next :: post)) :
    (∀ line ∈ pre, ∃ s, newline ∉ s ∧ line = s ++ [newline]) ∧ FileLines (next :: post) := by
  induction pre with
  | nil => exact ⟨by simp, h⟩
  | cons line pre ih =>
    have rest : (∃ s, newline ∉ s ∧ line = s ++ [newline]) ∧ FileLines (pre ++ next :: post) := by
      generalize hl : line :: pre ++ next :: post = lines at h
      cases h with
      | nil => cases hl
      | last nonempty clean => simp at hl
      | line clean more =>
        obtain ⟨rfl, rfl⟩ := List.cons.inj hl
        exact ⟨⟨_, clean, rfl⟩, more⟩
    obtain ⟨terminated, more⟩ := ih rest.2
    refine ⟨?_, more⟩
    intro l member
    rcases List.mem_cons.mp member with rfl | member
    · exact rest.1
    · exact terminated l member

theorem FileLines.tail {line : Line} {rest : List Line} (h : FileLines (line :: rest)) :
    FileLines rest := by
  cases h with
  | last => exact .nil
  | line clean more => exact more

theorem head_of_full {s : Line} (clean : newline ∉ s) (full : s ++ [newline] ≠ [newline]) :
    (s ++ [newline]).head? ≠ some newline := by
  cases s with
  | nil => exact absurd rfl full
  | cons c rest =>
    intro h
    have same : c = newline := by simpa using h
    exact clean (by simp [same])

/-- One turn of the reading loop over a run and the blank line behind it. -/
theorem convertLoop_run (fuel : Nat) {head : Line} {definition rest : List Line}
    (lines : FileLines (head :: definition ++ [newline] :: rest))
    (full : [newline] ∉ head :: definition) (clean : ∀ line ∈ head :: definition, 0 ∉ line)
    (fits : Fits (head :: definition)) :
    ∃ r, Represents r (head :: definition) ∧
      convertLoop (fuel + 1) ⟨head :: definition ++ [newline] :: rest, false⟩ =
        (convertLoop fuel ⟨rest, false⟩).map (r :: ·) := by
  obtain ⟨short, room⟩ := fits
  simp only [List.headD_cons, List.tail_cons] at short room
  have terminated := lines.terminated.1
  have notBlank : ∀ line ∈ head :: definition, line ≠ [newline] := by
    rintro line member rfl
    exact full member
  have shape : ∀ line ∈ definition, 0 ∉ line ∧ line ≠ [newline] ∧ line.getLast? = some newline := by
    intro line member
    have member : line ∈ head :: definition := List.mem_cons_of_mem head member
    obtain ⟨s, -, rfl⟩ := terminated _ member
    exact ⟨clean _ member, notBlank _ member, List.getLast?_concat⟩
  have first : head.head? ≠ some newline ∧ head.getLast? = some newline := by
    have notBlank := notBlank head List.mem_cons_self
    obtain ⟨s, free, rfl⟩ := terminated head List.mem_cons_self
    exact ⟨head_of_full free notBlank, List.getLast?_concat⟩
  have headClean := clean head List.mem_cons_self
  have word := copyWord_line headClean first.1 short
  obtain ⟨text, ht, hb⟩ := readDefinition_run shape rest [] (Buffer.zero TEXT)
    (by simp [Buffer.zero, padded]) (by simpa using room)
  rw [List.length_nil] at ht
  refine ⟨⟨.ofString WORD head (Nat.le_of_lt short), text⟩, ⟨?_, ?_⟩, ?_⟩
  · exact cstr_padded headClean short
  · simpa using hb
  · simp [convertLoop, getline, word, first.2, ht]

/-- The definition loop ends behind a blank line, or at the end of the file when there
is none. -/
theorem readDefinition_ends {lines : List Line} (clean : ∀ line ∈ lines, 0 ∉ line)
    {feof : Bool} {index : Nat} {text text' : Buffer TEXT} {f : InFile}
    (ends : readDefinition lines feof index text = some (text', f)) :
    [newline] ∈ lines ∨ f.feof = true := by
  induction lines generalizing feof index text with
  | nil =>
    simp only [readDefinition, Option.some.injEq, Prod.mk.injEq] at ends
    exact Or.inr (by rw [← ends.2])
  | cons line rest ih =>
    have nul := clean line List.mem_cons_self
    by_cases blank : line = [newline]
    · exact Or.inl (List.mem_cons.mpr (Or.inl blank.symm))
    · simp only [readDefinition, cstr_of_clean nul, if_neg blank] at ends
      obtain ⟨stored, -, ends⟩ := Option.bind_eq_some_iff.mp ends
      rcases ih (fun l hl => clean l (List.mem_cons_of_mem line hl)) ends with found | ended
      · exact Or.inl (List.mem_cons_of_mem line found)
      · exact Or.inr ended

/-- What a turn of the reading loop writes: nothing when the definition loop has met the
end of the file, which is then the last turn. -/
theorem convertLoop_turn {head : Line} {definition : List Line} {fuel : Nat}
    {records : List Dictrec}
    (ends : convertLoop (fuel + 1) ⟨head :: definition, false⟩ = some records) :
    ∃ word text f, copyWord 0 (cstr head ++ [0]) (Buffer.zero WORD) = some word ∧
      readDefinition definition (head.getLast? ≠ some newline) 0 (Buffer.zero TEXT) =
        some (text, f) ∧
      (f.feof = true → records = []) ∧
      (f.feof = false → ∃ more, records = ⟨word, text⟩ :: more) := by
  simp only [convertLoop, getline, Bool.false_eq_true, if_false] at ends
  obtain ⟨word, hword, ends⟩ := Option.bind_eq_some_iff.mp ends
  obtain ⟨⟨text, f⟩, loop, ends⟩ := Option.bind_eq_some_iff.mp ends
  obtain ⟨more, last, same⟩ := Option.map_eq_some_iff.mp ends
  refine ⟨word, text, f, hword, by simpa using loop, ?_, ?_⟩
  · intro ended
    cases fuel with
    | zero => cases last
    | succ fuel =>
      simp only [convertLoop, ended, if_true, Option.some.injEq] at last
      rw [← same, ← last]
      simp [ended]
  · intro more_
    refine ⟨more, ?_⟩
    rw [← same]
    simp [more_]

/-- Without a blank line behind it a run is not written. -/
theorem convertLoop_unended {head : Line} {definition : List Line} {fuel : Nat}
    {records : List Dictrec} (full : [newline] ∉ definition)
    (clean : ∀ line ∈ definition, 0 ∉ line)
    (ends : convertLoop (fuel + 1) ⟨head :: definition, false⟩ = some records) : records = [] := by
  obtain ⟨_, _, f, _, loop, nothing, _⟩ := convertLoop_turn ends
  rcases readDefinition_ends clean loop with found | ended
  · exact absurd found full
  · exact nothing ended

theorem copyWord_blank : copyWord 0 (cstr [newline] ++ [0]) (Buffer.zero WORD) =
    some (.ofString WORD [newline] (by decide)) := by
  decide

/-- A turn that starts at a blank line takes it for the headword; only behind another
blank line or at the end of the file is that of no consequence. -/
theorem convertLoop_blank {rest : List Line} {fuel : Nat} {records : List Dictrec}
    (ends : convertLoop (fuel + 1) ⟨[newline] :: rest, false⟩ = some records) :
    (records = [] ∧ ∀ more, rest ≠ [newline] :: more) ∨
      ∃ r more, records = r :: more ∧ r.word.str = [newline] := by
  obtain ⟨word, text, f, hword, loop, nothing, written⟩ := convertLoop_turn ends
  rw [copyWord_blank] at hword
  cases ended : f.feof with
  | true =>
    refine Or.inl ⟨nothing ended, ?_⟩
    rintro more rfl
    have goesOn : f.feof = false := by
      simp [readDefinition, cstr, newline] at loop
      rw [← loop.2]
    simp [goesOn] at ended
  | false =>
    obtain ⟨more, rfl⟩ := written ended
    cases hword
    exact Or.inr ⟨_, more, rfl, cstr_padded (by decide) (by decide)⟩

/-- A list of lines is taken apart at its first blank line. -/
theorem lines_induction {P : List Line → Prop} (nil : P [])
    (last : ∀ head definition, [newline] ∉ head :: definition → P (head :: definition))
    (blank : ∀ rest, P rest → P ([newline] :: rest))
    (run : ∀ head definition rest, [newline] ∉ head :: definition → P rest →
      P (head :: definition ++ [newline] :: rest)) (lines : List Line) : P lines := by
  induction size : lines.length using Nat.strongRecOn generalizing lines with
  | ind n ih =>
    subst size
    by_cases found : [newline] ∈ lines
    · obtain ⟨pre, rest, rfl, fresh⟩ := List.eq_append_cons_of_mem found
      have tail : P rest := ih rest.length (by simp; omega) rest rfl
      cases pre with
      | nil => exact blank rest tail
      | cons head definition => exact run head definition rest fresh tail
    · cases lines with
      | nil => exact nil
      | cons head definition => exact last head definition found

/-- No run starts with a blank line. -/
theorem runs_full {lines run : List Line} (member : run ∈ runs lines) :
    run.headD [] ≠ [newline] := by
  induction lines using lines_induction with
  | nil => simp [runs_nil] at member
  | last head definition full =>
    rw [runs_last (List.cons_ne_nil _ _) full, List.mem_singleton] at member
    subst member
    rintro rfl
    exact full List.mem_cons_self
  | blank rest ih =>
    rw [runs_blank] at member
    exact ih member
  | run head definition rest full ih =>
    rw [runs_run (List.cons_ne_nil _ _) full] at member
    rcases List.mem_cons.mp member with rfl | member
    · rintro rfl
      exact full List.mem_cons_self
    · exact ih member

theorem runs_ne_nil {first : Line} {rest : List Line} (full : first ≠ [newline]) :
    runs (first :: rest) ≠ [] := by
  rw [runs, List.splitOn_cons_eq_if_modifyHead, if_neg (by simpa using full)]
  obtain ⟨piece, pieces, cut⟩ := List.exists_cons_of_ne_nil (List.splitOn_ne_nil [newline] rest)
  simp [cut]

theorem Separated.cases_first {first : Line} {lines : List Line} (h : Separated (first :: lines)) :
    (first = [newline] ∧ lines = []) ∨
      ∃ definition rest, first ≠ [newline] ∧ [newline] ∉ definition ∧
        lines = definition ++ [newline] :: rest ∧ Separated rest := by
  generalize same : first :: lines = all at h
  cases h with
  | nil => cases same
  | extra =>
    obtain ⟨rfl, rfl⟩ := List.cons.inj same
    exact Or.inl ⟨rfl, rfl⟩
  | @run run rest nonempty full more =>
    right
    cases run with
    | nil => exact absurd rfl nonempty
    | cons head definition =>
      obtain ⟨rfl, rfl⟩ := List.cons.inj same
      simp only [List.mem_cons, not_or] at full
      exact ⟨definition, rest, Ne.symm full.1, full.2, rfl, more⟩

/-- The reading loop writes the runs of the lines ahead exactly when they are separated. -/
theorem convertLoop_matches_iff {lines : List Line} (h : FileLines lines)
    (clean : ∀ line ∈ lines, 0 ∉ line) (fits : ∀ run ∈ runs lines, Fits run) {fuel : Nat}
    (enough : lines.length + 2 ≤ fuel) :
    (∃ records, convertLoop fuel ⟨lines, false⟩ = some records ∧
      List.Forall₂ Represents records (runs lines)) ↔ Separated lines := by
  induction lines using lines_induction generalizing fuel with
  | nil =>
    obtain ⟨k, rfl⟩ : ∃ k, fuel = k + 2 := ⟨fuel - 2, by simp at enough; omega⟩
    constructor
    · intro _
      exact .nil
    · intro _
      exact ⟨[], by simp [convertLoop, getline, readDefinition], .nil⟩
  | last head definition full =>
    obtain ⟨k, rfl⟩ : ∃ k, fuel = k + 1 := ⟨fuel - 1, by omega⟩
    constructor
    · rintro ⟨records, ends, pairs⟩
      have none := convertLoop_unended (fun found => full (List.mem_cons_of_mem head found))
        (fun line member => clean line (List.mem_cons_of_mem head member)) ends
      rw [runs_last (List.cons_ne_nil _ _) full, none] at pairs
      cases pairs
    · intro separated
      rcases separated.cases_first with ⟨rfl, -⟩ | ⟨_, rest, -, -, rfl, -⟩
      · exact absurd List.mem_cons_self full
      · exact absurd (by simp) full
  | blank rest =>
    obtain ⟨k, rfl⟩ : ∃ k, fuel = k + 1 := ⟨fuel - 1, by omega⟩
    rw [runs_blank]
    constructor
    · rintro ⟨records, ends, pairs⟩
      rcases convertLoop_blank ends with ⟨rfl, single⟩ | ⟨r, more, rfl, word⟩
      · have none : runs rest = [] := by
          cases hr : runs rest with
          | nil => rfl
          | cons run others =>
            rw [hr] at pairs
            cases pairs
        cases rest with
        | nil => exact .extra
        | cons line others =>
          exact absurd none (runs_ne_nil (fun h => single others (by rw [h])))
      · cases hr : runs rest with
        | nil =>
          rw [hr] at pairs
          cases pairs
        | cons run others =>
          rw [hr] at pairs
          obtain ⟨first, -⟩ := List.forall₂_cons.mp pairs
          exact absurd (first.1.symm.trans word) (runs_full (hr ▸ List.mem_cons_self))
    · intro separated
      rcases separated.cases_first with ⟨-, rfl⟩ | ⟨_, _, first, -⟩
      · obtain ⟨j, rfl⟩ : ∃ j, k = j + 1 := ⟨k - 1, by simp at enough; omega⟩
        exact ⟨[], by simp [convertLoop, getline, readDefinition, copyWord_blank], .nil⟩
      · exact absurd rfl first
  | run head definition rest full ih =>
    obtain ⟨k, rfl⟩ : ∃ k, fuel = k + 1 := ⟨fuel - 1, by omega⟩
    rw [runs_run (List.cons_ne_nil _ _) full] at fits ⊢
    have cleanRun : ∀ line ∈ head :: definition, 0 ∉ line :=
      fun line member => clean line (List.mem_append_left _ member)
    obtain ⟨r, represents, turn⟩ := convertLoop_run k h full cleanRun
      (fits _ List.mem_cons_self)
    have room : rest.length + 2 ≤ k := by
      simp at enough
      omega
    have tail := ih h.terminated.2.tail
      (fun line member => clean line (List.mem_append_right _ (List.mem_cons_of_mem _ member)))
      (fun run member => fits run (List.mem_cons_of_mem _ member)) room
    constructor
    · rintro ⟨records, ends, pairs⟩
      obtain ⟨more, hmore, rfl⟩ := Option.map_eq_some_iff.mp (turn ▸ ends)
      obtain ⟨-, others⟩ := List.forall₂_cons.mp pairs
      exact .run (List.cons_ne_nil _ _) full (tail.mp ⟨more, hmore, others⟩)
    · intro separated
      have more : Separated rest := by
        rcases separated.cases_first with ⟨rfl, -⟩ | ⟨definition', rest', -, full', same, more⟩
        · exact absurd List.mem_cons_self full
        · have fresh : [newline] ∉ definition := fun found => full (List.mem_cons_of_mem head found)
          have same : definition ++ [newline] :: rest = definition' ++ [newline] :: rest' := same
          have cut := congrArg (List.splitOn [newline]) same
          rw [List.splitOn_append_cons_self_of_not_mem fresh,
            List.splitOn_append_cons_self_of_not_mem full'] at cut
          obtain ⟨rfl, -⟩ := List.cons.inj cut
          obtain ⟨-, rfl⟩ := List.cons.inj (List.append_cancel_left same)
          exact more
      obtain ⟨records, ends, pairs⟩ := tail.mpr more
      exact ⟨r :: records, by rw [turn, ends, Option.map_some], .cons represents pairs⟩

theorem flatten_splitLines (file : List Byte) : (splitLines file).flatten = file := by
  induction file with
  | nil => rfl
  | cons c rest ih =>
    rw [splitLines]
    split
    · rw [List.flatten_cons, ih, List.singleton_append]
    · cases h : splitLines rest with
      | nil =>
        rw [h] at ih
        simpa using ih
      | cons line lines =>
        rw [h] at ih
        simpa using ih

/-- The records of a NUL-free file whose runs fit are its runs, in order, if and only if
each run is followed by one blank line, with at most one more at the end of the file. -/
theorem matches_iff_separated {file : List Byte} (clean : 0 ∉ file)
    (fits : ∀ run ∈ runs (splitLines file), Fits run) :
    Matches file ↔ Separated (splitLines file) := by
  apply convertLoop_matches_iff (splitLines_fileLines file) _ fits (Nat.le_refl _)
  intro line member nul
  apply clean
  rw [← flatten_splitLines file]
  exact List.mem_flatten_of_mem member nul

instance (run : List Line) : Decidable (Fits run) :=
  inferInstanceAs (Decidable (_ ∧ _))

/-- `cat`, with the definition line `a` and the blank line behind it. -/
theorem one_entry_is_written : Matches [99, 97, 116, 10, 97, 10, 10] := by
  apply (matches_iff_separated (by decide) (by decide)).mpr
  have entry : [[99, 97, 116, 10], [97, 10]] ≠ ([] : List Line) := by simp
  exact .run entry (by decide) .nil

theorem words_of_represented {records : List Dictrec} {entries : List (List Line)}
    (pairs : List.Forall₂ Represents records entries) :
    records.map (fun r => r.word.str) = entries.map (·.headD []) := by
  induction pairs with
  | nil => rfl
  | cons first _ ih => rw [List.map_cons, List.map_cons, first.1, ih]

/-- The same entry at the end of the file, without a blank line, is lost. Two blank lines
behind it make the second one the headword of the next entry, `dog` with the line `b`. -/
theorem last_entry_lost_and_blank_line_invented :
    (0 ∉ [99, 97, 116, 10, 97, 10] ∧
      (∀ run ∈ runs (splitLines [99, 97, 116, 10, 97, 10]), Fits run) ∧
      ¬ Matches [99, 97, 116, 10, 97, 10]) ∧
    (∀ run ∈ runs (splitLines [99, 97, 116, 10, 97, 10, 10, 10, 100, 111, 103, 10, 98, 10, 10]),
      Fits run) ∧
      ¬ Matches [99, 97, 116, 10, 97, 10, 10, 10, 100, 111, 103, 10, 98, 10, 10] := by
  refine ⟨⟨by decide, by decide, ?_⟩, by decide, ?_⟩
  · rintro ⟨records, written, pairs⟩
    have none : convert [99, 97, 116, 10, 97, 10] = some [] := by decide +kernel
    rw [none, Option.some.injEq] at written
    subst written
    cases pairs
  · rintro ⟨records, written, pairs⟩
    have words : (convert [99, 97, 116, 10, 97, 10, 10, 10, 100, 111, 103, 10, 98, 10, 10]).map
        (List.map fun r => r.word.str) = some [[99, 97, 116, 10], [10]] := by decide +kernel
    rw [written, Option.map_some, words_of_represented pairs] at words
    exact absurd words (by decide)

end Dictionary
