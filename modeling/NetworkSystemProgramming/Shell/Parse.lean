import NetworkSystemProgramming.Shell.Tokens

/-!
# Parsing a line in place

`parse` on the memory of its line. `strtok` stores a NUL over the delimiter behind each
token and keeps a pointer to the byte after it from call to call. The vector holds the
maximal runs of bytes that are no delimiters.
-/

namespace Shell

open ByteBuffers

/-- The line's memory and the static pointer of `strtok`. -/
structure Scan where
  memory : List Byte
  save : Option Nat

/-- `strtok` from the index `start` on: the index of the token, and what it leaves. -/
def strtokFrom (memory : List Byte) (start : Nat) : Option Nat × Scan :=
  let token := start + ((memory.drop start).takeWhile isDelim).length
  if cstr (memory.drop token) = [] then (none, ⟨memory, none⟩)
  else
    let stop := token + ((cstr (memory.drop token)).takeWhile (!isDelim ·)).length
    -- at the end of the line there is no delimiter to store a NUL over
    if memory[stop]? = some 0 then (some token, ⟨memory, some stop⟩)
    else (some token, ⟨memory.set stop 0, some (stop + 1)⟩)

/-- `strtok` with a null pointer for the string. -/
def strtokNext (scan : Scan) : Option Nat × Scan :=
  match scan.save with
  | none => (none, scan)
  | some start => strtokFrom scan.memory start

/-- The string at an index, copied by `malloc` and `strcpy`. -/
def copyAt (scan : Scan) (token : Nat) : Cell := .str (cstr (scan.memory.drop token))

/-- The loop over the tokens behind the first one. -/
def installTokens : Nat → Scan → Block → Block
  | 0, _, argv => argv
  | fuel + 1, scan, argv =>
    match strtokNext scan with
    | (none, _) => argv
    | (some token, scan) => installTokens fuel scan (argv.push (copyAt scan token))

/-- `parse` on the memory of its line; only the newer version tests for an empty line. -/
def parseMemory (v : Version) (memory : List Byte) : Option Block :=
  if v = .part2 ∧ cstr memory = [newline] then none
  else match strtokFrom memory 0 with
    | (none, _) => none
    | (some token, scan) =>
      some ((installTokens memory.length scan ⟨1, [copyAt scan token]⟩).push .null)

theorem strtokFrom_blank {front s behind : List Byte} (blank : ∀ c ∈ s, isDelim c) :
    strtokFrom (front ++ (s ++ 0 :: behind)) front.length =
      (none, ⟨front ++ (s ++ 0 :: behind), none⟩) := by
  have run : (s ++ 0 :: behind).takeWhile isDelim = s :=
    takeWhile_run blank (by simp [isDelim, newline])
  simp [strtokFrom, run, cstr]

/-- The token's bytes up to the delimiter or the NUL behind it. -/
theorem takeWhile_token {token more : List Byte} {c : Byte}
    (word : ∀ b ∈ token, isDelim b = false) (clean : 0 ∉ token) (stops : c = 0 ∨ isDelim c) :
    (cstr (token ++ c :: more)).takeWhile (!isDelim ·) = token := by
  have all : ∀ b ∈ token, (!isDelim b) = true := by
    intro b hb
    simp [word b hb]
  rcases stops with rfl | delim
  · rw [cstr_terminated clean, List.takeWhile_eq_self_iff.mpr all]
  · have nonzero : c ≠ 0 := by
      rintro rfl
      exact absurd delim (by decide)
    have string : cstr (token ++ c :: more) = token ++ c :: cstr more := by
      rw [cstr_append_clean clean]
      simp [nonzero, cstr]
    rw [string]
    exact takeWhile_run all (by simp [delim])

theorem strtokFrom_token (front more : List Byte) {blank token : List Byte} {c : Byte}
    (delims : ∀ b ∈ blank, isDelim b) (nonempty : token ≠ [])
    (word : ∀ b ∈ token, isDelim b = false) (clean : 0 ∉ token) (stops : c = 0 ∨ isDelim c) :
    strtokFrom (front ++ (blank ++ (token ++ c :: more))) front.length =
      (some (front.length + blank.length),
        if c = 0 then
          ⟨front ++ (blank ++ (token ++ c :: more)),
            some (front.length + blank.length + token.length)⟩
        else
          ⟨front ++ (blank ++ (token ++ 0 :: more)),
            some (front.length + blank.length + token.length + 1)⟩) := by
  have start : (front ++ (blank ++ (token ++ c :: more))).drop front.length =
      blank ++ (token ++ c :: more) := List.drop_left
  have skip : (blank ++ (token ++ c :: more)).takeWhile isDelim = blank := by
    refine takeWhile_run delims ?_
    cases token with
    | nil => exact absurd rfl nonempty
    | cons b token => simp [word b List.mem_cons_self]
  have here : (front ++ (blank ++ (token ++ c :: more))).drop (front.length + blank.length) =
      token ++ c :: more := by
    rw [← List.drop_drop, start, List.drop_left]
  have found : cstr (token ++ c :: more) ≠ [] := by
    intro none
    have own : (cstr (token ++ c :: more)).takeWhile (!isDelim ·) = token :=
      takeWhile_token word clean stops
    rw [none] at own
    exact nonempty own.symm
  have place (b : Byte) : front ++ (blank ++ (token ++ b :: more)) =
      (front ++ blank ++ token) ++ b :: more := by simp
  have size : front.length + blank.length + token.length = (front ++ blank ++ token).length := by
    rw [List.length_append, List.length_append]
  have behind : (front ++ (blank ++ (token ++ c :: more)))[front.length + blank.length +
      token.length]? = some c := by
    rw [place, size, List.getElem?_append_right (Nat.le_refl _), Nat.sub_self]
    rfl
  have cut : (front ++ (blank ++ (token ++ c :: more))).set (front.length + blank.length +
      token.length) 0 = front ++ (blank ++ (token ++ 0 :: more)) := by
    rw [place, place, size, List.set_append_right _ _ (Nat.le_refl _), Nat.sub_self]
    rfl
  simp only [strtokFrom, start, skip, here, if_neg found, takeWhile_token word clean stops,
    behind, cut, Option.some.injEq]
  split <;> rfl

/-- Where a scan stands: what is still to be searched starts at the saved pointer. -/
def At (scan : Scan) (s behind : List Byte) : Prop :=
  ∃ front, scan = ⟨front ++ (s ++ 0 :: behind), some front.length⟩

/-- A call on the memory finds what a call on the string finds, and stands behind it. -/
theorem strtokNext_step {scan : Scan} {s behind : List Byte} (clean : 0 ∉ s)
    (stands : At scan s behind) :
    (strtok s = none ∧ (strtokNext scan).1 = none) ∨
      ∃ token rest index next, strtok s = some (token, rest) ∧
        strtokNext scan = (some index, next) ∧ copyAt next index = .str token ∧
        At next rest behind ∧ 0 ∉ rest := by
  obtain ⟨front, rfl⟩ := stands
  have call : strtokNext ⟨front ++ (s ++ 0 :: behind), some front.length⟩ =
      strtokFrom (front ++ (s ++ 0 :: behind)) front.length := rfl
  rw [call]
  rcases strtok_split s with ⟨last, blank⟩ | ⟨blank, token, tail, rest, rfl, delims, nonempty, word,
      found, ends⟩
  · exact Or.inl ⟨last, by rw [strtokFrom_blank blank]⟩
  have own : 0 ∉ token := by
    intro zero
    exact clean (by simp [zero])
  have copied (more : List Byte) (save : Option Nat) :
      copyAt ⟨front ++ (blank ++ (token ++ 0 :: more)), save⟩ (front.length + blank.length) =
        .str token := by
    rw [copyAt, ← List.drop_drop, List.drop_left, List.drop_left, cstr_terminated own]
  refine Or.inr ⟨token, rest, front.length + blank.length, ?_⟩
  rcases ends with ⟨rfl, rfl⟩ | ⟨d, delim, rfl⟩
  · have next := strtokFrom_token front behind delims nonempty word own (Or.inl rfl)
    rw [if_pos rfl] at next
    refine ⟨⟨front ++ (blank ++ (token ++ 0 :: behind)),
      some (front.length + blank.length + token.length)⟩, found, ?_, copied behind _,
      ⟨front ++ (blank ++ token), ?_⟩, List.not_mem_nil⟩
    · simpa using next
    · simp [Nat.add_assoc]
  · have nonzero : d ≠ 0 := by
      rintro rfl
      exact absurd delim (by decide)
    have next := strtokFrom_token front (rest ++ 0 :: behind) delims nonempty word own
      (Or.inr delim)
    rw [if_neg nonzero] at next
    refine ⟨⟨front ++ (blank ++ (token ++ 0 :: (rest ++ 0 :: behind))),
      some (front.length + blank.length + token.length + 1)⟩, found, ?_,
      copied (rest ++ 0 :: behind) _, ⟨front ++ (blank ++ (token ++ [0])), ?_⟩, ?_⟩
    · simpa using next
    · simp [Nat.add_assoc]
    · intro zero
      exact clean (by simp [zero])

theorem installTokens_eq {fuel : Nat} {scan : Scan} {s behind : List Byte} (clean : 0 ∉ s)
    (stands : At scan s behind) (argv : Block) :
    installTokens fuel scan argv = moreTokens fuel s argv := by
  induction fuel generalizing scan s argv with
  | zero => rfl
  | succ fuel ih =>
    rcases strtokNext_step clean stands with ⟨last, none⟩ | ⟨token, rest, index, next, found, call,
        copied, stands', clean'⟩
    · rw [installTokens, moreTokens, last]
      cases found : strtokNext scan with
      | mk token next =>
        rw [found] at none
        subst none
        rfl
    · rw [installTokens, moreTokens, found, call]
      simp only [copied]
      exact ih clean' stands' _

theorem moreTokens_fuel {fuel more : Nat} {s : List Byte} (enough : s.length ≤ fuel)
    (less : fuel ≤ more) (argv : Block) : moreTokens more s argv = moreTokens fuel s argv := by
  induction fuel generalizing more s argv with
  | zero =>
    obtain rfl : s = [] := List.length_eq_zero_iff.mp (Nat.le_zero.mp enough)
    cases more with
    | zero => rfl
    | succ more => rfl
  | succ fuel ih =>
    obtain ⟨more, rfl⟩ : ∃ k, more = k + 1 := ⟨more - 1, by omega⟩
    rcases strtok_cases s with ⟨last, -⟩ | ⟨token, rest, found, -, shorter⟩
    · simp only [moreTokens, last]
    · simp only [moreTokens, found]
      exact ih (by omega) (by omega) _

/-- The scan of the memory builds the vector that the string gives. -/
theorem scan_newArgv {line : List Byte} (clean : 0 ∉ line) (behind : List Byte) :
    (match strtokFrom (line ++ 0 :: behind) 0 with
      | (none, _) => none
      | (some token, scan) => some ((installTokens (line ++ 0 :: behind).length scan
          ⟨1, [copyAt scan token]⟩).push .null)) = newArgv line := by
  have stands : At ⟨line ++ 0 :: behind, some 0⟩ line behind := ⟨[], rfl⟩
  have first : strtokNext ⟨line ++ 0 :: behind, some 0⟩ = strtokFrom (line ++ 0 :: behind) 0 := rfl
  rcases strtokNext_step clean stands with ⟨last, none⟩ | ⟨token, rest, index, next, found, call,
      copied, stands', clean'⟩
  · rw [first] at none
    cases scanned : strtokFrom (line ++ 0 :: behind) 0 with
    | mk token next =>
      rw [scanned] at none
      subst none
      rw [newArgv, last]
      rfl
  · rw [first] at call
    have shorter : rest.length ≤ line.length := by
      rcases strtok_cases line with ⟨none, -⟩ | ⟨token', rest', found', -, less⟩
      · rw [found] at none
        cases none
      · rw [found] at found'
        cases found'
        exact Nat.le_of_lt less
    have whole : line.length ≤ (line ++ 0 :: behind).length := by simp
    simp only [call, copied, newArgv, found, Option.map_some]
    rw [installTokens_eq clean' stands', moreTokens_fuel shorter whole]

/-- What stands in memory behind the line plays no part. -/
theorem parseMemory_eq (v : Version) {line : List Byte} (clean : 0 ∉ line) (behind : List Byte) :
    parseMemory v (line ++ 0 :: behind) = v.parse line := by
  rw [parseMemory, cstr_terminated clean, scan_newArgv clean]
  cases v with
  | hw2 => simp [Version.parse]
  | part2 => simp [Version.parse]

/-- The words of a line: its maximal runs of bytes that are no delimiters, in order. -/
inductive MaximalRuns : List Byte → List Word → Prop
  | blank {s} (delims : ∀ c ∈ s, isDelim c) : MaximalRuns s []
  | run {blank word rest words} (delims : ∀ c ∈ blank, isDelim c) (nonempty : word ≠ [])
      (token : ∀ c ∈ word, isDelim c = false) (ends : ∀ c ∈ rest.head?, isDelim c)
      (more : MaximalRuns rest words) : MaximalRuns (blank ++ (word ++ rest)) (word :: words)

/-- A line has one list of maximal runs. -/
theorem MaximalRuns.eq_tokenise {s : List Byte} {words : List Word}
    (runs : MaximalRuns s words) : words = tokenise s := by
  induction runs with
  | blank delims => exact (tokenise_eq_nil.mpr delims).symm
  | @run blank word rest words delims nonempty token ends _ ih =>
    rw [tokenise_blank delims, ih]
    cases rest with
    | nil =>
      rw [List.append_nil, tokenise_token nonempty token]
      rfl
    | cons c rest =>
      have delim : isDelim c := ends c rfl
      rw [tokenise_append_delim delim, tokenise_token nonempty token, tokenise_delim delim]
      rfl

theorem maximalRuns_tokenise (s : List Byte) : MaximalRuns s (tokenise s) := by
  induction hn : s.length using Nat.strongRecOn generalizing s with
  | ind n ih =>
    rcases strtok_split s with ⟨-, blank⟩ | ⟨blank, token, tail, rest, rfl, delims, nonempty, word,
        -, ends⟩
    · rw [tokenise_eq_nil.mpr blank]
      exact .blank blank
    · have less : tail.length < (blank ++ (token ++ tail)).length := by
        have positive := List.length_pos_iff.mpr nonempty
        simp only [List.length_append]
        omega
      have more := ih tail.length (hn ▸ less) tail rfl
      have head : ∀ c ∈ tail.head?, isDelim c := by
        rcases ends with ⟨rfl, -⟩ | ⟨d, delim, rfl⟩
        · simp
        · rintro c ⟨rfl⟩
          exact delim
      have runs := MaximalRuns.run delims nonempty word head more
      rw [← runs.eq_tokenise]
      exact runs

/-- `parse` returns NULL for a line without tokens, and otherwise the NULL-terminated vector
of copies of the maximal runs. Both versions return the same. -/
theorem parse_maximal_runs {line : List Byte} (clean : 0 ∉ line) (behind : List Byte) :
    (∀ v, parseMemory v (line ++ 0 :: behind) = none ↔ ∀ c ∈ line, isDelim c) ∧
      (∀ v argv, parseMemory v (line ++ 0 :: behind) = some argv →
        ∃ words, MaximalRuns line words ∧ words ≠ [] ∧
          argv.cells = words.map .str ++ [.null]) ∧
      parseMemory .hw2 (line ++ 0 :: behind) = parseMemory .part2 (line ++ 0 :: behind) := by
  refine ⟨?_, ?_, ?_⟩
  · intro v
    rw [parseMemory_eq v clean, ← tokenise_eq_nil]
    rcases parse_cases v line with ⟨none, empty⟩ | ⟨argv, found, -, some⟩
    · simp [none, empty]
    · simp [found, some]
  · intro v argv found
    rw [parseMemory_eq v clean] at found
    rcases parse_cases v line with ⟨none, -⟩ | ⟨argv', found', cells, some⟩
    · rw [none] at found
      cases found
    · rw [found] at found'
      cases found'
      exact ⟨tokenise line, maximalRuns_tokenise line, some, cells⟩
  · rw [parseMemory_eq .hw2 clean, parseMemory_eq .part2 clean, Version.parse, Version.parse]
    split
    · next entered =>
      subst entered
      rfl
    · rfl

/-- The line of a tab, `ls`, two spaces and `a`, at the end of the line's memory. -/
theorem parse_ls_a :
    parseMemory .hw2 [9, 108, 115, 32, 32, 97, 10, 0] =
      parseMemory .part2 [9, 108, 115, 32, 32, 97, 10, 0] ∧
    ∀ argv, parseMemory .part2 [9, 108, 115, 32, 32, 97, 10, 0] = some argv →
      argv.cells = [.str [108, 115], .str [97], .null] := by
  have clean : (0 : Byte) ∉ [9, 108, 115, 32, 32, 97, 10] := by decide
  obtain ⟨-, vector, same⟩ := parse_maximal_runs clean []
  refine ⟨same, ?_⟩
  intro argv found
  obtain ⟨words, runs, -, cells⟩ := vector .part2 argv found
  have tokens : tokenise [9, 108, 115, 32, 32, 97, 10] = [[108, 115], [97]] := by decide
  rw [cells, runs.eq_tokenise, tokens]
  rfl

end Shell
