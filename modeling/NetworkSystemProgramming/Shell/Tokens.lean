import NetworkSystemProgramming.Shell.Vectors

/-!
# The tokens of a line

`parse` of both shells. Each call of `strtok` searches on behind the delimiter that ended
the token before, and each token is copied to memory of its own.
-/

namespace Shell

open ByteBuffers

/-- A byte of `delim`: space, tab or newline. -/
def isDelim (c : Byte) : Bool := c = 32 || c = 9 || c = newline

/-- `strtok`: the next token of a string, and what the next call searches. -/
def strtok (s : List Byte) : Option (Word × List Byte) :=
  match s.dropWhile isDelim with
  | [] => none
  | start => some (start.takeWhile (!isDelim ·), (start.dropWhile (!isDelim ·)).drop 1)

/-- The loop over the tokens behind the first one. -/
def moreTokens : Nat → List Byte → Block → Block
  | 0, _, argv => argv
  | fuel + 1, s, argv =>
    match strtok s with
    | none => argv
    | some (token, s) => moreTokens fuel s (argv.push (.str token))

/-- What both versions of `parse` do with the line. -/
def newArgv (line : List Byte) : Option Block :=
  (strtok line).map fun (token, s) =>
    (moreTokens line.length s ⟨1, [.str token]⟩).push .null

/-- The shell of SP_HW2 and the one of SP_HW4/part2. -/
inductive Version where
  | hw2
  | part2
  deriving DecidableEq

def Version.parse (v : Version) (line : List Byte) : Option Block :=
  match v with
  | .hw2 => newArgv line
  | .part2 => if line = [newline] then none else newArgv line

/-- The maximal runs of bytes that are no delimiters. -/
def tokenise (s : List Byte) : List Word := (s.splitOnP isDelim).filter (· ≠ [])

section
variable {s : List Byte}

theorem tokenise_delim {c : Byte} (delim : isDelim c) (rest : List Byte) :
    tokenise (c :: rest) = tokenise rest := by
  simp [tokenise, List.splitOnP_cons_eq_if_modifyHead, delim]

theorem tokenise_blank (blank : ∀ c ∈ s, isDelim c) (rest : List Byte) :
    tokenise (s ++ rest) = tokenise rest := by
  induction s with
  | nil => rfl
  | cons c s ih =>
    rw [List.cons_append, tokenise_delim (blank c List.mem_cons_self)]
    exact ih fun d hd => blank d (List.mem_cons_of_mem c hd)

theorem tokenise_append_delim {c : Byte} (delim : isDelim c) (rest : List Byte) :
    tokenise (s ++ c :: rest) = tokenise s ++ tokenise rest := by
  rw [tokenise, List.splitOnP_append_cons s rest delim, List.filter_append]
  rfl

theorem tokenise_token (nonempty : s ≠ []) (word : ∀ c ∈ s, isDelim c = false) :
    tokenise s = [s] := by
  rw [tokenise, List.splitOnP_eq_singleton word]
  simp [nonempty]

theorem flatten_splitOnP (p : Byte → Bool) (s : List Byte) :
    (s.splitOnP p).flatten = s.filter (!p ·) := by
  induction s with
  | nil => rfl
  | cons c s ih =>
    rw [List.splitOnP_cons_eq_if_modifyHead]
    cases separates : p c with
    | true => simpa [separates] using ih
    | false =>
      obtain ⟨piece, pieces, cut⟩ := List.exists_cons_of_ne_nil (List.splitOnP_ne_nil p s)
      rw [cut] at ih
      simpa [separates, cut] using ih

/-- The bytes of the tokens, in order. -/
theorem flatten_tokenise (s : List Byte) : (tokenise s).flatten = s.filter (!isDelim ·) := by
  rw [tokenise, List.flatten_filter_ne_nil, flatten_splitOnP]

theorem tokenise_eq_nil : tokenise s = [] ↔ ∀ c ∈ s, isDelim c := by
  constructor
  · intro none c hc
    have bytes := flatten_tokenise s
    rw [none, List.flatten_nil, eq_comm, List.filter_eq_nil_iff] at bytes
    simpa using bytes c hc
  · intro blank
    have only := tokenise_blank blank []
    rwa [List.append_nil] at only

theorem tokenise_append_blank {rest : List Byte} (blank : ∀ c ∈ rest, isDelim c) :
    tokenise (s ++ rest) = tokenise s := by
  cases rest with
  | nil => rw [List.append_nil]
  | cons c rest =>
    rw [tokenise_append_delim (blank c List.mem_cons_self),
      tokenise_eq_nil.mpr fun d hd => blank d (List.mem_cons_of_mem c hd), List.append_nil]

/-- The tokens of a string without NUL are strings without NUL. -/
theorem tokenise_clean (clean : 0 ∉ s) : ∀ token ∈ tokenise s, 0 ∉ token := by
  intro token member zero
  have bytes : (0 : Byte) ∈ (tokenise s).flatten := List.mem_flatten_of_mem member zero
  rw [flatten_tokenise] at bytes
  exact clean (List.mem_filter.mp bytes).1

/-- What a call of `strtok` passes over: delimiters, a token and what ends it. -/
theorem strtok_split (s : List Byte) :
    (strtok s = none ∧ ∀ c ∈ s, isDelim c) ∨
      ∃ blank token tail rest, s = blank ++ (token ++ tail) ∧ (∀ c ∈ blank, isDelim c) ∧
        token ≠ [] ∧ (∀ c ∈ token, isDelim c = false) ∧ strtok s = some (token, rest) ∧
        (tail = [] ∧ rest = [] ∨ ∃ d, isDelim d ∧ tail = d :: rest) := by
  have skipped : s.takeWhile isDelim ++ s.dropWhile isDelim = s := List.takeWhile_append_dropWhile
  have blank : ∀ c ∈ s.takeWhile isDelim, isDelim c := fun c hc => List.mem_takeWhile_imp hc
  cases start : s.dropWhile isDelim with
  | nil =>
    rw [start, List.append_nil] at skipped
    exact Or.inl ⟨by rw [strtok, start], skipped ▸ blank⟩
  | cons c more =>
    have begins : isDelim c = false := by
      have head := List.head_dropWhile_not (p := isDelim) (l := s) (by rw [start]; simp)
      simpa [start] using head
    have word : ∀ d ∈ (c :: more).takeWhile (!isDelim ·), isDelim d = false := by
      intro d hd
      simpa using List.mem_takeWhile_imp hd
    have parts : (c :: more).takeWhile (!isDelim ·) ++ (c :: more).dropWhile (!isDelim ·) =
        c :: more := List.takeWhile_append_dropWhile
    refine Or.inr ⟨s.takeWhile isDelim, (c :: more).takeWhile (!isDelim ·),
      (c :: more).dropWhile (!isDelim ·), ((c :: more).dropWhile (!isDelim ·)).drop 1, ?_, blank,
      by simp [begins], word, by rw [strtok, start], ?_⟩
    · rw [parts, ← start, skipped]
    · cases behind : (c :: more).dropWhile (!isDelim ·) with
      | nil => exact Or.inl ⟨rfl, rfl⟩
      | cons d rest =>
        have head := List.head_dropWhile_not (p := (!isDelim ·)) (l := c :: more)
          (by rw [behind]; simp)
        exact Or.inr ⟨d, by simpa [behind] using head, rfl⟩

/-- Each call of `strtok` returns the first token of what is left. -/
theorem strtok_cases (s : List Byte) :
    (strtok s = none ∧ tokenise s = []) ∨
      ∃ token rest, strtok s = some (token, rest) ∧ tokenise s = token :: tokenise rest ∧
        rest.length < s.length := by
  rcases strtok_split s with ⟨last, blank⟩ | ⟨blank, token, tail, rest, rfl, delims, nonempty, word,
      found, ends⟩
  · exact Or.inl ⟨last, tokenise_eq_nil.mpr blank⟩
  · refine Or.inr ⟨token, rest, found, ?_, ?_⟩
    · rw [tokenise_blank delims]
      rcases ends with ⟨rfl, rfl⟩ | ⟨d, delim, rfl⟩
      · rw [List.append_nil, tokenise_token nonempty word]
        rfl
      · rw [tokenise_append_delim delim, tokenise_token nonempty word]
        rfl
    · have positive := List.length_pos_iff.mpr nonempty
      rcases ends with ⟨rfl, rfl⟩ | ⟨d, -, rfl⟩ <;>
        simp only [List.length_append, List.length_nil, List.length_cons] <;> omega

theorem moreTokens_cells {fuel : Nat} (enough : s.length ≤ fuel) (argv : Block) :
    (moreTokens fuel s argv).cells = argv.cells ++ (tokenise s).map .str := by
  induction fuel generalizing s argv with
  | zero =>
    obtain rfl : s = [] := List.length_eq_zero_iff.mp (Nat.le_zero.mp enough)
    simp [moreTokens, tokenise]
  | succ fuel ih =>
    rcases strtok_cases s with ⟨last, none⟩ | ⟨token, rest, found, first, shorter⟩
    · simp [moreTokens, last, none]
    · have later := ih (s := rest) (by omega) (argv.push (.str token))
      rw [moreTokens, found, later, first]
      simp [Block.push]

theorem newArgv_cases (s : List Byte) :
    (newArgv s = none ∧ tokenise s = []) ∨
      ∃ argv, newArgv s = some argv ∧ argv.cells = (tokenise s).map .str ++ [.null] ∧
        tokenise s ≠ [] := by
  rcases strtok_cases s with ⟨last, none⟩ | ⟨token, rest, found, first, shorter⟩
  · exact Or.inl ⟨by rw [newArgv, last]; rfl, none⟩
  · refine Or.inr ⟨_, by rw [newArgv, found]; rfl, ?_, by simp [first]⟩
    have cells := moreTokens_cells (Nat.le_of_lt shorter) ⟨1, [.str token]⟩
    simp only [Block.push, cells, first]
    rfl

/-- Both versions return NULL when there is no token, and the vector of the tokens when
there is one. -/
theorem parse_cases (v : Version) (s : List Byte) :
    (v.parse s = none ∧ tokenise s = []) ∨
      ∃ argv, v.parse s = some argv ∧ argv.cells = (tokenise s).map .str ++ [.null] ∧
        tokenise s ≠ [] := by
  cases v with
  | hw2 => exact newArgv_cases s
  | part2 =>
    by_cases entered : s = [newline]
    · exact Or.inl ⟨by rw [Version.parse, if_pos entered], by rw [entered]; rfl⟩
    · rw [Version.parse, if_neg entered]
      exact newArgv_cases s

end
end Shell
