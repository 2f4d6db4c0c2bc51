import NetworkSystemProgramming.Dictionary.Runs

/-!
# The fields of a record

Which stores of `convert` stay inside `blank.word` and `blank.text`. Each copy loop runs to
the end of its line, and `index` goes on from line to line: nothing is truncated.
-/

namespace Dictionary

open ByteBuffers

/-- What a turn of the reading loop stores: a headword line, and the lines behind it up to
a blank line or the end of the file. -/
structure Turn where
  head : Line
  definition : List Line
  /-- A blank line has ended the definition. -/
  written : Bool
  deriving DecidableEq

/-- Cut lines into turns, with the lines of the turn that is under way. -/
def turnsFrom : Option (Line × List Line) → List Line → List Turn
  | none, [] => []
  | some (head, definition), [] => [⟨head, definition, false⟩]
  | none, line :: rest => turnsFrom (some (line, [])) rest
  | some (head, definition), line :: rest =>
    if line = [newline] then ⟨head, definition, true⟩ :: turnsFrom none rest
    else turnsFrom (some (head, definition ++ [line])) rest

def turns (lines : List Line) : List Turn := turnsFrom none lines

/-- Both fields are terminated, and the word begins the headword line. -/
structure Terminated (r : Dictrec) (turn : Turn) : Prop where
  word : 0 ∈ r.word.bytes
  headword : r.word.str <+: turn.head
  text : 0 ∈ r.text.bytes

/-- No store leaves its field, and the records written are terminated. -/
def Contained (file : List Byte) : Prop :=
  ∃ records, convert file = some records ∧
    List.Forall₂ Terminated records ((turns (splitLines file)).filter (·.written))

/-- What the two loops leave in `blank`. -/
def stored (head : Line) (definition : List Line) : Option Dictrec :=
  (copyWord 0 (head ++ [0]) (Buffer.zero WORD)).bind fun word =>
    ((Buffer.zero TEXT).storeFrom 0 (definition.flatMap (· ++ [0]))).map fun text => ⟨word, text⟩

/-! ## The lines of a turn -/

theorem turnsFrom_definition {definition : List Line} (full : [newline] ∉ definition)
    (head : Line) (done tail : List Line) :
    turnsFrom (some (head, done)) (definition ++ tail) =
      turnsFrom (some (head, done ++ definition)) tail := by
  induction definition generalizing done with
  | nil => rw [List.nil_append, List.append_nil]
  | cons line definition ih =>
    simp only [List.mem_cons, not_or] at full
    rw [List.cons_append, turnsFrom, if_neg (Ne.symm full.1), ih full.2, List.append_assoc,
      List.singleton_append]

theorem turns_unended {definition : List Line} (full : [newline] ∉ definition) (head : Line) :
    turns (head :: definition) = [⟨head, definition, false⟩] := by
  have whole := turnsFrom_definition full head [] []
  rw [List.append_nil, List.nil_append] at whole
  exact whole

theorem turns_written {definition : List Line} (full : [newline] ∉ definition) (head : Line)
    (rest : List Line) :
    turns (head :: definition ++ [newline] :: rest) = ⟨head, definition, true⟩ :: turns rest := by
  have whole := turnsFrom_definition full head [] ([newline] :: rest)
  rw [List.nil_append, turnsFrom, if_pos rfl] at whole
  exact whole

/-- Lines are taken apart at the first blank line behind the headword. -/
theorem turns_induction {P : List Line → Prop} (nil : P [])
    (last : ∀ head definition, [newline] ∉ definition → P (head :: definition))
    (written : ∀ head definition rest, [newline] ∉ definition → P rest →
      P (head :: definition ++ [newline] :: rest)) (lines : List Line) : P lines := by
  induction size : lines.length using Nat.strongRecOn generalizing lines with
  | ind n ih =>
    subst size
    cases lines with
    | nil => exact nil
    | cons head tail =>
      by_cases found : [newline] ∈ tail
      · obtain ⟨definition, rest, rfl, full⟩ := List.eq_append_cons_of_mem found
        have shorter : rest.length < (head :: (definition ++ [newline] :: rest)).length := by
          simp
          omega
        exact written head definition rest full (ih rest.length shorter rest rfl)
      · exact last head tail found

theorem FileLines.headword {head : Line} {rest : List Line} (lines : FileLines (head :: rest)) :
    head = [newline] ∨ head.head? ≠ some newline := by
  cases lines with
  | last nonempty clean => exact Or.inr fun first => clean (List.mem_of_mem_head? first)
  | @line s _ clean more =>
    by_cases blank : s ++ [newline] = [newline]
    · exact Or.inl blank
    · exact Or.inr (head_of_full clean blank)

/-! ## What a turn stores -/

section
variable {head : Line} {definition : List Line} {r : Dictrec}

theorem copyWord_isSome_iff (shape : head = [newline] ∨ head.head? ≠ some newline) :
    (copyWord 0 (head ++ [0]) (Buffer.zero WORD)).isSome ↔ head.length < WORD := by
  rcases shape with rfl | start
  · decide
  · have first : (head ++ [0]).head? ≠ some newline := by
      cases head with
      | nil => decide
      | cons c rest => simpa using start
    rw [copyWord_eq_storeFrom _ fun _ => first, Buffer.storeFrom_isSome_iff (by simp),
      List.length_append, List.length_singleton, Nat.zero_add]
    rfl

theorem copyWord_headword (clean : 0 ∉ head)
    (shape : head = [newline] ∨ head.head? ≠ some newline) (short : head.length < WORD) :
    copyWord 0 (head ++ [0]) (Buffer.zero WORD) =
      some (.ofString WORD head (Nat.le_of_lt short)) := by
  rcases shape with rfl | start
  · exact copyWord_blank
  · rw [← copyWord_line clean start short, cstr_of_clean clean]

theorem storeText_isSome_iff (data : List Byte) :
    ((Buffer.zero TEXT).storeFrom 0 data).isSome ↔ data.length ≤ TEXT := by
  by_cases empty : data = []
  · subst empty
    exact iff_of_true rfl (Nat.zero_le _)
  · rw [Buffer.storeFrom_isSome_iff empty, Nat.zero_add]

/-- When the stores of a turn stay in their fields, its lines fit. -/
theorem fits_of_stored (shape : head = [newline] ∨ head.head? ≠ some newline)
    (inside : stored head definition = some r) : Fits (head :: definition) := by
  obtain ⟨word, copied, rest⟩ := Option.bind_eq_some_iff.mp inside
  obtain ⟨text, read, -⟩ := Option.map_eq_some_iff.mp rest
  constructor
  · exact (copyWord_isSome_iff shape).mp (by rw [copied]; rfl)
  · exact (storeText_isSome_iff (definition.flatMap (· ++ [0]))).mp (by rw [read]; rfl)

/-- And lines that fit are stored with a NUL in each field. -/
theorem stored_of_fits (clean : 0 ∉ head) (shape : head = [newline] ∨ head.head? ≠ some newline)
    (fits : Fits (head :: definition)) :
    ∃ r, stored head definition = some r ∧ ∀ written, Terminated r ⟨head, definition, written⟩ := by
  obtain ⟨short, room⟩ := fits
  simp only [List.headD_cons, List.tail_cons] at short room
  obtain ⟨text, read, bytes⟩ := Buffer.storeFrom_padded [] (definition.flatMap (· ++ [0]))
    (by simpa using room) (Buffer.zero TEXT) (by simp [Buffer.zero, padded])
  rw [List.length_nil] at read
  rw [List.nil_append] at bytes
  refine ⟨⟨.ofString WORD head (Nat.le_of_lt short), text⟩, ?_, fun _ => ⟨?_, ?_, ?_⟩⟩
  · rw [stored, copyWord_headword clean shape short, Option.bind_some, read, Option.map_some]
  · change 0 ∈ padded WORD head
    rw [← padded_terminated short]
    simp [padded]
  · have word : (Buffer.ofString WORD head (Nat.le_of_lt short)).str = head :=
      cstr_padded clean short
    exact ⟨[], (List.append_nil _).trans word⟩
  · rw [bytes]
    cases definition with
    | nil => decide
    | cons line definition => simp [padded]

/-- The definition loop over lines that are not blank stores them behind each other, each
with its NUL. -/
theorem readDefinition_append (lines : ∀ line ∈ definition, 0 ∉ line ∧ line ≠ [newline])
    (tail : List Line) (feof : Bool) (index : Nat) (text : Buffer TEXT) :
    readDefinition (definition ++ tail) feof index text =
      (text.storeFrom index (definition.flatMap (· ++ [0]))).bind
        (readDefinition tail (feof || definition.any fun line => line.getLast? ≠ some newline)
          (index + (definition.flatMap (· ++ [0])).length)) := by
  induction definition generalizing feof index text with
  | nil => simp [Buffer.storeFrom]
  | cons line definition ih =>
    obtain ⟨nul, full⟩ := lines line List.mem_cons_self
    have more := ih fun l hl => lines l (List.mem_cons_of_mem line hl)
    rw [List.cons_append, readDefinition, cstr_of_clean nul, if_neg full, List.flatMap_cons,
      Buffer.storeFrom_append (line ++ [0]), Option.bind_assoc]
    congr 1
    funext text'
    have size : index + (line ++ [0]).length = index + (line.length + 1) := by simp
    have total : index + (line ++ [0] ++ definition.flatMap (· ++ [0])).length =
        index + (line.length + 1) + (definition.flatMap (· ++ [0])).length := by
      rw [List.length_append, ← Nat.add_assoc, size]
    rw [more, List.any_cons, Bool.or_assoc, size, total]

theorem lines_of_full (full : [newline] ∉ definition)
    (clean : ∀ line ∈ head :: definition, 0 ∉ line) :
    ∀ line ∈ definition, 0 ∉ line ∧ line ≠ [newline] := by
  intro line member
  exact ⟨clean line (List.mem_cons_of_mem head member), ne_of_mem_of_not_mem member full⟩

/-- A turn that ends at a blank line writes its record. -/
theorem convertLoop_written {rest : List Line} (fuel : Nat)
    (lines : FileLines (head :: definition ++ [newline] :: rest)) (full : [newline] ∉ definition)
    (clean : ∀ line ∈ head :: definition, 0 ∉ line) :
    convertLoop (fuel + 1) ⟨head :: definition ++ [newline] :: rest, false⟩ =
      (stored head definition).bind fun r => (convertLoop fuel ⟨rest, false⟩).map (r :: ·) := by
  have ended : ∀ line ∈ head :: definition, line.getLast? = some newline := by
    intro line member
    obtain ⟨s, -, rfl⟩ := lines.terminated.1 line member
    exact List.getLast?_concat
  have notEnded : (definition.any fun line => decide (line.getLast? ≠ some newline)) = false := by
    rw [List.any_eq_false]
    intro line member
    simp [ended line (List.mem_cons_of_mem head member)]
  have blank : ∀ index text, readDefinition ([newline] :: rest) false index text =
      some (text, ⟨rest, false⟩) := by
    intro index text
    simp [readDefinition, cstr, newline]
  rw [List.cons_append, convertLoop, if_neg (by simp)]
  simp only [getline, cstr_of_clean (clean head List.mem_cons_self), ended head List.mem_cons_self,
    readDefinition_append (lines_of_full full clean), notEnded, Bool.or_false, ne_eq, not_true,
    decide_false, blank, stored, Option.bind_assoc]
  congr 1
  funext word
  cases (Buffer.zero TEXT).storeFrom 0 (definition.flatMap (· ++ [0])) <;> rfl

/-- A turn that meets the end of the file is the last one and writes nothing. -/
theorem convertLoop_last (fuel : Nat) (full : [newline] ∉ definition)
    (clean : ∀ line ∈ head :: definition, 0 ∉ line) :
    convertLoop (fuel + 2) ⟨head :: definition, false⟩ =
      (stored head definition).map fun _ => [] := by
  have whole := readDefinition_append (lines_of_full full clean) []
  rw [List.append_nil] at whole
  rw [convertLoop, if_neg (by simp)]
  simp only [getline, cstr_of_clean (clean head List.mem_cons_self), whole, readDefinition, stored]
  cases copyWord 0 (head ++ [0]) (Buffer.zero WORD) with
  | none => rfl
  | some word => cases (Buffer.zero TEXT).storeFrom 0 (definition.flatMap (· ++ [0])) <;> rfl

end

/-- The loop keeps inside the fields exactly when every turn's lines fit. -/
theorem convertLoop_contained_iff {lines : List Line} (shape : FileLines lines)
    (clean : ∀ line ∈ lines, 0 ∉ line) {fuel : Nat} (enough : lines.length + 2 ≤ fuel) :
    (∃ records, convertLoop fuel ⟨lines, false⟩ = some records ∧
      List.Forall₂ Terminated records ((turns lines).filter (·.written))) ↔
    ∀ turn ∈ turns lines, Fits (turn.head :: turn.definition) := by
  induction lines using turns_induction generalizing fuel with
  | nil =>
    obtain ⟨k, rfl⟩ : ∃ k, fuel = k + 2 := ⟨fuel - 2, by simp at enough; omega⟩
    refine iff_of_true ⟨[], ?_, .nil⟩ fun turn member => absurd member List.not_mem_nil
    simp [convertLoop, getline, readDefinition]
  | last head definition full =>
    obtain ⟨k, rfl⟩ : ∃ k, fuel = k + 2 := ⟨fuel - 2, by omega⟩
    rw [turns_unended full, List.forall_mem_singleton, convertLoop_last k full clean]
    constructor
    · rintro ⟨records, inside, -⟩
      obtain ⟨r, inside, -⟩ := Option.map_eq_some_iff.mp inside
      exact fits_of_stored shape.headword inside
    · intro fits
      obtain ⟨r, inside, -⟩ := stored_of_fits (clean head List.mem_cons_self) shape.headword fits
      exact ⟨[], by rw [inside]; rfl, .nil⟩
  | written head definition rest full ih =>
    obtain ⟨k, rfl⟩ : ∃ k, fuel = k + 1 := ⟨fuel - 1, by omega⟩
    have cleanTurn : ∀ line ∈ head :: definition, 0 ∉ line :=
      fun line member => clean line (List.mem_append_left _ member)
    have room : rest.length + 2 ≤ k := by
      simp at enough
      omega
    have tail := ih shape.terminated.2.tail
      (fun line member => clean line (List.mem_append_right _ (List.mem_cons_of_mem _ member))) room
    rw [turns_written full, List.forall_mem_cons, ← tail,
      convertLoop_written k shape full cleanTurn]
    constructor
    · rintro ⟨records, inside, pairs⟩
      obtain ⟨r, turn, inside⟩ := Option.bind_eq_some_iff.mp inside
      obtain ⟨more, others, rfl⟩ := Option.map_eq_some_iff.mp inside
      exact ⟨fits_of_stored shape.headword turn, more, others, (List.forall₂_cons.mp pairs).2⟩
    · rintro ⟨fits, records, others, pairs⟩
      obtain ⟨r, inside, terminated⟩ :=
        stored_of_fits (cleanTurn head List.mem_cons_self) shape.headword fits
      exact ⟨r :: records, by rw [inside, Option.bind_some, others]; rfl,
        .cons (terminated true) pairs⟩

/-- The stores of `convert` stay in the fields, and its records are terminated, if and only
if in every turn the headword line is shorter than WORD and the lines behind it, each with
its NUL, fit into TEXT. -/
theorem contained_iff_fits {file : List Byte} (clean : 0 ∉ file) :
    Contained file ↔
      ∀ turn ∈ turns (splitLines file), Fits (turn.head :: turn.definition) := by
  apply convertLoop_contained_iff (splitLines_fileLines file) _ (Nat.le_refl _)
  intro line member nul
  apply clean
  rw [← flatten_splitLines file]
  exact List.mem_flatten_of_mem member nul

/-- `cat`, with the definition line `a` and the blank line behind it. -/
theorem one_entry_contained : Contained [99, 97, 116, 10, 97, 10, 10] :=
  (contained_iff_fits (by decide)).mpr (by decide)

/-- A headword of 31 letters, with the definition line `b`: its newline fills `blank.word`,
and the NUL is stored behind it. -/
theorem long_headword_overflows :
    ¬ ∀ file : List Byte, 0 ∉ file → Contained file := by
  intro claim
  obtain ⟨records, inside, -⟩ :=
    claim (List.replicate 31 97 ++ [10, 98, 10, 10]) (by decide)
  have outside : convert (List.replicate 31 97 ++ [10, 98, 10, 10]) = none := by decide +kernel
  rw [outside] at inside
  cases inside

end Dictionary
