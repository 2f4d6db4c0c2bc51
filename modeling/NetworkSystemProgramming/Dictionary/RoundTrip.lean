import Mathlib.Algebra.Ring.Nat
import NetworkSystemProgramming.Dictionary.Convert
import NetworkSystemProgramming.Dictionary.LinearLookup

/-!
# Encoding and looking up a dictionary

`convert` stores every definition line with a NUL behind it, `lookup` hands the
whole text field to callers that print it as one C string. The record of every
entry is computed exactly; what is read back is its first line.
-/

namespace Dictionary

open ByteBuffers

/-- An entry of a dictionary source that fits the record fields. -/
structure Entry where
  headword : List Byte
  definition : List (List Byte)
  headword_nonempty : headword ≠ []
  headword_short : headword.length ≤ 30
  headword_clean : newline ∉ headword ∧ 0 ∉ headword
  lines_clean : ∀ line ∈ definition, line ≠ [] ∧ newline ∉ line ∧ 0 ∉ line
  fits : (definition.map (fun line => line.length + 2)).sum ≤ TEXT

namespace Entry

/-- The lines of the entry in the source, the blank one included. -/
def lines (e : Entry) : List (List Byte) :=
  (e.headword ++ [newline]) :: (e.definition.map (· ++ [newline]) ++ [[newline]])

def render (e : Entry) : List Byte := e.lines.flatten

/-- All definition lines in order, as they stand in the source. -/
def wholeText (e : Entry) : List Byte := e.definition.flatMap (· ++ [newline])

/-- What the definition loop stores. -/
def storedText (e : Entry) : List Byte := e.definition.flatMap (· ++ [newline, 0])

/-- What the definition reads as when printed. -/
def firstLine (e : Entry) : List Byte :=
  match e.definition with
  | [] => []
  | line :: _ => line ++ [newline]

theorem length_storedText (e : Entry) : e.storedText.length ≤ TEXT := by
  have same : e.storedText.length = (e.definition.map (fun line => line.length + 2)).sum := by
    simp [storedText, List.length_flatMap]
  rw [same]
  exact e.fits

theorem headword_room (e : Entry) : (e.headword ++ [newline]).length ≤ WORD := by
  have short := e.headword_short
  simp only [WORD, List.length_append, List.length_singleton]
  omega

def record (e : Entry) : Dictrec where
  word := .ofString WORD (e.headword ++ [newline]) e.headword_room
  text := .ofString TEXT e.storedText e.length_storedText

theorem headword_line_clean (e : Entry) : 0 ∉ e.headword ++ [newline] := by
  simp [e.headword_clean.2, newline]

theorem record_word (e : Entry) : e.record.word.str = e.headword ++ [newline] := by
  apply cstr_padded e.headword_line_clean
  have := e.headword_short
  simp only [WORD, List.length_append, List.length_singleton]
  omega

theorem record_text (e : Entry) : e.record.text.str = e.firstLine := by
  change cstr (padded TEXT e.storedText) = e.firstLine
  cases hd : e.definition with
  | nil =>
    have none : e.storedText = [] := by simp [storedText, hd]
    rw [none, cstr_padded (by simp) (by simp [TEXT]), firstLine, hd]
  | cons line rest =>
    have clean : 0 ∉ line ++ [newline] := by
      have h := (e.lines_clean line (by simp [hd])).2.2
      simp [h, newline]
    have first := cstr_terminated clean
      (rest.flatMap (· ++ [newline, 0]) ++ List.replicate (TEXT - e.storedText.length) 0)
    simpa [storedText, firstLine, hd, padded] using first

/-- The printed text is the whole definition exactly for at most one line. -/
theorem firstLine_eq_wholeText_iff (e : Entry) :
    e.firstLine = e.wholeText ↔ e.definition.length ≤ 1 := by
  match hd : e.definition with
  | [] => simp [firstLine, wholeText, hd]
  | [line] => simp [firstLine, wholeText, hd]
  | line :: second :: rest =>
    simp [firstLine, wholeText, hd]

end Entry

/-- A dictionary source: entries with distinct headwords. -/
structure Source where
  entries : List Entry
  distinct : (entries.map Entry.headword).Nodup

def Source.file (d : Source) : List Byte := d.entries.flatMap Entry.render

theorem splitLines_lines {lines : List (List Byte)}
    (clean : ∀ line ∈ lines, newline ∉ line) (rest : List Byte) :
    splitLines ((lines.map (· ++ [newline])).flatten ++ rest) =
      lines.map (· ++ [newline]) ++ splitLines rest := by
  induction lines with
  | nil => rfl
  | cons line lines ih =>
    have hl := splitLines_line ((lines.map (· ++ [newline])).flatten ++ rest)
      (clean line List.mem_cons_self)
    have tail := ih (fun l hl => clean l (List.mem_cons_of_mem line hl))
    simpa [tail] using hl

theorem splitLines_render (e : Entry) (rest : List Byte) :
    splitLines (e.render ++ rest) = e.lines ++ splitLines rest := by
  have shape : e.lines = (e.headword :: (e.definition ++ [[]])).map (· ++ [newline]) := by
    simp [Entry.lines]
  rw [Entry.render, shape]
  apply splitLines_lines
  intro line hline
  rcases List.mem_cons.mp hline with rfl | hline
  · exact e.headword_clean.1
  rcases List.mem_append.mp hline with hline | hline
  · exact (e.lines_clean line hline).2.1
  · simp_all

theorem splitLines_entries (entries : List Entry) :
    splitLines (entries.flatMap Entry.render) = entries.flatMap Entry.lines := by
  induction entries with
  | nil => rfl
  | cons e entries ih => rw [List.flatMap_cons, splitLines_render, ih, List.flatMap_cons]

/-- A headword line is stored like any other string. -/
theorem copyWord_eq_storeFrom {i : Nat} {data : List Byte} (word : Buffer WORD)
    (h : i = 0 → data.head? ≠ some newline) : copyWord i data word = word.storeFrom i data := by
  induction data generalizing i word with
  | nil => rfl
  | cons c rest ih =>
    have continues : ¬ (i = 0 ∧ c = newline) := by
      rintro ⟨hi, rfl⟩
      exact h hi rfl
    simp only [copyWord, Buffer.storeFrom, if_neg continues]
    congr 1
    funext w
    exact ih w (fun hi => absurd hi (Nat.succ_ne_zero i))

/-- A headword line is stored with NUL bytes behind it. -/
theorem copyWord_line {line : List Byte} (clean : 0 ∉ line) (start : line.head? ≠ some newline)
    (short : line.length < WORD) :
    copyWord 0 (cstr line ++ [0]) (Buffer.zero WORD) =
      some (.ofString WORD line (Nat.le_of_lt short)) := by
  have first : (line ++ [0]).head? ≠ some newline := by
    cases line with
    | nil => decide
    | cons c rest => simpa using start
  rw [cstr_of_clean clean, copyWord_eq_storeFrom _ (fun _ => first)]
  obtain ⟨w, hw, hb⟩ := Buffer.storeFrom_padded (n := WORD) [] (line ++ [0]) (by
    simp only [List.length_nil, List.length_append, List.length_singleton]
    omega) (Buffer.zero WORD) (by simp [Buffer.zero, padded])
  rw [List.length_nil] at hw
  rw [hw]
  congr 1
  apply Buffer.ext
  rw [hb, List.nil_append, padded_terminated short]
  rfl

theorem Entry.copyWord_headword (e : Entry) :
    copyWord 0 (cstr (e.headword ++ [newline]) ++ [0]) (Buffer.zero WORD) =
      some e.record.word := by
  apply copyWord_line e.headword_line_clean
  · cases hh : e.headword with
    | nil => exact absurd hh e.headword_nonempty
    | cons c rest =>
      have hc : c ≠ newline := by
        rintro rfl
        exact e.headword_clean.1 (by simp [hh])
      simpa using hc
  · have := e.headword_short
    simp only [WORD, List.length_append, List.length_singleton]
    omega

/-- The definition loop appends every line with its NUL, and stops behind the blank line. -/
theorem readDefinition_run {definition : List (List Byte)}
    (lines : ∀ line ∈ definition, 0 ∉ line ∧ line ≠ [newline] ∧ line.getLast? = some newline)
    (more : List (List Byte)) (done : List Byte) (text : Buffer TEXT)
    (held : text.bytes = padded TEXT done)
    (fits : done.length + (definition.flatMap (· ++ [0])).length ≤ TEXT) :
    ∃ text', readDefinition (definition ++ [newline] :: more) false done.length text =
        some (text', ⟨more, false⟩) ∧
      text'.bytes = padded TEXT (done ++ definition.flatMap (· ++ [0])) := by
  induction definition generalizing done text with
  | nil => exact ⟨text, by simp [readDefinition, cstr, newline], by simpa using held⟩
  | cons line rest ih =>
    obtain ⟨nul, full, ended⟩ := lines line List.mem_cons_self
    simp only [List.flatMap_cons, List.length_append, List.length_singleton] at fits
    obtain ⟨text1, h1, b1⟩ := Buffer.storeFrom_padded (n := TEXT) done (line ++ [0]) (by
      simp only [List.length_append, List.length_singleton]
      omega) text held
    have hlen : (done ++ (line ++ [0])).length = done.length + (line.length + 1) := by simp
    obtain ⟨text2, h2, b2⟩ := ih (fun l hl => lines l (List.mem_cons_of_mem line hl)) _ text1 b1
      (by rw [hlen]; omega)
    refine ⟨text2, ?_, by simpa using b2⟩
    rw [hlen] at h2
    simp only [List.cons_append, readDefinition, cstr_of_clean nul, if_neg full, h1,
      Option.bind_some, ended, ne_eq, not_true, decide_false, Bool.or_false]
    exact h2

/-- An entry's definition lines, given without their newlines. -/
theorem readDefinition_lines {definition : List (List Byte)}
    (clean : ∀ line ∈ definition, line ≠ [] ∧ newline ∉ line ∧ 0 ∉ line)
    (more : List (List Byte)) (done : List Byte) (text : Buffer TEXT)
    (held : text.bytes = padded TEXT done)
    (fits : done.length + (definition.map (fun line => line.length + 2)).sum ≤ TEXT) :
    ∃ text', readDefinition (definition.map (· ++ [newline]) ++ [newline] :: more) false
        done.length text = some (text', ⟨more, false⟩) ∧
      text'.bytes = padded TEXT (done ++ definition.flatMap (· ++ [newline, 0])) := by
  have stored : (definition.map (· ++ [newline])).flatMap (· ++ [0]) =
      definition.flatMap (· ++ [newline, 0]) := by
    simp [List.flatMap_map]
  rw [← stored]
  apply readDefinition_run
  · intro line member
    obtain ⟨s, hs, rfl⟩ := List.mem_map.mp member
    obtain ⟨nonempty, -, nul⟩ := clean s hs
    refine ⟨by simp [nul, newline], ?_, List.getLast?_concat⟩
    simpa using nonempty
  · exact held
  · rw [stored, List.length_flatMap]
    simpa using fits

theorem convertLoop_entries (entries : List Entry) (fuel : Nat)
    (enough : entries.length + 2 ≤ fuel) :
    convertLoop fuel ⟨entries.flatMap Entry.lines, false⟩ = some (entries.map Entry.record) := by
  induction entries generalizing fuel with
  | nil =>
    obtain ⟨k, rfl⟩ : ∃ k, fuel = k + 2 := ⟨fuel - 2, by simp at enough; omega⟩
    simp [convertLoop, getline, readDefinition]
  | cons e entries ih =>
    obtain ⟨k, rfl⟩ : ∃ k, fuel = k + 1 := ⟨fuel - 1, by simp at enough; omega⟩
    obtain ⟨text, ht, hb⟩ := readDefinition_lines e.lines_clean (entries.flatMap Entry.lines)
      [] (Buffer.zero TEXT) (by simp [Buffer.zero, padded]) (by simpa using e.fits)
    have same : text = e.record.text := Buffer.ext (by
      rw [hb]
      rfl)
    have rest := ih k (by simp at enough; omega)
    simp only [List.length_nil] at ht
    simp [convertLoop, getline, Entry.lines, e.copyWord_headword, ht, same, rest, Entry.record]

theorem convert_entries (entries : List Entry) :
    convert (entries.flatMap Entry.render) = some (entries.map Entry.record) := by
  have count : entries.length ≤ (entries.flatMap Entry.lines).length := by
    induction entries with
    | nil => simp
    | cons e entries ih =>
      simp only [List.length_cons, List.flatMap_cons, List.length_append, Entry.lines]
      omega
  rw [convert, fopen, splitLines_entries]
  exact convertLoop_entries entries _ (by omega)

/-- `convert` writes exactly one record an entry, in order. -/
theorem convert_source (d : Source) : convert d.file = some (d.entries.map Entry.record) :=
  convert_entries d.entries

theorem find_record {entries : List Entry} (distinct : (entries.map Entry.headword).Nodup)
    {e : Entry} (he : e ∈ entries) :
    (entries.map Entry.record).find? (fun r => r.word.str = e.headword ++ [newline]) =
      some e.record := by
  induction entries with
  | nil => simp at he
  | cons f entries ih =>
    obtain ⟨fresh, rest⟩ := List.nodup_cons.mp distinct
    by_cases same : f.headword = e.headword
    · have hf : e = f := by
        rcases List.mem_cons.mp he with h | h
        · exact h
        · exact absurd (List.mem_map_of_mem h) (same ▸ fresh)
      subst hf
      simp [e.record_word]
    · have hne : e ∈ entries := by
        rcases List.mem_cons.mp he with h | h
        · exact absurd (congrArg Entry.headword h.symm) same
        · exact h
      simpa [f.record_word, same] using ih rest hne

/-- Looking up any headword finds its entry, of which the first line is readable. -/
theorem lookup_headword (d : Source) {e : Entry} (he : e ∈ d.entries) {st : Lookup1}
    (opened : st.firstTime = true ∨ st.inFile = some (outFile (d.entries.map Entry.record)))
    {sought : Dictrec} (query : sought.word.str = e.headword) :
    ∃ found st', lookup1 st (some (outFile (d.entries.map Entry.record))) sought =
      some (FOUND, found, st') ∧ found.text.str = e.firstLine := by
  have short := e.headword_short
  obtain ⟨w, st', _, _, _, h⟩ := lookup1_records opened sought (by
    rw [query, WORD]
    omega)
  rw [query, find_record d.distinct he] at h
  have inside : (e.record.word.str.length - 1) < WORD := by
    rw [e.record_word, WORD, List.length_append, List.length_singleton]
    omega
  simp only [Buffer.store, if_pos inside, Option.map_some] at h
  exact ⟨_, st', h, e.record_text⟩

/-- The round trip law for one entry: whatever calls were made before, looking up the
headword in the file that `convert` writes gives the whole definition. -/
def RoundTrips (d : Source) (e : Entry) : Prop :=
  ∃ records, convert d.file = some records ∧
    ∀ st : Lookup1, st.firstTime = true ∨ st.inFile = some (outFile records) →
      ∀ sought : Dictrec, sought.word.str = e.headword →
        ∃ found st', lookup1 st (some (outFile records)) sought = some (FOUND, found, st') ∧
          found.text.str = e.wholeText

theorem reads_firstLine (d : Source) {e : Entry} (he : e ∈ d.entries) :
    RoundTrips d e ↔ e.firstLine = e.wholeText := by
  constructor
  · rintro ⟨records, hrec, law⟩
    rw [convert_source] at hrec
    cases hrec
    have short := e.headword_short
    let query : Dictrec := ⟨.ofString WORD e.headword (by rw [WORD]; omega), .zero TEXT⟩
    have hq : query.word.str = e.headword :=
      cstr_padded e.headword_clean.2 (by rw [WORD]; omega)
    obtain ⟨found, st', h, whole⟩ := law Lookup1.initial (Or.inl rfl) query hq
    have fresh : Lookup1.initial.firstTime = true := rfl
    obtain ⟨found', st'', h', first⟩ := lookup_headword d he (Or.inl fresh) hq
    have same := h.symm.trans h'
    simp only [Option.some.injEq, Prod.mk.injEq] at same
    rw [← first, ← same.2.1, whole]
  · intro same
    refine ⟨_, convert_source d, fun st opened sought query => ?_⟩
    obtain ⟨found, st', h, first⟩ := lookup_headword d he opened query
    exact ⟨found, st', h, first.trans same⟩

/-- An entry survives encoding and lookup exactly if its definition has at most one
line: behind the newline of the first line `convert` stores a NUL. -/
theorem roundTrips_iff_single_line (d : Source) (e : Entry) (he : e ∈ d.entries) :
    RoundTrips d e ↔ e.definition.length ≤ 1 :=
  (reads_firstLine d he).trans e.firstLine_eq_wholeText_iff

/-- `cat`, with the definition line `a`. -/
def oneLine : Entry where
  headword := [99, 97, 116]
  definition := [[97]]
  headword_nonempty := by decide
  headword_short := by decide
  headword_clean := by decide
  lines_clean := by decide
  fits := by decide

theorem single_line_definition_survives :
    ∃ (d : Source) (e : Entry), d.file = [99, 97, 116, 10, 97, 10, 10] ∧ e ∈ d.entries ∧
      RoundTrips d e := by
  let d : Source := ⟨[oneLine], by simp⟩
  have he : oneLine ∈ d.entries := List.mem_singleton.mpr rfl
  exact ⟨d, oneLine, by decide, he, (roundTrips_iff_single_line d oneLine he).mpr (by decide)⟩

/-- `cat`, with the definition lines `a` and `b`. -/
private def twoLines : Entry where
  headword := [99, 97, 116]
  definition := [[97], [98]]
  headword_nonempty := by decide
  headword_short := by decide
  headword_clean := by decide
  lines_clean := by decide
  fits := by decide

theorem two_line_definition_is_cut :
    ∃ (d : Source) (e : Entry), d.file = [99, 97, 116, 10, 97, 10, 98, 10, 10] ∧
      e ∈ d.entries ∧ e.headword = [99, 97, 116] ∧ e.wholeText = [97, 10, 98, 10] ∧
      ¬ RoundTrips d e := by
  let d : Source := ⟨[twoLines], by simp⟩
  have he : twoLines ∈ d.entries := List.mem_singleton.mpr rfl
  refine ⟨d, twoLines, by decide, he, rfl, by decide, ?_⟩
  rw [reads_firstLine d he]
  decide

end Dictionary
