import NetworkSystemProgramming.Dictionary.Dictrec

/-!
# Linear lookup in a record file

`lookup1.c`. The static variables of `lookup` are passed from call to call. The
resource is the content of the file it names, `none` when it cannot be opened.
-/

namespace Dictionary

open ByteBuffers

/-- `fread` of single bytes: the count, the buffer and the rest of the file. -/
def fread {n : Nat} (b : Buffer n) (rest : List Byte) : Nat × Buffer n × List Byte :=
  ((rest.take n).length, b.receive rest, rest.drop n)

/-- The static variables `first_time` and `in`. -/
structure Lookup1 where
  firstTime : Bool
  inFile : Option (List Byte)

def Lookup1.initial : Lookup1 := ⟨true, none⟩

/-- The search loop over the rest of the file; `word` and `text` are the locals. -/
def search : Nat → List Byte → Buffer WORD → Buffer TEXT → Dictrec → Option (Int × Dictrec)
  | 0, _, _, _, _ => none
  | fuel + 1, rest, word, text, sought =>
    let (count, word, rest) := fread word rest
    if count = 0 then
      (sought.word.store (sought.word.str.length - 1) 0).map fun w =>
        (NOTFOUND, { sought with word := w })
    else if strcmp word.bytes sought.word.bytes ≠ .eq then
      let (_, text, rest) := fread text rest
      search fuel rest word text sought
    else
      (sought.word.store (word.str.length - 1) 0).map fun w =>
        (FOUND, { word := w, text := (fread sought.text rest).2.1 })

/-- `lookup` of `lookup1.c`: the result, the record and the static variables.
A resource that cannot be opened makes the first call return 0. -/
def lookup1 (st : Lookup1) (resource : Option (List Byte)) (sought : Dictrec) :
    Option (Int × Dictrec × Lookup1) :=
  let opened : Lookup1 := if st.firstTime then ⟨false, resource⟩ else st
  match opened.inFile with
  | none => if st.firstTime then some (0, sought, opened) else none
  | some file =>
    (sought.word.put (sought.word.str ++ [newline, 0])).bind fun w =>
      (search (file.length + 1) file (Buffer.zero 32) (Buffer.zero 480)
        { sought with word := w }).map fun (status, found) => (status, found, opened)

theorem fread_block {n : Nat} (b c : Buffer n) (rest : List Byte) :
    fread b (c.bytes ++ rest) = (n, c, rest) := by
  have taken : (c.bytes ++ rest).take n = c.bytes := List.take_left' c.size_eq
  have left : (c.bytes ++ rest).drop n = rest := List.drop_left' c.size_eq
  rw [fread, taken, left, b.receive_block, c.size_eq]

/-- What the word buffer holds once the records are read: the word of the last one. -/
def wordBuffer (word : Buffer WORD) (records : List Dictrec) : Buffer WORD :=
  records.foldl (fun _ r => r.word) word

/-- A short read at the end of the file stores what is there over the last word, and the
result is compared like any other. -/
theorem search_fragment (records : List Dictrec) {tail : List Byte}
    (short : tail.length < WORD + TEXT) (fuel : Nat)
    (enough : records.length + tail.length < fuel) (word : Buffer WORD) (text : Buffer TEXT)
    (sought : Dictrec) :
    search fuel (outFile records ++ tail) word text sought =
      match records.find? (fun r => r.word.str = sought.word.str) with
      | some r => (sought.word.store (r.word.str.length - 1) 0).map fun w => (FOUND, ⟨w, r.text⟩)
      | none =>
        if tail ≠ [] ∧ ((wordBuffer word records).receive tail).str = sought.word.str then
          (sought.word.store (sought.word.str.length - 1) 0).map fun w =>
            (FOUND, ⟨w, sought.text.receive (tail.drop WORD)⟩)
        else (sought.word.store (sought.word.str.length - 1) 0).map fun w =>
          (NOTFOUND, { sought with word := w }) := by
  induction records generalizing fuel word text with
  | nil =>
    obtain ⟨k, rfl⟩ : ∃ k, fuel = k + 1 := ⟨fuel - 1, by omega⟩
    cases tail with
    | nil => simp [search, outFile, fread]
    | cons c rest =>
      obtain ⟨j, rfl⟩ : ∃ j, k = j + 1 := ⟨k - 1, by simp at enough; omega⟩
      have read : ((c :: rest).take WORD).length ≠ 0 := by simp [WORD]
      have behind : ((c :: rest).drop WORD).drop TEXT = [] := by
        rw [List.drop_drop]
        exact List.drop_of_length_le (Nat.le_of_lt short)
      by_cases same : (word.receive (c :: rest)).str = sought.word.str
      · have hcmp : strcmp (word.receive (c :: rest)).bytes sought.word.bytes = .eq :=
          (strcmp_eq_iff _ _).mpr same
        simp only [search, outFile, List.flatMap_nil, List.nil_append, fread, if_neg read, hcmp,
          wordBuffer, List.foldl_nil, same]
        simp
      · have hcmp : strcmp (word.receive (c :: rest)).bytes sought.word.bytes ≠ .eq :=
          fun h => same ((strcmp_eq_iff _ _).mp h)
        simp only [search, outFile, List.flatMap_nil, List.nil_append, fread, if_neg read,
          if_pos hcmp, behind, wordBuffer, List.foldl_nil, same]
        simp
  | cons r records ih =>
    obtain ⟨k, rfl⟩ : ∃ k, fuel = k + 1 := ⟨fuel - 1, by omega⟩
    have shape : outFile (r :: records) ++ tail =
        r.word.bytes ++ (r.text.bytes ++ (outFile records ++ tail)) := by
      simp [outFile, Dictrec.bytes]
    have positive : WORD ≠ 0 := by decide
    by_cases same : r.word.str = sought.word.str
    · have hcmp : strcmp r.word.bytes sought.word.bytes = .eq := (strcmp_eq_iff _ _).mpr same
      simp [search, shape, fread_block, positive, hcmp, same]
    · have hcmp : strcmp r.word.bytes sought.word.bytes ≠ .eq :=
        fun h => same ((strcmp_eq_iff _ _).mp h)
      have rest := ih k (by simp only [List.length_cons] at enough; omega) r.word r.text
      simp only [search, shape, fread_block, if_neg positive, if_pos hcmp, rest, wordBuffer,
        List.foldl_cons, List.find?_cons, same, decide_false]
      rfl

/-- On a file of records the loop returns the first one whose word is the key. -/
theorem search_records (records : List Dictrec) (fuel : Nat) (enough : records.length < fuel)
    (word : Buffer WORD) (text : Buffer TEXT) (sought : Dictrec) :
    search fuel (outFile records) word text sought =
      match records.find? (fun r => r.word.str = sought.word.str) with
      | some r => (sought.word.store (r.word.str.length - 1) 0).map fun w => (FOUND, ⟨w, r.text⟩)
      | none => (sought.word.store (sought.word.str.length - 1) 0).map fun w =>
          (NOTFOUND, { sought with word := w }) := by
  have short : ([] : List Byte).length < WORD + TEXT := by decide
  have whole := search_fragment records short fuel enough word text sought
  simpa using whole

/-- The key of a call is the query with a newline behind it. -/
theorem lookup1_records {records : List Dictrec} {st : Lookup1}
    (opened : st.firstTime = true ∨ st.inFile = some (outFile records)) (sought : Dictrec)
    (room : sought.word.str.length + 2 ≤ WORD) :
    ∃ (w : Buffer WORD) (st' : Lookup1), w.str = sought.word.str ++ [newline] ∧
      st'.firstTime = false ∧ st'.inFile = some (outFile records) ∧
      lookup1 st (some (outFile records)) sought =
        (match records.find? (fun r => r.word.str = sought.word.str ++ [newline]) with
        | some r => (w.store (r.word.str.length - 1) 0).map fun w => (FOUND, ⟨w, r.text⟩, st')
        | none => (w.store (w.str.length - 1) 0).map fun w =>
            (NOTFOUND, { sought with word := w }, st')) := by
  have clean : 0 ∉ sought.word.str ++ [newline] := by
    have h := cstr_clean sought.word.bytes
    simp only [List.mem_append, List.mem_singleton, not_or]
    exact ⟨h, by decide⟩
  obtain ⟨w, hw, hb⟩ := sought.word.put_fits (show (sought.word.str ++ [newline, 0]).length ≤ WORD by
    simpa using room)
  have hstr : w.str = sought.word.str ++ [newline] := by
    have h := cstr_terminated clean (sought.word.bytes.drop (sought.word.str.length + 2))
    simpa [Buffer.str, hb, overwrite] using h
  have size : records.length < (outFile records).length + 1 := by
    rw [length_outFile, WORD, TEXT]
    omega
  let after : Lookup1 := if st.firstTime then ⟨false, some (outFile records)⟩ else st
  have running : after.firstTime = false ∧ after.inFile = some (outFile records) := by
    cases hf : st.firstTime with
    | true => simp [after, hf]
    | false => simpa [after, hf] using opened
  refine ⟨w, after, hstr, running.1, running.2, ?_⟩
  have found := search_records records _ size (Buffer.zero 32) (Buffer.zero 480)
    { sought with word := w }
  simp only [hstr] at found
  change (match after.inFile with
    | none => _
    | some file => _) = _
  rw [running.2]
  simp only [hw, Option.bind_some, found]
  cases records.find? (fun r => r.word.str = sought.word.str ++ [newline]) with
  | none => simp [hstr, after, Function.comp_def]
  | some r => simp [after, Function.comp_def]

end Dictionary
