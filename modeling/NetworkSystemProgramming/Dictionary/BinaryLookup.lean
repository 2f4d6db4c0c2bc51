import NetworkSystemProgramming.BinarySearch
import NetworkSystemProgramming.Dictionary.Dictrec

/-!
# Binary lookup in a mapped record file

`lookup5.c`, whose static variables are passed from call to call. The resource is
the content of the file it names, `none` when it cannot be opened. The word field
of a record holds its terminating NUL. The number of records is an `int`.
-/

namespace Dictionary

open ByteBuffers BinarySearch

/-- How a call can end other than by returning: `exit`, or undefined behaviour. -/
inductive Halt where
  | exit (status : Int)
  | undefined
  deriving DecidableEq

/-- The first `n` records of a mapped file. -/
def tableOf : Nat → List Byte → List Dictrec
  | 0, _ => []
  | n + 1, file =>
    ⟨(Buffer.zero WORD).receive file, (Buffer.zero TEXT).receive (file.drop WORD)⟩ ::
      tableOf n (file.drop (WORD + TEXT))

/-- The static variables of `lookup`. -/
structure Lookup5 where
  firstTime : Bool
  table : List Byte
  numrec : Int
  deriving DecidableEq

def Lookup5.initial : Lookup5 := ⟨true, [], 0⟩

/-- The static variables once the file is mapped. -/
def Lookup5.mapped (file : List Byte) : Lookup5 :=
  ⟨false, file, Int.bmod (file.length / (WORD + TEXT) : Nat) (2 ^ 32)⟩

/-- The records that `bsearch` gets. A negative number of them becomes a `size_t` that no
mapping is large enough for. -/
def Lookup5.searched (st : Lookup5) : Option (List Dictrec) :=
  if st.numrec < 0 then none else some (tableOf st.numrec.toNat st.table)

def dictCmp (a b : Dictrec) : Ordering := strcmp a.word.bytes b.word.bytes

/-- `lookup` of `lookup5.c`: the result, the record and the static variables. -/
def lookup5 (st : Lookup5) (resource : Option (List Byte)) (sought : Dictrec) :
    Except Halt (Int × Dictrec × Lookup5) :=
  match (if st.firstTime then resource.map Lookup5.mapped else some st) with
  | none => .error (.exit 1)
  | some st =>
    match st.searched.map (bsearch (dictCmp sought)) with
    | none => .error .undefined
    | some (some found) =>
      match sought.text.put (found.text.str ++ [0]) with
      | some text => .ok (FOUND, { sought with text }, st)
      | none => .error .undefined
    | some none => .ok (NOTFOUND, sought, st)

/-- The file is not opened yet, or it is mapped. -/
def Lookup5.Ready (file : List Byte) (st : Lookup5) : Prop :=
  st.firstTime = true ∨ st = Lookup5.mapped file

theorem Lookup5.initial_ready (file : List Byte) : Lookup5.initial.Ready file := Or.inl rfl

theorem Lookup5.mapped_ready (file : List Byte) : (Lookup5.mapped file).Ready file := Or.inr rfl

/-- Mapping a file of records gives the records; a partial one at the end is not
counted. -/
theorem tableOf_outFile (records : List Dictrec) (tail : List Byte) :
    tableOf records.length (outFile records ++ tail) = records := by
  induction records with
  | nil => rfl
  | cons r records ih =>
    have shape : outFile (r :: records) ++ tail =
        r.word.bytes ++ (r.text.bytes ++ (outFile records ++ tail)) := by
      simp [outFile, Dictrec.bytes]
    have behindWord : (r.word.bytes ++ (r.text.bytes ++ (outFile records ++ tail))).drop WORD =
        r.text.bytes ++ (outFile records ++ tail) := List.drop_left' r.word.size_eq
    have behindText : (r.text.bytes ++ (outFile records ++ tail)).drop TEXT =
        outFile records ++ tail := List.drop_left' r.text.size_eq
    rw [List.length_cons, tableOf, shape, Buffer.receive_block, ← List.drop_drop, behindWord,
      Buffer.receive_block, behindText, ih]

/-- The records of 512 bytes that the file holds from its start on. -/
def completeRecords (file : List Byte) : List Dictrec := tableOf (file.length / (WORD + TEXT)) file

/-- What is left behind them. -/
def fragment (file : List Byte) : List Byte :=
  file.drop ((WORD + TEXT) * (file.length / (WORD + TEXT)))

@[simp] theorem length_tableOf (n : Nat) (file : List Byte) : (tableOf n file).length = n := by
  induction n generalizing file with
  | zero => rfl
  | succ n ih => rw [tableOf, List.length_cons, ih]

theorem take_tableOf {m n : Nat} (fewer : m ≤ n) (file : List Byte) :
    (tableOf n file).take m = tableOf m file := by
  induction m generalizing n file with
  | zero => rfl
  | succ m ih =>
    obtain ⟨k, rfl⟩ : ∃ k, n = k + 1 := ⟨n - 1, by omega⟩
    rw [tableOf, tableOf, List.take_succ_cons, ih (by omega)]

theorem outFile_tableOf (n : Nat) (file : List Byte) (inside : (WORD + TEXT) * n ≤ file.length) :
    outFile (tableOf n file) = file.take ((WORD + TEXT) * n) := by
  induction n generalizing file with
  | zero => rfl
  | succ n ih =>
    have word : WORD ≤ file.length := by
      rw [WORD, TEXT] at *
      omega
    have text : TEXT ≤ (file.drop WORD).length := by
      rw [List.length_drop, WORD, TEXT] at *
      omega
    have rest := ih (file.drop (WORD + TEXT)) (by
      rw [List.length_drop, WORD, TEXT] at *
      omega)
    have block (m : Nat) (bytes : List Byte) (full : m ≤ bytes.length) :
        ((Buffer.zero m).receive bytes).bytes = bytes.take m := by
      simp [Buffer.receive, overwrite, Buffer.zero, List.length_take, Nat.min_eq_left full]
    rw [tableOf, outFile, List.flatMap_cons, ← outFile, rest, Dictrec.bytes, block _ _ word,
      block _ _ text, ← List.take_add, ← List.take_add, Nat.mul_succ, Nat.add_comm]

theorem file_split (file : List Byte) :
    file = outFile (completeRecords file) ++ fragment file := by
  rw [completeRecords, outFile_tableOf _ _ (Nat.mul_div_le _ _), fragment, List.take_append_drop]

theorem length_fragment (file : List Byte) :
    (fragment file).length = file.length % (WORD + TEXT) := by
  rw [fragment, List.length_drop, Nat.mod_eq_sub_mul_div]

theorem fragment_short (file : List Byte) : (fragment file).length < WORD + TEXT := by
  rw [length_fragment]
  exact Nat.mod_lt _ (by decide)

theorem fragment_whole {file : List Byte} (whole : file.length % (WORD + TEXT) = 0) :
    fragment file = [] :=
  List.eq_nil_of_length_eq_zero ((length_fragment file).trans whole)

theorem completeRecords_outFile (records : List Dictrec) :
    completeRecords (outFile records) = records := by
  have count : (outFile records).length / (WORD + TEXT) = records.length := by
    rw [length_outFile, Nat.mul_div_cancel_left _ (by decide)]
  have table := tableOf_outFile records []
  rw [List.append_nil] at table
  rw [completeRecords, count, table]

theorem length_completeRecords (file : List Byte) :
    (completeRecords file).length = file.length / (WORD + TEXT) := length_tableOf _ file

/-- `numrec` is not negative for so many records: there are fewer than 2^31, or the count has
wrapped. -/
def Counted (records : List Dictrec) : Prop := records.length % 2 ^ 32 < 2 ^ 31

instance (records : List Dictrec) : Decidable (Counted records) :=
  inferInstanceAs (Decidable (_ < _))

/-- As many of the records as `numrec` counts. -/
def searchedRecords (records : List Dictrec) : List Dictrec :=
  records.take (records.length % 2 ^ 32)

/-- The record that the search for a word ends at. -/
def findRecord (records : List Dictrec) (word : List Byte) : Option Dictrec :=
  bsearch (fun r => strcmp word r.word.bytes) (searchedRecords records)

theorem Counted.of_few {records : List Dictrec} (few : records.length < 2 ^ 31) :
    Counted records := by
  rw [Counted]
  omega

theorem searchedRecords_of_few {records : List Dictrec} (few : records.length < 2 ^ 31) :
    searchedRecords records = records := by
  have count : records.length % 2 ^ 32 = records.length := Nat.mod_eq_of_lt (by omega)
  rw [searchedRecords, count, List.take_length]

theorem mem_of_searched {records : List Dictrec} {r : Dictrec} (h : r ∈ searchedRecords records) :
    r ∈ records := List.mem_of_mem_take h

theorem findRecord_mem {records : List Dictrec} {word : List Byte} {r : Dictrec}
    (h : findRecord records word = some r) : r ∈ records :=
  mem_of_searched (bsearch_sound h).1

theorem Lookup5.Ready.opened {file : List Byte} {st : Lookup5} (ready : st.Ready file) :
    (if st.firstTime then (some file).map Lookup5.mapped else some st) =
      some (Lookup5.mapped file) := by
  rcases ready with first | rfl
  · rw [first]
    rfl
  · rfl

/-- The search once the file is mapped. -/
theorem lookup5_opened {st st' : Lookup5} {resource : Option (List Byte)}
    (opened : (if st.firstTime then resource.map Lookup5.mapped else some st) = some st')
    (sought : Dictrec) :
    lookup5 st resource sought =
      match st'.searched.map (bsearch (dictCmp sought)) with
      | none => .error .undefined
      | some (some found) =>
        match sought.text.put (found.text.str ++ [0]) with
        | some text => .ok (FOUND, { sought with text }, st')
        | none => .error .undefined
      | some none => .ok (NOTFOUND, sought, st') := by
  rw [lookup5, opened]

section
variable {file : List Byte} {st : Lookup5}

theorem mapped_numrec : (Lookup5.mapped file).numrec =
    Int.bmod (completeRecords file).length (2 ^ 32) := by
  rw [length_completeRecords, Lookup5.mapped]

theorem mapped_counted (counted : Counted (completeRecords file)) :
    (Lookup5.mapped file).searched = some (searchedRecords (completeRecords file)) := by
  have number : (Lookup5.mapped file).numrec = ((completeRecords file).length % 2 ^ 32 : Nat) := by
    rw [mapped_numrec, Int.bmod_def]
    rw [Counted] at counted
    split
    · omega
    · omega
  have inside : (completeRecords file).length % 2 ^ 32 ≤ file.length / (WORD + TEXT) :=
    length_completeRecords file ▸ Nat.mod_le _ _
  have first := take_tableOf inside file
  rw [Lookup5.searched, number, if_neg (by omega), Int.toNat_natCast, searchedRecords]
  exact congrArg some first.symm

theorem mapped_uncounted (uncounted : ¬ Counted (completeRecords file)) :
    (Lookup5.mapped file).searched = none := by
  have negative : (Lookup5.mapped file).numrec < 0 := by
    rw [mapped_numrec, Int.bmod_def]
    rw [Counted] at uncounted
    split
    · omega
    · omega
  rw [Lookup5.searched, if_pos negative]

/-- A call depends on the word in the record only, and leaves it as it was. A fragment at
the end of the file is not searched. -/
theorem lookup5_file (counted : Counted (completeRecords file)) (ready : st.Ready file)
    (sought : Dictrec) :
    lookup5 st (some file) sought =
      match findRecord (completeRecords file) sought.word.str with
      | some found =>
        match sought.text.put (found.text.str ++ [0]) with
        | some text => .ok (FOUND, { sought with text }, Lookup5.mapped file)
        | none => .error .undefined
      | none => .ok (NOTFOUND, sought, Lookup5.mapped file) := by
  have key : dictCmp sought = fun r => strcmp sought.word.str r.word.bytes := by
    funext r
    rw [dictCmp, strcmp, strcmp, Buffer.str, cstr_of_clean (cstr_clean _)]
  rw [lookup5_opened ready.opened, mapped_counted counted, Option.map_some, findRecord, key]
  cases bsearch _ (searchedRecords (completeRecords file)) with
  | none => rfl
  | some r => rfl

/-- Where `numrec` is negative no call returns. -/
theorem lookup5_uncounted (uncounted : ¬ Counted (completeRecords file)) (ready : st.Ready file)
    (sought : Dictrec) : lookup5 st (some file) sought = .error .undefined := by
  rw [lookup5_opened ready.opened, mapped_uncounted uncounted, Option.map_none]

end

/-- What `lookup5` relies on in a file of records. -/
structure Readable (records : List Dictrec) : Prop where
  counted : Counted records
  terminated : ∀ r ∈ records, 0 ∈ r.text.bytes

instance (records : List Dictrec) : Decidable (Readable records) :=
  decidable_of_iff (Counted records ∧ ∀ r ∈ records, 0 ∈ r.text.bytes)
    ⟨fun h => ⟨h.1, h.2⟩, fun h => ⟨h.counted, h.terminated⟩⟩

section
variable {records : List Dictrec} {st : Lookup5}

theorem lookup5_ready (counted : Counted records) (ready : st.Ready (outFile records))
    (sought : Dictrec) :
    lookup5 st (some (outFile records)) sought =
      match findRecord records sought.word.str with
      | some found =>
        match sought.text.put (found.text.str ++ [0]) with
        | some text => .ok (FOUND, { sought with text }, Lookup5.mapped (outFile records))
        | none => .error .undefined
      | none => .ok (NOTFOUND, sought, Lookup5.mapped (outFile records)) := by
  have same := completeRecords_outFile records
  have call := lookup5_file (same.symm ▸ counted) ready sought
  rwa [same] at call

/-- On a readable file every call returns. -/
theorem lookup5_answers (readable : Readable records) (ready : st.Ready (outFile records))
    (sought : Dictrec) :
    (∃ r ∈ records, findRecord records sought.word.str = some r ∧
      ∃ found, lookup5 st (some (outFile records)) sought =
          .ok (FOUND, found, Lookup5.mapped (outFile records)) ∧
        found.word = sought.word ∧ found.text.str = r.text.str) ∨
    (findRecord records sought.word.str = none ∧
      lookup5 st (some (outFile records)) sought =
        .ok (NOTFOUND, sought, Lookup5.mapped (outFile records))) := by
  have call := lookup5_ready readable.counted ready sought
  cases search : findRecord records sought.word.str with
  | none =>
    right
    simp only [search] at call
    exact ⟨rfl, call⟩
  | some r =>
    left
    have member := findRecord_mem search
    have room : (r.text.str ++ [0]).length ≤ TEXT := by
      have := Buffer.str_length_lt (readable.terminated r member)
      rw [List.length_append]
      exact this
    obtain ⟨text, put, bytes⟩ := sought.text.put_fits room
    simp only [search, put] at call
    refine ⟨r, member, rfl, _, call, rfl, ?_⟩
    change cstr text.bytes = r.text.str
    rw [bytes, overwrite, List.append_assoc]
    exact cstr_terminated (cstr_clean _) _

end

/-- A table as the searches assume it. -/
structure RecordTable where
  records : List Dictrec
  counted : Counted records
  sorted : records.Pairwise fun a b => dictCmp a b = .lt
  word_terminated : ∀ r ∈ records, 0 ∈ r.word.bytes
  text_terminated : ∀ r ∈ records, 0 ∈ r.text.bytes

namespace RecordTable

/-- The data file. -/
abbrev file (table : RecordTable) : List Byte := outFile table.records

theorem readable (table : RecordTable) : Readable table.records :=
  ⟨table.counted, table.text_terminated⟩

/-- On such a table every call returns. -/
theorem lookup5_returns (table : RecordTable) {st : Lookup5} (ready : st.Ready table.file)
    (sought : Dictrec) :
    (∃ r ∈ table.records, findRecord table.records sought.word.str = some r ∧
      ∃ found, lookup5 st (some table.file) sought =
          .ok (FOUND, found, Lookup5.mapped table.file) ∧
        found.word = sought.word ∧ found.text.str = r.text.str) ∨
    (findRecord table.records sought.word.str = none ∧
      lookup5 st (some table.file) sought = .ok (NOTFOUND, sought, Lookup5.mapped table.file)) :=
  lookup5_answers table.readable ready sought

end RecordTable

/-- `cat`, with the text `pet`. -/
def exampleRecord : Dictrec where
  word := .ofString WORD [99, 97, 116] (by decide)
  text := .ofString TEXT [112, 101, 116, 10] (by decide)

def exampleTable : RecordTable where
  records := [exampleRecord]
  counted := by decide
  sorted := List.pairwise_singleton _ _
  word_terminated := by decide
  text_terminated := by decide

/-- `dict_cmp` on the memory of two records. -/
def dictCmpMemory (a b : Dictrec) : Option Ordering := strcmpMemory a.bytes b.bytes

/-- `lookup` of `lookup5.c`, with the comparisons as they read the memory. -/
def lookup5Memory (st : Lookup5) (resource : Option (List Byte)) (sought : Dictrec) :
    Except Halt (Int × Dictrec × Lookup5) :=
  match (if st.firstTime then resource.map Lookup5.mapped else some st) with
  | none => .error (.exit 1)
  | some st =>
    match st.searched.bind (bsearchPartial (dictCmpMemory sought)) with
    | none => .error .undefined
    | some (some found) =>
      match sought.text.put (found.text.str ++ [0]) with
      | some text => .ok (FOUND, { sought with text }, st)
      | none => .error .undefined
    | some none => .ok (NOTFOUND, sought, st)

/-- No comparison with a terminated word reads behind the word of the request. -/
theorem dictCmpMemory_terminated (sought : Dictrec) {r : Dictrec} (terminated : 0 ∈ r.word.bytes) :
    dictCmpMemory sought r = some (dictCmp sought r) := by
  obtain ⟨tail, split⟩ := cstr_split terminated
  have clean := cstr_clean r.word.bytes
  have size := congrArg List.length split
  rw [r.word.size_eq, List.length_append, List.length_cons] at size
  have room : (cstr r.word.bytes).length < sought.word.bytes.length := by
    rw [sought.word.size_eq]
    omega
  have compared := strcmpMemory_terminated clean room sought.text.bytes (tail ++ r.text.bytes)
  rw [← List.cons_append, ← List.append_assoc, ← split] at compared
  exact compared

theorem lookup5Memory_opened {st st' : Lookup5} {resource : Option (List Byte)} {sought : Dictrec}
    (opened : (if st.firstTime then resource.map Lookup5.mapped else some st) = some st')
    (agree : st'.searched.bind (bsearchPartial (dictCmpMemory sought)) =
      st'.searched.map (bsearch (dictCmp sought))) :
    lookup5Memory st resource sought = lookup5 st resource sought := by
  rw [lookup5_opened opened, lookup5Memory, opened]
  simp only [agree]

/-- On a file with terminated words the memory behind the fields plays no part. -/
theorem lookup5Memory_eq {file : List Byte} {st : Lookup5}
    (terminated : ∀ r ∈ completeRecords file, 0 ∈ r.word.bytes) (ready : st.Ready file)
    (sought : Dictrec) :
    lookup5Memory st (some file) sought = lookup5 st (some file) sought := by
  apply lookup5Memory_opened ready.opened
  by_cases counted : Counted (completeRecords file)
  · rw [mapped_counted counted, Option.bind_some, Option.map_some]
    exact bsearchPartial_total fun r member =>
      dictCmpMemory_terminated sought (terminated r (mem_of_searched member))
  · rw [mapped_uncounted counted, Option.bind_none, Option.map_none]

end Dictionary
