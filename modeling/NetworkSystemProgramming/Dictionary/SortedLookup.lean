import Mathlib.Data.List.Forall2
import NetworkSystemProgramming.Dictionary.BinaryLookup

/-!
# Binary lookup in a sorted file

`lookup5.c` on a file whose complete records increase by their words, whatever partial
record may follow them: each call of a sequence answers what a scan over the complete
records finds, as long as `numrec` can count them. An empty file cannot be mapped, which the
test for NULL does not notice; it has no record that a search could read.
-/

namespace Dictionary

open ByteBuffers BinarySearch

/-- `dict_cmp` orders records by the strings in their word fields. -/
instance : Std.TransCmp dictCmp :=
  inferInstanceAs (Std.TransCmp (compareOn fun r : Dictrec => r.word.str))

/-- The first complete record with the word of the query. -/
def scan (file : List Byte) (q : Dictrec) : Option Dictrec :=
  (completeRecords file).find? fun r => r.word.str = q.word.str

theorem findRecord_eq_scan {file : List Byte} (few : (completeRecords file).length < 2 ^ 31)
    (increasing : (completeRecords file).Pairwise fun a b => dictCmp a b = .lt) (q : Dictrec) :
    findRecord (completeRecords file) q.word.str = scan file q := by
  have key : (fun r : Dictrec => strcmp q.word.str r.word.bytes) = dictCmp q := by
    funext r
    rw [dictCmp, strcmp, strcmp, Buffer.str, cstr_of_clean (cstr_clean _)]
  have sorted := SortedFor.of_increasing increasing q
  rw [findRecord, key, searchedRecords_of_few few, bsearch_eq_find sorted, scan]
  congr 1
  funext r
  have same : dictCmp q r = .eq ↔ r.word.str = q.word.str := (strcmp_eq_iff _ _).trans eq_comm
  exact decide_eq_decide.mpr same

/-- What a call answers, if it answers as a scan does. -/
def Scans (file : List Byte) (q : Dictrec) (result : Int × Dictrec) : Prop :=
  match scan file q with
  | some r => result.1 = FOUND ∧ result.2.word = q.word ∧ result.2.text.str = r.text.str
  | none => result = (NOTFOUND, q)

theorem lookup5_scans {file : List Byte} {st : Lookup5}
    (few : (completeRecords file).length < 2 ^ 31) (ready : st.Ready file)
    (increasing : (completeRecords file).Pairwise fun a b => dictCmp a b = .lt)
    (terminated : ∀ r ∈ completeRecords file, 0 ∈ r.text.bytes) (q : Dictrec) :
    ∃ status found, lookup5 st (some file) q = .ok (status, found, Lookup5.mapped file) ∧
      Scans file q (status, found) := by
  have call := lookup5_file (.of_few few) ready q
  rw [findRecord_eq_scan few increasing] at call
  cases found : scan file q with
  | none =>
    simp only [found] at call
    exact ⟨NOTFOUND, q, call, by simp only [Scans, found]⟩
  | some r =>
    have member : r ∈ completeRecords file := List.mem_of_find?_eq_some found
    have room : (r.text.str ++ [0]).length ≤ TEXT := by
      have short := Buffer.str_length_lt (terminated r member)
      rw [List.length_append]
      exact short
    obtain ⟨text, put, bytes⟩ := q.text.put_fits room
    simp only [found, put] at call
    have string : text.str = r.text.str := by
      rw [Buffer.str, bytes, overwrite, List.append_assoc]
      exact cstr_terminated (cstr_clean _) _
    refine ⟨FOUND, _, call, ?_⟩
    simp only [Scans, found, true_and]
    exact string

/-- One call after the other. -/
def calls5 (resource : Option (List Byte)) : Lookup5 → List Dictrec →
    Except Halt (List (Int × Dictrec))
  | _, [] => .ok []
  | st, sought :: rest =>
    match lookup5Memory st resource sought with
    | .error halt => .error halt
    | .ok (status, found, st) => (calls5 resource st rest).map ((status, found) :: ·)

theorem calls5_scan {file : List Byte} {st : Lookup5}
    (few : (completeRecords file).length < 2 ^ 31) (ready : st.Ready file)
    (increasing : (completeRecords file).Pairwise fun a b => dictCmp a b = .lt)
    (words : ∀ r ∈ completeRecords file, 0 ∈ r.word.bytes)
    (texts : ∀ r ∈ completeRecords file, 0 ∈ r.text.bytes) (queries : List Dictrec) :
    ∃ results, calls5 (some file) st queries = .ok results ∧
      List.Forall₂ (Scans file) queries results := by
  induction queries generalizing st with
  | nil => exact ⟨[], rfl, .nil⟩
  | cons q queries ih =>
    obtain ⟨status, found, call, scans⟩ := lookup5_scans few ready increasing texts q
    obtain ⟨results, rest, each⟩ := ih (Lookup5.mapped_ready file)
    refine ⟨(status, found) :: results, ?_, .cons scans each⟩
    simp only [calls5, lookup5Memory_eq words ready, call, rest]
    rfl

/-! ## More records than an `int` counts -/

/-- The words of the records behind those that are counted are not found. -/
theorem findRecord_behind {records : List Dictrec}
    (increasing : records.Pairwise fun a b => dictCmp a b = .lt) {r : Dictrec}
    (behind : r ∈ records.drop (records.length % 2 ^ 32)) :
    findRecord records r.word.str = none := by
  cases search : findRecord records r.word.str with
  | none => rfl
  | some found =>
    obtain ⟨member, equal⟩ := bsearch_sound search
    rw [← List.take_append_drop (records.length % 2 ^ 32) records] at increasing
    have less : dictCmp found r = .lt :=
      (List.pairwise_append.mp increasing).2.2 found member r behind
    have same : cstr r.word.str = cstr found.word.bytes := (strcmp_eq_iff _ _).mp equal
    rw [Buffer.str, cstr_of_clean (cstr_clean _)] at same
    have level : dictCmp found r = .eq := (strcmp_eq_iff _ _).mpr same.symm
    rw [level] at less
    cases less

theorem scan_own {file : List Byte} {r : Dictrec} (member : r ∈ completeRecords file) :
    scan file r ≠ none := by
  intro none
  have absent := List.find?_eq_none.mp none r member
  simp at absent

/-- A call that answers as a scan does needs a count that is not negative. -/
theorem counted_of_scans {file : List Byte} {st : Lookup5} (ready : st.Ready file)
    (words : ∀ r ∈ completeRecords file, 0 ∈ r.word.bytes) {q : Dictrec}
    {results : List (Int × Dictrec)} (calls : calls5 (some file) st [q] = .ok results) :
    Counted (completeRecords file) := by
  by_contra uncounted
  have halted := lookup5_uncounted uncounted ready q
  rw [← lookup5Memory_eq words ready] at halted
  simp only [calls5, halted] at calls
  cases calls

/-- And the word must be among the records that are counted. -/
theorem searched_of_scans {file : List Byte} {st : Lookup5} (ready : st.Ready file)
    (increasing : (completeRecords file).Pairwise fun a b => dictCmp a b = .lt)
    (words : ∀ r ∈ completeRecords file, 0 ∈ r.word.bytes)
    (counted : Counted (completeRecords file)) {r : Dictrec}
    (behind : r ∈ (completeRecords file).drop ((completeRecords file).length % 2 ^ 32))
    {results : List (Int × Dictrec)} (calls : calls5 (some file) st [r] = .ok results) :
    ¬ List.Forall₂ (Scans file) [r] results := by
  have missed := lookup5_file counted ready r
  rw [findRecord_behind increasing behind, ← lookup5Memory_eq words ready] at missed
  simp only [calls5, missed] at calls
  cases calls
  intro scans
  cases scans with
  | cons answered _ =>
    rw [Scans] at answered
    split at answered
    · exact absurd (show NOTFOUND = FOUND from answered.1) (by decide)
    · rename_i none
      exact scan_own (List.mem_of_mem_drop behind) none

/-- What a scan finds is found with fewer than 2^31 records only. -/
theorem few_of_scans {file : List Byte}
    (increasing : (completeRecords file).Pairwise fun a b => dictCmp a b = .lt)
    (words : ∀ r ∈ completeRecords file, 0 ∈ r.word.bytes)
    (found : ∀ queries, ∃ results, calls5 (some file) Lookup5.initial queries = .ok results ∧
      List.Forall₂ (Scans file) queries results) : (completeRecords file).length < 2 ^ 31 := by
  by_contra many
  obtain ⟨_, calls, -⟩ := found [⟨.zero WORD, .zero TEXT⟩]
  have counted := counted_of_scans (Lookup5.initial_ready file) words calls
  have more : (completeRecords file).length % 2 ^ 32 < (completeRecords file).length :=
    Nat.lt_of_lt_of_le counted (Nat.le_of_not_lt many)
  obtain ⟨r, behind⟩ := List.exists_mem_of_ne_nil _
    (mt List.drop_eq_nil_iff.mp (Nat.not_le_of_lt more))
  obtain ⟨results, calls, scans⟩ := found [r]
  exact searched_of_scans (Lookup5.initial_ready file) increasing words counted behind calls scans

/-- On a file of increasing records every call of every sequence finds what a linear scan
finds, and touches the text only when it finds something, exactly if an `int` can count the
records. -/
theorem binary_lookup_linear_iff {file : List Byte}
    (increasing : (completeRecords file).Pairwise fun a b => strcmp a.word.bytes b.word.bytes = .lt)
    (words : ∀ r ∈ completeRecords file, 0 ∈ r.word.bytes)
    (texts : ∀ r ∈ completeRecords file, 0 ∈ r.text.bytes) :
    (∀ queries, ∃ results, calls5 (some file) Lookup5.initial queries = .ok results ∧
      List.Forall₂ (Scans file) queries results) ↔ (completeRecords file).length < 2 ^ 31 := by
  constructor
  · exact few_of_scans increasing words
  · intro few queries
    exact calls5_scan few (Lookup5.initial_ready file) increasing words texts queries

/-- The records `ant` and `cat`, and the start of another one. -/
private def antCatFile : List Byte :=
  outFile [⟨.ofString WORD [97, 110, 116] (by decide), .ofString TEXT [98] (by decide)⟩,
    ⟨exampleRecord.word, .ofString TEXT [97] (by decide)⟩] ++ [100, 111]

private def emuWord : Dictrec := ⟨.ofString WORD [101, 109, 117] (by decide), .zero TEXT⟩

private def catWord : Dictrec := ⟨exampleRecord.word, .zero TEXT⟩

theorem binary_lookup_cat :
    ∃ results, calls5 (some antCatFile) Lookup5.initial [emuWord, catWord] = .ok results ∧
      List.Forall₂ (Scans antCatFile) [emuWord, catWord] results :=
  (binary_lookup_linear_iff (by decide +kernel) (by decide +kernel) (by decide +kernel)).mpr
    (by decide +kernel) _

/-- A number in `w` letters from `a` to `p`, the most significant one first. -/
private def letters : Nat → Nat → List Byte
  | 0, _ => []
  | w + 1, n => UInt8.ofNat (97 + n / 16 ^ w % 16) :: letters w n

private theorem letters_length (w n : Nat) : (letters w n).length = w := by
  induction w with
  | zero => rfl
  | succ w ih => rw [letters, List.length_cons, ih]

private theorem letter_value {d : Nat} (digit : d < 16) :
    (UInt8.ofNat (97 + d)).toNat = 97 + d :=
  UInt8.toNat_ofNat_of_lt' (show 97 + d < 256 by omega)

private theorem letters_clean (w n : Nat) : 0 ∉ letters w n := by
  induction w with
  | zero => exact List.not_mem_nil
  | succ w ih =>
    have digit : n / 16 ^ w % 16 < 16 := Nat.mod_lt _ (by decide)
    rw [letters, List.mem_cons, not_or]
    refine ⟨?_, ih⟩
    intro zero
    have value := congrArg UInt8.toNat zero
    rw [letter_value digit, UInt8.toNat_zero] at value
    omega

private theorem letters_increase (w : Nat) {m n : Nat} (less : m % 16 ^ w < n % 16 ^ w) :
    compare (letters w m) (letters w n) = .lt := by
  induction w with
  | zero => simp [Nat.mod_one] at less
  | succ w ih =>
    have first : m / 16 ^ w % 16 < 16 := Nat.mod_lt _ (by decide)
    have second : n / 16 ^ w % 16 < 16 := Nat.mod_lt _ (by decide)
    rw [Nat.mod_pow_succ, Nat.mod_pow_succ] at less
    rw [letters, letters, List.compare_cons_cons]
    rcases Nat.lt_trichotomy (m / 16 ^ w % 16) (n / 16 ^ w % 16) with smaller | same | larger
    · have order : UInt8.ofNat (97 + m / 16 ^ w % 16) < UInt8.ofNat (97 + n / 16 ^ w % 16) := by
        rw [UInt8.lt_iff_toNat_lt, letter_value first, letter_value second]
        omega
      rw [Std.compare_eq_lt.mpr order]
      rfl
    · rw [same, Nat.add_lt_add_iff_right] at less
      rw [same, Std.ReflOrd.compare_self, ih less]
      rfl
    · have steps : 16 ^ w * (n / 16 ^ w % 16) + 16 ^ w ≤ 16 ^ w * (m / 16 ^ w % 16) := by
        rw [← Nat.mul_succ]
        exact Nat.mul_le_mul_left _ larger
      have := Nat.mod_lt n (show 0 < 16 ^ w from Nat.pow_pos (by decide))
      omega

private theorem letters_room (n : Nat) : (letters 8 n).length < WORD := by
  rw [letters_length]
  decide

private def numbered (n : Nat) : Dictrec where
  word := .ofString WORD (letters 8 n) (Nat.le_of_lt (letters_room n))
  text := .zero TEXT

private theorem numbered_word (n : Nat) : cstr (numbered n).word.bytes = letters 8 n :=
  cstr_padded (letters_clean 8 n) (letters_room n)

/-- With 2^32 records, the words `aaaaaaaa` to `pppppppp`, `numrec` is 0. -/
theorem full_count_finds_nothing :
    ¬ ∀ file : List Byte,
      ((completeRecords file).Pairwise fun a b => strcmp a.word.bytes b.word.bytes = .lt) →
      (∀ r ∈ completeRecords file, 0 ∈ r.word.bytes) →
      (∀ r ∈ completeRecords file, 0 ∈ r.text.bytes) →
      ∀ queries, ∃ results, calls5 (some file) Lookup5.initial queries = .ok results ∧
        List.Forall₂ (Scans file) queries results := by
  intro claim
  let records := (List.range (2 ^ 32)).map numbered
  have complete : completeRecords (outFile records) = records := completeRecords_outFile records
  have increasing : records.Pairwise fun a b => dictCmp a b = .lt := by
    rw [List.pairwise_map]
    refine List.Pairwise.imp_of_mem ?_ List.pairwise_lt_range
    intro m n small large less
    rw [List.mem_range] at small large
    rw [dictCmp, strcmp, numbered_word, numbered_word]
    apply letters_increase
    have all : 16 ^ 8 = 2 ^ 32 := by decide
    rwa [all, Nat.mod_eq_of_lt small, Nat.mod_eq_of_lt large]
  have words : ∀ r ∈ records, 0 ∈ r.word.bytes := by
    intro r member
    obtain ⟨n, -, rfl⟩ := List.mem_map.mp member
    have spare : 0 < WORD - (letters 8 n).length := Nat.sub_pos_of_lt (letters_room n)
    exact List.mem_append_right _ (List.mem_replicate.mpr ⟨Nat.ne_of_gt spare, rfl⟩)
  have texts : ∀ r ∈ records, 0 ∈ r.text.bytes := by
    intro r member
    obtain ⟨n, -, rfl⟩ := List.mem_map.mp member
    exact List.mem_replicate.mpr ⟨by decide, rfl⟩
  rw [← complete] at increasing words texts
  have few := few_of_scans increasing words (claim _ increasing words texts)
  rw [complete, List.length_map, List.length_range] at few
  exact absurd few (by decide)

end Dictionary
