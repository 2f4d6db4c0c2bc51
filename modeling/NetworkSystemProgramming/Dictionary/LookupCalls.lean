import Mathlib.Data.List.Forall2
import NetworkSystemProgramming.Dictionary.FileStream

/-!
# Sequences of linear lookups

Any number of calls of `lookup` of `lookup1.c`, from the first one on, on a file of any
length. What a call answers is a function of the file and the query. A file of whole
records is searched exactly; a fragment behind the last record is taken for a record when
it completes the word that is still in the buffer.
-/

namespace Dictionary

open ByteBuffers

/-- One call after the other; `none` when a call is undefined. -/
def calls (resource : Option (List Byte)) : Statics1 → List Dictrec →
    Option (List (Int × Dictrec))
  | _, [] => some []
  | st, sought :: rest =>
    (lookup1Stream st resource sought).bind fun (status, found, st) =>
      (calls resource st rest).map ((status, found) :: ·)

/-- The word as a call leaves it: the newline is overwritten again. -/
def restored (word : Buffer WORD) : Buffer WORD := word.receive (word.str ++ [0, 0])

/-- The query and the newline that `strcat` puts behind it have room in the word field. -/
def QueryFits (q : Dictrec) : Prop := q.word.str.length + 2 ≤ WORD

instance : DecidablePred QueryFits := fun _ => inferInstanceAs (Decidable (_ ≤ _))

/-- The fragment, stored over the last complete word, reads as the query and a newline. -/
def FragmentHit (file : List Byte) (q : Dictrec) : Prop :=
  fragment file ≠ [] ∧
    ((wordBuffer (Buffer.zero WORD) (completeRecords file)).receive (fragment file)).str =
      q.word.str ++ [newline]

instance (file : List Byte) : DecidablePred (FragmentHit file) :=
  fun _ => inferInstanceAs (Decidable (_ ∧ _))

/-- The first complete record whose word is the query and a newline. -/
def firstMatch (file : List Byte) (q : Dictrec) : Option Dictrec :=
  (completeRecords file).find? fun r => r.word.str = q.word.str ++ [newline]

/-- What a call answers. -/
def lookupAnswer (file : List Byte) (q : Dictrec) : Int × Dictrec :=
  match firstMatch file q with
  | some r => (FOUND, ⟨restored q.word, r.text⟩)
  | none =>
    if FragmentHit file q then
      (FOUND, ⟨restored q.word, q.text.receive ((fragment file).drop WORD)⟩)
    else (NOTFOUND, ⟨restored q.word, q.text⟩)

theorem restored_str {q : Dictrec} (fits : QueryFits q) : (restored q.word).str = q.word.str := by
  have room : (q.word.str ++ [0, 0]).length ≤ WORD := by simpa [QueryFits] using fits
  have string := cstr_terminated (cstr_clean q.word.bytes)
    (0 :: q.word.bytes.drop (q.word.str.length + 2))
  have bytes : (restored q.word).bytes = overwrite q.word.bytes (q.word.str ++ [0, 0]) :=
    Buffer.receive_bytes _ room
  rw [Buffer.str, bytes, overwrite, List.append_assoc, List.length_append]
  exact string

/-- Both index expressions name the byte behind the query. -/
theorem store_restored {q : Dictrec} (fits : QueryFits q) {w : Buffer WORD}
    (put : q.word.put (q.word.str ++ [newline, 0]) = some w) :
    w.store q.word.str.length 0 = some (restored q.word) := by
  have room : (q.word.str ++ [newline, 0]).length ≤ WORD := by simpa [QueryFits] using fits
  have cleared : (q.word.str ++ [0, 0]).length ≤ WORD := by simpa [QueryFits] using fits
  obtain ⟨w', put', bytes⟩ := q.word.put_fits room
  have same : w = w' := Option.some.inj (put.symm.trans put')
  subst same
  have inside : q.word.str.length < WORD := by
    simp only [QueryFits] at fits
    omega
  rw [Buffer.store, if_pos inside]
  congr 1
  apply Buffer.ext
  rw [restored, Buffer.receive_bytes _ cleared]
  simp [bytes, overwrite]

/-- The key that a call searches for. -/
theorem put_key {q : Dictrec} (fits : QueryFits q) :
    ∃ w, q.word.put (q.word.str ++ [newline, 0]) = some w ∧ w.str = q.word.str ++ [newline] := by
  have room : (q.word.str ++ [newline, 0]).length ≤ WORD := by simpa [QueryFits] using fits
  obtain ⟨w, put, bytes⟩ := q.word.put_fits room
  have free : 0 ∉ q.word.str := cstr_clean q.word.bytes
  have clean : 0 ∉ q.word.str ++ [newline] := by simp [free, newline]
  have string := cstr_terminated clean (q.word.bytes.drop (q.word.str.length + 2))
  exact ⟨w, put, by simpa [Buffer.str, bytes, overwrite] using string⟩

theorem search_answer {file : List Byte} {q : Dictrec} (fits : QueryFits q) {w : Buffer WORD}
    (put : q.word.put (q.word.str ++ [newline, 0]) = some w)
    (key : w.str = q.word.str ++ [newline]) :
    search (file.length + 1) file (Buffer.zero WORD) (Buffer.zero TEXT) { q with word := w } =
      some (lookupAnswer file q) := by
  have enough : (completeRecords file).length + (fragment file).length < file.length + 1 := by
    have size := congrArg List.length (file_split file)
    rw [List.length_append, length_outFile, WORD, TEXT] at size
    omega
  have found := search_fragment (completeRecords file) (fragment_short file) (file.length + 1)
    enough (Buffer.zero WORD) (Buffer.zero TEXT) { q with word := w }
  have stored := store_restored fits put
  have last : w.str.length - 1 = q.word.str.length := by simp [key]
  rw [← file_split] at found
  rw [found, lookupAnswer, firstMatch]
  simp only [key]
  cases hit : (completeRecords file).find?
      (fun r => decide (r.word.str = q.word.str ++ [newline])) with
  | some r =>
    have word : r.word.str = w.str := by simpa [key] using List.find?_some hit
    simp only [word, last, stored, Option.map_some]
  | none =>
    rw [← key]
    simp only [last, stored, Option.map_some]
    by_cases false : FragmentHit file q
    · rw [if_pos false, if_pos (key ▸ false)]
    · rw [if_neg false, if_neg (key ▸ false)]

/-- A call searches the whole file, whatever was looked up before. -/
theorem lookup1_answer {file : List Byte} {st : Lookup1}
    (opened : st.firstTime = true ∨ st.inFile = some file) {q : Dictrec} (fits : QueryFits q) :
    ∃ st', st'.inFile = some file ∧
      lookup1 st (some file) q = some ((lookupAnswer file q).1, (lookupAnswer file q).2, st') := by
  obtain ⟨w, put, key⟩ := put_key fits
  have running : (if st.firstTime then ⟨false, some file⟩ else st : Lookup1).inFile =
      some file := by
    rcases opened with first | held
    · simp [first]
    · by_cases first : st.firstTime = true <;> simp [first, held]
  refine ⟨_, running, ?_⟩
  have found : search (file.length + 1) file (Buffer.zero WORD) (Buffer.zero TEXT)
      { q with word := w } = some (lookupAnswer file q) := search_answer fits put key
  simp only [lookup1, running, put, Option.bind_some]
  rw [show Buffer.zero 32 = Buffer.zero WORD from rfl,
    show Buffer.zero 480 = Buffer.zero TEXT from rfl, found]
  rfl

/-- `strcat` stores a longer query's newline or NUL behind the word field. -/
theorem lookup1_overflow {file : List Byte} {st : Lookup1}
    (opened : st.firstTime = true ∨ st.inFile = some file) {q : Dictrec} (long : ¬ QueryFits q) :
    lookup1 st (some file) q = none := by
  have room : ¬ (q.word.str ++ [newline, 0]).length ≤ WORD := by simpa [QueryFits] using long
  have put : q.word.put (q.word.str ++ [newline, 0]) = none := by
    rw [Buffer.put, dif_neg room]
  rcases opened with first | held
  · simp [lookup1, first, put]
  · by_cases first : st.firstTime = true <;> simp [lookup1, first, held, put]

/-- The file is not opened yet, or it is the one that the stream reads, at any position. -/
def Statics1.Reads (file : List Byte) (st : Statics1) : Prop :=
  st.firstTime = true ∨ ∃ position, st.inFile = some ⟨file, position⟩

theorem Statics1.reads_forget {file : List Byte} {st : Statics1} :
    st.Reads file ↔ st.forget.firstTime = true ∨ st.forget.inFile = some file := by
  constructor
  · rintro (first | ⟨position, held⟩)
    · exact Or.inl first
    · exact Or.inr (by simp [forget, held])
  · rintro (first | held)
    · exact Or.inl first
    · obtain ⟨stream, stands, rfl⟩ := Option.map_eq_some_iff.mp held
      exact Or.inr ⟨stream.position, stands⟩

theorem lookup1Stream_answer {file : List Byte} {st : Statics1} (reads : st.Reads file)
    {q : Dictrec} (fits : QueryFits q) :
    ∃ st', st'.Reads file ∧
      lookup1Stream st (some file) q =
        some ((lookupAnswer file q).1, (lookupAnswer file q).2, st') := by
  obtain ⟨after, held, call⟩ := lookup1_answer (Statics1.reads_forget.mp reads) fits
  rw [← lookup1Stream_forget] at call
  obtain ⟨⟨status, found, st'⟩, stream, same⟩ := Option.map_eq_some_iff.mp call
  simp only [Prod.mk.injEq] at same
  obtain ⟨rfl, rfl, rfl⟩ := same
  exact ⟨st', Statics1.reads_forget.mpr (Or.inr held), stream⟩

theorem lookup1Stream_overflow {file : List Byte} {st : Statics1} (reads : st.Reads file)
    {q : Dictrec} (long : ¬ QueryFits q) : lookup1Stream st (some file) q = none := by
  have call := lookup1_overflow (Statics1.reads_forget.mp reads) long
  rw [← lookup1Stream_forget] at call
  exact Option.map_eq_none_iff.mp call

/-- A sequence of calls answers each query by itself. -/
theorem calls_answer {file : List Byte} {queries : List Dictrec} {st : Statics1}
    (reads : st.Reads file) (fits : ∀ q ∈ queries, QueryFits q) :
    calls (some file) st queries = some (queries.map (lookupAnswer file)) := by
  induction queries generalizing st with
  | nil => rfl
  | cons q queries ih =>
    obtain ⟨st', reads', call⟩ := lookup1Stream_answer reads (fits q List.mem_cons_self)
    have rest := ih reads' (fun p member => fits p (List.mem_cons_of_mem q member))
    simp [calls, call, rest]

theorem calls_fit {file : List Byte} {queries : List Dictrec} {st : Statics1}
    (reads : st.Reads file) {results : List (Int × Dictrec)}
    (run : calls (some file) st queries = some results) : ∀ q ∈ queries, QueryFits q := by
  induction queries generalizing st results with
  | nil => simp
  | cons q queries ih =>
    by_cases fits : QueryFits q
    · obtain ⟨st', reads', call⟩ := lookup1Stream_answer reads fits
      simp only [calls, call, Option.bind_some] at run
      obtain ⟨rest, more, -⟩ := Option.map_eq_some_iff.mp run
      rintro p (_ | ⟨_, member⟩)
      · exact fits
      · exact ih reads' more p member
    · simp [calls, lookup1Stream_overflow reads fits] at run

/-- On a file of whole records every call finds the first record whose word is the query
and a newline, and says so if there is none; what was looked up before does not matter. -/
theorem lookup_calls_exact {file : List Byte} (whole : file.length % 512 = 0) :
    outFile (completeRecords file) = file ∧ ∃ answer : Dictrec → Int × Dictrec,
      (∀ queries, (∀ q ∈ queries, q.word.str.length ≤ 30) →
        calls (some file) Statics1.initial queries = some (queries.map answer)) ∧
      ∀ q : Dictrec, q.word.str.length ≤ 30 →
        (((answer q).1 = FOUND ∧
            ∃ r, (completeRecords file).find? (fun r => r.word.str = q.word.str ++ [newline]) =
              some r ∧ (answer q).2.text = r.text) ∨
          ((answer q).1 = NOTFOUND ∧
            (∀ r ∈ completeRecords file, r.word.str ≠ q.word.str ++ [newline]) ∧
            (answer q).2.text = q.text)) ∧
        (answer q).2.word.str = q.word.str := by
  have fits (q : Dictrec) (short : q.word.str.length ≤ 30) : QueryFits q := by
    have size : WORD = 32 := rfl
    rw [QueryFits]
    omega
  have records : outFile (completeRecords file) = file := by
    have split := file_split file
    rw [fragment_whole whole, List.append_nil] at split
    exact split.symm
  refine ⟨records, lookupAnswer file, ?_, ?_⟩
  · intro queries short
    exact calls_answer (Or.inl rfl) (fun q member => fits q (short q member))
  · intro q short
    have string := restored_str (fits q short)
    have clean : ¬ FragmentHit file q := fun hit => hit.1 (fragment_whole whole)
    cases found : firstMatch file q with
    | some r =>
      have result : lookupAnswer file q = (FOUND, ⟨restored q.word, r.text⟩) := by
        simp only [lookupAnswer, found]
      rw [result]
      exact ⟨Or.inl ⟨rfl, r, found, rfl⟩, string⟩
    | none =>
      have result : lookupAnswer file q = (NOTFOUND, ⟨restored q.word, q.text⟩) := by
        simp only [lookupAnswer, found, if_neg clean]
      rw [result]
      refine ⟨Or.inr ⟨rfl, ?_, rfl⟩, string⟩
      intro r member equal
      exact List.find?_eq_none.mp found r member (by simpa using equal)

/-- `cat` with the text `a`, as one record of a file. -/
private def catFile : List Byte :=
  padded WORD [99, 97, 116, 10] ++ padded TEXT [97]

private def catQuery : Dictrec := ⟨exampleRecord.word, .zero TEXT⟩

private def dogQuery : Dictrec := ⟨.ofString WORD [100, 111, 103] (by decide), .zero TEXT⟩

theorem lookup_calls_cat :
    ∃ answer : Dictrec → Int × Dictrec,
      calls (some catFile) Statics1.initial [catQuery, dogQuery, catQuery] =
        some [answer catQuery, answer dogQuery, answer catQuery] ∧
      (answer catQuery).1 = FOUND ∧ (answer dogQuery).1 = NOTFOUND := by
  have whole : catFile.length % 512 = 0 := by decide +kernel
  obtain ⟨-, answer, run, exactly⟩ := lookup_calls_exact whole
  refine ⟨answer, run _ (by decide), ?_, ?_⟩
  · rcases (exactly catQuery (by decide)).1 with found | ⟨-, missing, -⟩
    · exact found.1
    · exact absurd missing (by decide +kernel)
  · rcases (exactly dogQuery (by decide)).1 with ⟨-, r, hit, -⟩ | missing
    · have none : (completeRecords catFile).find?
          (fun r => r.word.str = dogQuery.word.str ++ [newline]) = none := by decide +kernel
      rw [none] at hit
      cases hit
    · exact missing.1

/-- What the result of a call is to mean: UNAVAIL if the resource cannot be opened, and
FOUND only with a complete record behind it. -/
def Sound (resource : Option (List Byte)) (q : Dictrec) (result : Int × Dictrec) : Prop :=
  match resource with
  | none => result.1 = UNAVAIL
  | some file => result.1 = FOUND →
      ∃ r ∈ completeRecords file, r.word.str = q.word.str ++ [newline] ∧ result.2.text = r.text

/-- Every call of the sequence returns, with a sound result. -/
def SoundCalls (resource : Option (List Byte)) (queries : List Dictrec) : Prop :=
  ∃ results, calls resource Statics1.initial queries = some results ∧
    List.Forall₂ (Sound resource) queries results

theorem answer_sound_iff (file : List Byte) (q : Dictrec) :
    Sound (some file) q (lookupAnswer file q) ↔
      firstMatch file q = none → ¬ FragmentHit file q := by
  cases found : firstMatch file q with
  | some r =>
    have result : lookupAnswer file q = (FOUND, ⟨restored q.word, r.text⟩) := by
      simp only [lookupAnswer, found]
    have member := List.mem_of_find?_eq_some found
    have word : r.word.str = q.word.str ++ [newline] := by simpa using List.find?_some found
    rw [result]
    simp only [reduceCtorEq, false_implies, iff_true]
    intro _
    exact ⟨r, member, word, rfl⟩
  | none =>
    simp only [true_implies]
    constructor
    · intro sound hit
      have status : (lookupAnswer file q).1 = FOUND := by
        simp only [lookupAnswer, found, if_pos hit]
      obtain ⟨r, member, word, -⟩ := sound status
      exact List.find?_eq_none.mp found r member (by simpa using word)
    · intro clean
      have status : (lookupAnswer file q).1 = NOTFOUND := by
        simp only [lookupAnswer, found, if_neg clean]
      intro hit
      rw [status] at hit
      exact absurd hit (by decide)

/-- No call, or a file in which no query is met by the fragment alone. -/
def Harmless (resource : Option (List Byte)) (queries : List Dictrec) : Prop :=
  match resource with
  | none => queries = []
  | some file => ∀ q ∈ queries, QueryFits q ∧ (firstMatch file q = none → ¬ FragmentHit file q)

/-- A resource that cannot be opened is reported as FOUND, and a fragment at the end of the
file may be; otherwise the results are sound. -/
theorem sound_calls_iff (resource : Option (List Byte)) (queries : List Dictrec) :
    SoundCalls resource queries ↔ Harmless resource queries := by
  cases resource with
  | none =>
    constructor
    · rintro ⟨results, run, sound⟩
      cases sound with
      | nil => rfl
      | @cons q result rest more first _ =>
        have call : lookup1Stream Statics1.initial none q = some (0, q, ⟨false, none⟩) := rfl
        simp only [calls, call, Option.bind_some] at run
        obtain ⟨_, -, same⟩ := Option.map_eq_some_iff.mp run
        cases same
        exact absurd first (by simp [Sound, UNAVAIL])
    · rintro rfl
      exact ⟨[], rfl, .nil⟩
  | some file =>
    have fresh : Statics1.initial.Reads file := Or.inl rfl
    constructor
    · rintro ⟨results, run, sound⟩ q member
      have fits := calls_fit fresh run
      rw [calls_answer fresh fits] at run
      cases run
      have each := (List.forall₂_map_right_iff.mp sound)
      refine ⟨fits q member, (answer_sound_iff file q).mp ?_⟩
      exact List.forall₂_same.mp each q member
    · intro harmless
      refine ⟨_, calls_answer fresh (fun q member => (harmless q member).1), ?_⟩
      rw [List.forall₂_map_right_iff, List.forall₂_same]
      intro q member
      exact (answer_sound_iff file q).mpr (harmless q member).2

/-- FOUND for a resource that cannot be opened, and for the file `cat` of one line, which
holds no record at all. -/
theorem unsound_found :
    calls none Statics1.initial [catQuery] = some [(FOUND, catQuery)] ∧
      ¬ SoundCalls none [catQuery] ∧
      completeRecords [99, 97, 116, 10] = [] ∧
      (∃ found, calls (some [99, 97, 116, 10]) Statics1.initial [catQuery] =
        some [(FOUND, found)]) ∧
      ¬ SoundCalls (some [99, 97, 116, 10]) [catQuery] := by
  have fragmentHit : firstMatch [99, 97, 116, 10] catQuery = none ∧
      FragmentHit [99, 97, 116, 10] catQuery := by decide +kernel
  refine ⟨rfl, ?_, rfl, ?_, ?_⟩
  · rw [sound_calls_iff]
    exact List.cons_ne_nil _ _
  · have run : calls (some [99, 97, 116, 10]) Statics1.initial [catQuery] =
        some ([catQuery].map (lookupAnswer [99, 97, 116, 10])) :=
      calls_answer (Or.inl rfl) (by decide)
    have hit : (lookupAnswer [99, 97, 116, 10] catQuery).1 = FOUND := by
      simp only [lookupAnswer, fragmentHit.1, if_pos fragmentHit.2]
    exact ⟨(lookupAnswer [99, 97, 116, 10] catQuery).2, by rw [run, ← hit]; rfl⟩
  · rw [sound_calls_iff]
    intro harmless
    exact (harmless catQuery List.mem_cons_self).2 fragmentHit.1 fragmentHit.2

end Dictionary
