import NetworkSystemProgramming.Dictionary.RoundTrip
import NetworkSystemProgramming.Dictionary.BinaryLookup

/-!
# The linear and the binary lookup

Both versions of `lookup` on the file that `convert` writes. `convert` leaves the newline
behind the headword; `lookup1.c` puts one behind the query before it compares, and
`lookup5.c` compares the query as it is.
-/

namespace Dictionary

open ByteBuffers BinarySearch

/-- Whatever calls were made before, both versions return the same status for a query, and
the same text when it is found. -/
def LookupsAgree (d : Source) (query : List Byte) : Prop :=
  ∃ records, convert d.file = some records ∧
    ∀ (st1 : Lookup1) (st5 : Lookup5) (sought : Dictrec),
      st1.firstTime = true ∨ st1.inFile = some (outFile records) →
      st5.Ready (outFile records) → sought.word.str = query →
        ∃ status found1 st1' found5 st5',
          lookup1 st1 (some (outFile records)) sought = some (status, found1, st1') ∧
          lookup5 st5 (some (outFile records)) sought = .ok (status, found5, st5') ∧
          (status = FOUND → found1.text.str = found5.text.str)

/-- The stored words all end with a newline, so a query without one is in no record. -/
theorem lookup5_notFound (d : Source) {st : Lookup5}
    (counted : Counted (d.entries.map Entry.record))
    (ready : st.Ready (outFile (d.entries.map Entry.record))) {sought : Dictrec}
    (clean : newline ∉ sought.word.str) :
    lookup5 st (some (outFile (d.entries.map Entry.record))) sought =
      .ok (NOTFOUND, sought, Lookup5.mapped (outFile (d.entries.map Entry.record))) := by
  have missing : findRecord (d.entries.map Entry.record) sought.word.str = none := by
    cases search : findRecord (d.entries.map Entry.record) sought.word.str with
    | none => rfl
    | some r =>
      obtain ⟨member, equal⟩ := bsearch_sound search
      obtain ⟨e, -, rfl⟩ := List.mem_map.mp (mem_of_searched member)
      have same := (strcmp_eq_iff _ _).mp equal
      have word : cstr e.record.word.bytes = e.headword ++ [newline] := e.record_word
      rw [word, Buffer.str, cstr_of_clean (cstr_clean _)] at same
      change sought.word.str = _ at same
      exact absurd (by simp [same]) clean
  rw [lookup5_ready counted ready, missing]

/-- The linear search finds nothing for a query that is no headword. -/
theorem lookup1_notFound (d : Source) {st : Lookup1}
    (opened : st.firstTime = true ∨ st.inFile = some (outFile (d.entries.map Entry.record)))
    {sought : Dictrec} (room : sought.word.str.length ≤ 30)
    (missing : sought.word.str ∉ d.entries.map Entry.headword) :
    ∃ found st', lookup1 st (some (outFile (d.entries.map Entry.record))) sought =
      some (NOTFOUND, found, st') := by
  obtain ⟨w, st', word, _, _, call⟩ := lookup1_records opened sought (by
    have size : WORD = 32 := rfl
    omega)
  have none : (d.entries.map Entry.record).find?
      (fun r => r.word.str = sought.word.str ++ [newline]) = none := by
    rw [List.find?_eq_none]
    rintro r member found
    obtain ⟨e, he, rfl⟩ := List.mem_map.mp member
    have same : e.headword ++ [newline] = sought.word.str ++ [newline] := by
      simpa [e.record_word] using found
    apply missing
    rw [← List.append_cancel_right same]
    exact List.mem_map_of_mem he
  have inside : w.str.length - 1 < WORD := by
    have size : WORD = 32 := rfl
    have length := congrArg List.length word
    rw [List.length_append, List.length_singleton] at length
    omega
  rw [none] at call
  simp only [Buffer.store, if_pos inside, Option.map_some] at call
  exact ⟨_, st', call⟩

/-- Where `numrec` is negative the binary search has no result. -/
theorem agree_counted (d : Source) {query : List Byte} (clean : 0 ∉ query)
    (short : query.length ≤ 30) (agree : LookupsAgree d query) :
    Counted (d.entries.map Entry.record) := by
  by_contra uncounted
  obtain ⟨records, written, same⟩ := agree
  rw [convert_source] at written
  cases written
  have size : WORD = 32 := rfl
  let sought : Dictrec := ⟨.ofString WORD query (by omega), .zero TEXT⟩
  have key : sought.word.str = query := cstr_padded clean (by omega)
  obtain ⟨status, found1, st1', found5, st5', -, binary, -⟩ :=
    same Lookup1.initial Lookup5.initial sought (Or.inl rfl) (Or.inl rfl) key
  rw [← completeRecords_outFile (d.entries.map Entry.record)] at uncounted
  rw [lookup5_uncounted uncounted (Or.inl rfl)] at binary
  cases binary

/-- The linear search finds a headword and the binary search does not. -/
theorem lookups_differ (d : Source) {e : Entry} (he : e ∈ d.entries) :
    ¬ LookupsAgree d e.headword := by
  intro agrees
  have short := e.headword_short
  have size : WORD = 32 := rfl
  have counted := agree_counted d e.headword_clean.2 short agrees
  obtain ⟨records, written, agree⟩ := agrees
  rw [convert_source] at written
  cases written
  let sought : Dictrec := ⟨.ofString WORD e.headword (by omega), .zero TEXT⟩
  have key : sought.word.str = e.headword := cstr_padded e.headword_clean.2 (by omega)
  obtain ⟨status, found1, st1', found5, st5', linear, binary, -⟩ :=
    agree Lookup1.initial Lookup5.initial sought (Or.inl rfl) (Or.inl rfl) key
  have fresh : Lookup1.initial.firstTime = true := rfl
  obtain ⟨found, st', hit, -⟩ := lookup_headword d he (Or.inl fresh) key
  rw [hit] at linear
  rw [lookup5_notFound d counted (Or.inl rfl) (key ▸ e.headword_clean.1)] at binary
  simp only [Option.some.injEq, Prod.mk.injEq, Except.ok.injEq] at linear binary
  exact absurd (linear.1.trans binary.1.symm) (by decide)

/-- The two versions agree exactly on the words that are not in the dictionary, where `numrec`
is not negative. -/
theorem lookups_agree_iff (d : Source) {query : List Byte} (short : query.length ≤ 30)
    (clean : 0 ∉ query ∧ newline ∉ query) :
    LookupsAgree d query ↔
      query ∉ d.entries.map Entry.headword ∧ Counted (d.entries.map Entry.record) := by
  constructor
  · intro agree
    refine ⟨?_, agree_counted d clean.1 short agree⟩
    intro member
    obtain ⟨e, he, rfl⟩ := List.mem_map.mp member
    exact lookups_differ d he agree
  · rintro ⟨missing, counted⟩
    refine ⟨_, convert_source d, ?_⟩
    intro st1 st5 sought opened ready key
    subst key
    obtain ⟨found, st', linear⟩ := lookup1_notFound d opened short missing
    exact ⟨NOTFOUND, found, st', sought, _, linear, lookup5_notFound d counted ready clean.2,
      fun status => absurd status (by decide)⟩

/-- `cat`, with the definition line `a`. -/
private def catEntry : Entry where
  headword := [99, 97, 116]
  definition := [[97]]
  headword_nonempty := oneLine.headword_nonempty
  headword_short := oneLine.headword_short
  headword_clean := oneLine.headword_clean
  lines_clean := oneLine.lines_clean
  fits := oneLine.fits

/-- Both versions miss the query `dog`. -/
theorem lookups_agree_on_dog :
    ∃ d : Source, d.file = [99, 97, 116, 10, 97, 10, 10] ∧ LookupsAgree d [100, 111, 103] :=
  ⟨⟨[catEntry], by simp⟩, by decide, (lookups_agree_iff _ (by decide) (by decide)).mpr (by decide)⟩

/-- `lookup1.c` finds `cat` in the same file and `lookup5.c` does not. -/
theorem lookups_differ_on_cat :
    ∃ d : Source, d.file = [99, 97, 116, 10, 97, 10, 10] ∧
      ((d.entries.map Entry.record).Pairwise fun a b => dictCmp a b = .lt) ∧
      ¬ LookupsAgree d [99, 97, 116] := by
  let d : Source := ⟨[catEntry], by simp⟩
  exact ⟨d, by decide, List.pairwise_singleton _ _,
    lookups_differ d (List.mem_singleton.mpr (rfl : catEntry = catEntry))⟩

end Dictionary
