import NetworkSystemProgramming.Dictionary.RoundTrip

/-!
# The static record of convert

`convert` fills one static record turn after turn and writes its two fields to the
output. The loops that store NUL bytes at the start of a turn leave nothing of the
record before, so the output is that of a fresh record for every entry.
-/

namespace Dictionary

open ByteBuffers

/-- The loops over `k`. -/
def resetRecord (blank : Dictrec) : Option Dictrec :=
  (blank.text.storeFrom 0 (List.replicate TEXT 0)).bind fun text =>
    (blank.word.storeFrom 0 (List.replicate WORD 0)).map fun word => ⟨word, text⟩

/-- The main reading loop with the record that all turns share and the output so far. -/
def mainLoop : Nat → InFile → Dictrec → List Byte → Option (List Byte)
  | 0, _, _, _ => none
  | fuel + 1, f, blank, out =>
    if f.feof then some out
    else
      (resetRecord blank).bind fun blank =>
        let (buffer, f) := getline f
        let word := match buffer with
          | none => some blank.word
          | some line => copyWord 0 (cstr line ++ [0]) blank.word
        word.bind fun word =>
          (readDefinition f.lines f.feof 0 blank.text).bind fun (text, f) =>
            mainLoop fuel f ⟨word, text⟩
              (if f.feof then out else out ++ word.bytes ++ text.bytes)

/-- What `main` writes; `blank` is what the static record holds at first. -/
def convertOutput (blank : Dictrec) (file : List Byte) : Option (List Byte) :=
  mainLoop ((splitLines file).length + 2) (fopen file) blank []

theorem resetRecord_eq (blank : Dictrec) :
    resetRecord blank = some ⟨.zero WORD, .zero TEXT⟩ := by
  have text := blank.text.storeFrom_all (List.length_replicate (n := TEXT) (a := (0 : Byte)))
  have word := blank.word.storeFrom_all (List.length_replicate (n := WORD) (a := (0 : Byte)))
  rw [resetRecord, text, Option.bind_some, word]
  rfl

/-- The shared record does not show: the output is that of the loop over fresh records. -/
theorem mainLoop_eq (fuel : Nat) (f : InFile) (blank : Dictrec) (out : List Byte) :
    mainLoop fuel f blank out = (convertLoop fuel f).map (out ++ outFile ·) := by
  induction fuel generalizing f blank out with
  | zero => rfl
  | succ fuel ih =>
    by_cases done : f.feof = true
    · simp [mainLoop, convertLoop, done, outFile]
    · simp only [mainLoop, convertLoop, if_neg done, resetRecord_eq, Option.bind_some, ih,
        Option.map_bind, Function.comp_def, Option.map_map]
      congr 1
      funext word
      congr 1
      funext read
      obtain ⟨text, f⟩ := read
      congr 1
      funext records
      by_cases ended : f.feof = true
      · simp [ended]
      · simp [ended, outFile, Dictrec.bytes]

theorem convertOutput_eq (blank : Dictrec) (file : List Byte) :
    convertOutput blank file = (convert file).map outFile := by
  rw [convertOutput, mainLoop_eq]
  rfl

/-- The record of an entry, byte by byte. -/
def Entry.format (e : Entry) : List Byte :=
  padded WORD (e.headword ++ [newline]) ++ padded TEXT (e.definition.flatMap (· ++ [newline, 0]))

theorem Entry.record_bytes (e : Entry) : e.record.bytes = e.format := rfl

/-- The output is one record of 512 bytes an entry, in the order of the source. -/
theorem convert_format (blank : Dictrec) (entries : List Entry) :
    convertOutput blank (entries.flatMap Entry.render) = some (entries.flatMap Entry.format) ∧
      (∀ e ∈ entries, e.format.length = 512) ∧
      (entries.flatMap Entry.format).length = 512 * entries.length := by
  have same : outFile (entries.map Entry.record) = entries.flatMap Entry.format := by
    rw [outFile, List.flatMap_map]
    rfl
  refine ⟨?_, ?_, ?_⟩
  · rw [convertOutput_eq, convert_entries, Option.map_some, same]
  · intro e _
    rw [← e.record_bytes, e.record.length_bytes]
    rfl
  · rw [← same, length_outFile, List.length_map]
    rfl

end Dictionary
