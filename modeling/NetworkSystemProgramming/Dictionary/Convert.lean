import NetworkSystemProgramming.Dictionary.Dictrec

/-!
# From dictionary text to fixed-size records

The reading loop of `convert.c`. A text file is the list of its lines, each with
its newline, the last one perhaps without; `getline` takes the next line and sets
the end-of-file indicator when it meets the end. The loop variables `i` and
`index` are those of the source, and a store outside a field ends the model.
-/

namespace Dictionary

open ByteBuffers

/-- Cut a file behind every newline. -/
def splitLines : List Byte → List (List Byte)
  | [] => []
  | c :: rest =>
    if c = newline then [c] :: splitLines rest
    else match splitLines rest with
      | [] => [[c]]
      | line :: lines => (c :: line) :: lines

theorem splitLines_line {line : List Byte} (rest : List Byte) (hl : newline ∉ line) :
    splitLines (line ++ newline :: rest) = (line ++ [newline]) :: splitLines rest := by
  induction line with
  | nil => simp [splitLines]
  | cons c line ih =>
    have hc : c ≠ newline := by intro h; exact hl (by simp [h])
    have hrest : newline ∉ line := fun h => hl (List.mem_cons_of_mem c h)
    simp [splitLines, hc, ih hrest]

/-- A file open for reading. -/
structure InFile where
  lines : List (List Byte)
  feof : Bool

def fopen (file : List Byte) : InFile := ⟨splitLines file, false⟩

/-- `getline`: the next line, or -1 (`none`) at the end. The end is also met by a
last line without newline. -/
def getline (f : InFile) : Option (List Byte) × InFile :=
  match f.lines with
  | [] => (none, ⟨[], true⟩)
  | line :: rest => (some line, ⟨rest, f.feof || line.getLast? ≠ some newline⟩)

/-- The loop over `i`, from the byte `i` of the line on. -/
def copyWord : Nat → List Byte → Buffer WORD → Option (Buffer WORD)
  | _, [], word => some word
  | i, c :: rest, word =>
    (word.store i c).bind fun word =>
      if i = 0 ∧ c = newline then some word else copyWord (i + 1) rest word

/-- The definition loop: every line with its terminating NUL from `text[index]` on,
up to a blank line or the end of the file. -/
def readDefinition : List (List Byte) → Bool → Nat → Buffer TEXT → Option (Buffer TEXT × InFile)
  | [], _, _, text => some (text, ⟨[], true⟩)
  | line :: rest, feof, index, text =>
    let feof := feof || line.getLast? ≠ some newline
    if cstr line = [newline] then some (text, ⟨rest, feof⟩)
    else (text.storeFrom index (cstr line ++ [0])).bind
      (readDefinition rest feof (index + ((cstr line).length + 1)))

/-- The main reading loop; the result is the records in the order they are written. -/
def convertLoop : Nat → InFile → Option (List Dictrec)
  | 0, _ => none
  | fuel + 1, f =>
    if f.feof then some []
    else
      let (buffer, f) := getline f
      let word := match buffer with
        | none => some (Buffer.zero WORD)
        | some line => copyWord 0 (cstr line ++ [0]) (Buffer.zero WORD)
      word.bind fun word =>
        (readDefinition f.lines f.feof 0 (Buffer.zero TEXT)).bind fun (text, f) =>
          (convertLoop fuel f).map fun records =>
            if f.feof then records else ⟨word, text⟩ :: records

/-- `convert`: every turn of the loop reads a line or sets the indicator, so two turns
more than there are lines suffice. -/
def convert (file : List Byte) : Option (List Dictrec) :=
  convertLoop ((splitLines file).length + 2) (fopen file)

end Dictionary
