import NetworkSystemProgramming.Dictionary.LinearLookup
import NetworkSystemProgramming.Dictionary.BinaryLookup

/-!
# The stream of the linear lookup

`lookup1.c` keeps its FILE from call to call, and leaves it wherever the search stopped.
Here the position is part of the state; `rewind` makes every call a search of the whole
file, which is what `lookup1` computes.
-/

namespace Dictionary

open ByteBuffers

/-- A FILE open for reading. -/
structure Stream where
  content : List Byte
  position : Nat

namespace Stream

/-- `fopen` of an existing file. -/
def fopen (content : List Byte) : Stream := ⟨content, 0⟩

def rewind (s : Stream) : Stream := { s with position := 0 }

/-- What has not been read yet. -/
def rest (s : Stream) : List Byte := s.content.drop s.position

/-- `fread` of single bytes: the count, the buffer and the stream behind what was read. -/
def fread {n : Nat} (s : Stream) (b : Buffer n) : Nat × Buffer n × Stream :=
  let block := s.rest.take n
  (block.length, b.receive block, { s with position := s.position + block.length })

theorem fread_count {n : Nat} (s : Stream) (b : Buffer n) :
    (s.fread b).1 = (Dictionary.fread b s.rest).1 := rfl

theorem fread_buffer {n : Nat} (s : Stream) (b : Buffer n) :
    (s.fread b).2.1 = (Dictionary.fread b s.rest).2.1 := by
  apply Buffer.ext
  simp [fread, Dictionary.fread, Buffer.receive, List.take_take]

theorem fread_rest {n : Nat} (s : Stream) (b : Buffer n) :
    (s.fread b).2.2.rest = (Dictionary.fread b s.rest).2.2 := by
  simp only [fread, Dictionary.fread, rest, ← List.drop_drop, List.length_take]
  by_cases all : (s.content.drop s.position).length ≤ n
  · rw [Nat.min_eq_right all, List.drop_length, List.drop_of_length_le all]
  · rw [Nat.min_eq_left (by omega)]

theorem fread_content {n : Nat} (s : Stream) (b : Buffer n) :
    (s.fread b).2.2.content = s.content := rfl

@[simp] theorem rewind_content (s : Stream) : s.rewind.content = s.content := rfl

@[simp] theorem rewind_rest (s : Stream) : s.rewind.rest = s.content := rfl

end Stream

/-- The search loop with the stream it leaves behind. -/
def searchStream : Nat → Stream → Buffer WORD → Buffer TEXT → Dictrec →
    Option (Int × Dictrec × Stream)
  | 0, _, _, _, _ => none
  | fuel + 1, stream, word, text, sought =>
    let (count, word, stream) := stream.fread word
    if count = 0 then
      (sought.word.store (sought.word.str.length - 1) 0).map fun w =>
        (NOTFOUND, { sought with word := w }, stream)
    else if strcmp word.bytes sought.word.bytes ≠ .eq then
      let (_, text, stream) := stream.fread text
      searchStream fuel stream word text sought
    else
      (sought.word.store (word.str.length - 1) 0).map fun w =>
        let (_, text, stream) := stream.fread sought.text
        (FOUND, { word := w, text }, stream)

/-- The static variables `first_time` and `in`. -/
structure Statics1 where
  firstTime : Bool
  inFile : Option Stream

namespace Statics1

def initial : Statics1 := ⟨true, none⟩

/-- The first call opens the file. -/
def opened (st : Statics1) (resource : Option (List Byte)) : Statics1 :=
  if st.firstTime then ⟨false, resource.map Stream.fopen⟩ else st

/-- The static variables without the position. -/
def forget (st : Statics1) : Lookup1 := ⟨st.firstTime, st.inFile.map Stream.content⟩

theorem opened_forget (st : Statics1) (resource : Option (List Byte)) :
    (st.opened resource).forget =
      if st.forget.firstTime then ⟨false, resource⟩ else st.forget := by
  by_cases first : st.firstTime = true
  · cases resource <;> simp [opened, first, forget, Stream.fopen]
  · simp [opened, first, forget]

end Statics1

/-- `lookup` of `lookup1.c`. When the file cannot be opened the first call returns 0, and
the next one hands a null pointer to `rewind`. -/
def lookup1Stream (st : Statics1) (resource : Option (List Byte)) (sought : Dictrec) :
    Option (Int × Dictrec × Statics1) :=
  match (st.opened resource).inFile with
  | none => if st.firstTime then some (0, sought, st.opened resource) else none
  | some stream =>
    let stream := stream.rewind
    (sought.word.put (sought.word.str ++ [newline, 0])).bind fun w =>
      (searchStream (stream.content.length + 1) stream (Buffer.zero 32) (Buffer.zero 480)
        { sought with word := w }).map fun (status, found, stream) =>
          (status, found, { st.opened resource with inFile := some stream })

/-- Only what is left of the file counts. -/
theorem searchStream_eq (fuel : Nat) (stream : Stream) (word : Buffer WORD) (text : Buffer TEXT)
    (sought : Dictrec) :
    (searchStream fuel stream word text sought).map
        (fun (status, found, after) => (status, found, after.content)) =
      (search fuel stream.rest word text sought).map
        fun (status, found) => (status, found, stream.content) := by
  induction fuel generalizing stream word text with
  | zero => rfl
  | succ fuel ih =>
    have count := stream.fread_count word
    have buffer := stream.fread_buffer word
    have left := stream.fread_rest word
    have content := stream.fread_content word
    obtain ⟨n, word', stream', read⟩ : ∃ n w s, stream.fread word = (n, w, s) := ⟨_, _, _, rfl⟩
    obtain ⟨n1, word1, rest1, read1⟩ :
        ∃ n w s, fread word stream.rest = (n, w, s) := ⟨_, _, _, rfl⟩
    simp only [read, read1] at count buffer left content
    subst count buffer left
    simp only [searchStream, search, read, read1]
    split
    · simp [Option.map_map, Function.comp_def, content]
    · split
      · rw [ih, Stream.fread_rest, Stream.fread_buffer, Stream.fread_content, content]
      · rw [Option.map_map, Option.map_map, Stream.fread_buffer, ← content]
        rfl

/-- The position does not show in the answers. -/
theorem lookup1Stream_forget (st : Statics1) (resource : Option (List Byte))
    (sought : Dictrec) :
    (lookup1Stream st resource sought).map
        (fun (status, found, after) => (status, found, after.forget)) =
      lookup1 st.forget resource sought := by
  have forgotten := st.opened_forget resource
  cases held : (st.opened resource).inFile with
  | none =>
    have unopened : (st.opened resource).forget.inFile = none := by
      simp [Statics1.forget, held]
    simp only [lookup1Stream, lookup1, ← forgotten, held, unopened]
    by_cases first : st.firstTime = true <;> simp [Statics1.forget, first]
  | some stream =>
    have content : (st.opened resource).forget.inFile = some stream.content := by
      simp [Statics1.forget, held]
    simp only [lookup1Stream, lookup1, ← forgotten, held, content]
    cases sought.word.put (sought.word.str ++ [newline, 0]) with
    | none => rfl
    | some w =>
      have same := searchStream_eq (stream.content.length + 1) stream.rewind (Buffer.zero 32)
        (Buffer.zero 480) { sought with word := w }
      have after := congrArg (Option.map fun (status, found, content) =>
        (status, found, (⟨(st.opened resource).firstTime, some content⟩ : Lookup1))) same
      simp only [Option.map_map, Stream.rewind_content, Stream.rewind_rest] at after
      simp only [Option.bind_some, Option.map_map, Stream.rewind_content]
      have kept : (st.opened resource).forget =
          ⟨(st.opened resource).firstTime, some stream.content⟩ := by
        simp [Statics1.forget, held]
      rw [kept]
      exact after

end Dictionary
