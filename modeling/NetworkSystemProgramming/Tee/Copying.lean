import Mathlib.Data.List.Forall2
import NetworkSystemProgramming.ByteBuffers

/-!
# Copying the standard input

`hw1-1.c`, a `tee`: each turn of its loop reads into a buffer that is zero before, and
writes the string in it to the standard output and to a file. What `read` returns is given
by the turns; files can be opened, and a `write` takes all that it is given.
-/

namespace Tee

open ByteBuffers

def BUF_SIZE : Nat := 1024

abbrev Name := List Byte

/-- One turn of the loop: the bytes that `read` stores, and the memory behind `buf`. -/
structure Turn where
  chunk : List Byte
  behind : List Byte

/-- What `read` can return before the end of the input. -/
structure Turn.Read (turn : Turn) : Prop where
  nonempty : turn.chunk ≠ []
  fits : turn.chunk.length ≤ BUF_SIZE

/-- The bytes that are written: `strlen(buf)` of them. A string that does not end in the
memory behind `buf` either has no length. -/
def Turn.text (turn : Turn) : Option (List Byte) :=
  stringIn (padded BUF_SIZE turn.chunk ++ turn.behind)

structure World where
  stdout : List Byte
  /-- The content of a file, `none` when there is none of this name. -/
  files : Name → Option (List Byte)

inductive Exit where
  | endOfFile
  | writeError
  | openError
  deriving DecidableEq

/-- The argument "-a". -/
def dashA : Name := [45, 97]

def World.setFile (w : World) (name : Name) (content : List Byte) : World :=
  { w with files := Function.update w.files name (some content) }

/-- `open` with O_TRUNC and the `write` behind it. -/
def World.truncate (w : World) (name : Name) (text : List Byte) : World := w.setFile name text

/-- `open` with O_APPEND and the `write` behind it. -/
def World.append (w : World) (name : Name) (text : List Byte) : World :=
  w.setFile name ((w.files name).getD [] ++ text)

/-- The body of the loop behind the `read`. -/
def body (args : List Name) (text : List Byte) (w : World) : Except (Exit × World) World :=
  if text = [] then .error (.writeError, w)
  else
    let w := { w with stdout := w.stdout ++ text }
    let w := match args with
      | [name] => w.truncate name text
      | _ => w
    match args with
    | [] => .ok w
    | first :: rest =>
      if first = dashA then
        match rest with
        | [] => .error (.openError, w)
        | name :: _ => .ok (w.append name text)
      else .ok w

/-- The loop; behind the last turn `read` returns 0. -/
def tee (args : List Name) : List Turn → World → Option (Exit × World)
  | [], w => some (.endOfFile, w)
  | turn :: rest, w => turn.text.bind fun text =>
    match body args text w with
    | .error ending => some ending
    | .ok w => tee args rest w

/-- The ways to call it. -/
inductive Usage where
  | plain
  | file (name : Name) (notOption : name.head? ≠ some 45)
  | append (name : Name)

def Usage.args : Usage → List Name
  | .plain => []
  | .file name _ => [name]
  | .append name => [dashA, name]

def stream (turns : List Turn) : List Byte := turns.flatMap Turn.chunk

/-- What the file has to contain at the end. -/
def FileCopied (usage : Usage) (before after : Name → Option (List Byte)) (input : List Byte) :
    Prop :=
  match usage with
  | .plain => True
  | .file name _ => after name = some input
  | .append name => after name = some ((before name).getD [] ++ input)

/-- The loop ends at the end of the input, with everything copied. -/
def Copies (usage : Usage) (turns : List Turn) (files : Name → Option (List Byte)) : Prop :=
  ∃ w, tee usage.args turns ⟨[], files⟩ = some (.endOfFile, w) ∧ w.stdout = stream turns ∧
    FileCopied usage files w.files (stream turns)

/-! ## What a turn writes -/

/-- The string in `buf` is all that was read. -/
structure Turn.Whole (turn : Turn) : Prop where
  clean : 0 ∉ turn.chunk
  terminated : turn.chunk.length = BUF_SIZE → turn.behind.head? = some 0

section
variable {turn : Turn} {turns : List Turn} {x : List Byte} {texts : List (List Byte)}

theorem text_clean (h : turn.text = some x) : 0 ∉ x := by
  obtain ⟨-, same⟩ := Option.ite_none_right_eq_some.mp h
  exact Option.some.inj same ▸ cstr_clean _

/-- Without a NUL in it, all that was read is written, and perhaps more. -/
theorem chunk_prefix (h : turn.text = some x) (clean : 0 ∉ turn.chunk) : turn.chunk <+: x := by
  obtain ⟨-, same⟩ := Option.ite_none_right_eq_some.mp h
  rw [← Option.some.inj same, padded, List.append_assoc, cstr_append_clean clean]
  exact List.prefix_append _ _

theorem text_eq_chunk_iff (read : turn.Read) : turn.text = some turn.chunk ↔ turn.Whole := by
  have ends (clean : 0 ∉ turn.chunk) : turn.text = some turn.chunk ↔
      (turn.chunk.length = BUF_SIZE → turn.behind.head? = some 0) := by
    rw [Turn.text, stringIn_eq_some_iff clean, padded, List.append_assoc,
      List.prefix_append_right_inj, List.singleton_prefix_iff_head?_eq_some]
    by_cases full : turn.chunk.length = BUF_SIZE
    · rw [full, Nat.sub_self, List.replicate_zero, List.nil_append]
      exact ⟨fun h _ => h, fun h => h rfl⟩
    · have room : BUF_SIZE - turn.chunk.length = (BUF_SIZE - turn.chunk.length - 1) + 1 := by
        have := read.fits
        omega
      rw [room, List.replicate_succ, List.cons_append, List.head?_cons]
      exact iff_of_true rfl (fun h => absurd h full)
  constructor
  · intro same
    have clean := text_clean same
    exact ⟨clean, (ends clean).mp same⟩
  · intro whole
    exact (ends whole.clean).mpr whole.terminated

/-- Blocks that are continued by others add up to the same only when they are the same. -/
theorem eq_of_flatten_eq {blocks : List (List Byte)} (longer : List.Forall₂ (· <+: ·) blocks texts)
    (same : texts.flatten = blocks.flatten) : texts = blocks := by
  have sizes : ∀ {blocks texts : List (List Byte)}, List.Forall₂ (· <+: ·) blocks texts →
      blocks.flatten.length ≤ texts.flatten.length := by
    intro blocks texts longer
    induction longer with
    | nil => exact Nat.le_refl _
    | cons first _ ih =>
      rw [List.flatten_cons, List.flatten_cons, List.length_append, List.length_append]
      exact Nat.add_le_add first.length_le ih
  induction longer with
  | nil => rfl
  | @cons block text blocks texts first rest ih =>
    have length := congrArg List.length same
    have behind := sizes rest
    have front := first.length_le
    rw [List.flatten_cons, List.flatten_cons, List.length_append, List.length_append] at length
    have head : block = text := first.eq_of_length (by omega)
    rw [List.flatten_cons, List.flatten_cons, head] at same
    rw [head, ih (List.append_cancel_left same)]

/-! ## Whole runs -/

/-- The turn writes the text. -/
def Writes (turn : Turn) (text : List Byte) : Prop := turn.text = some text ∧ text ≠ []

/-- What a turn does with its text. -/
def Usage.save (usage : Usage) (text : List Byte) (w : World) : World :=
  let w := { w with stdout := w.stdout ++ text }
  match usage with
  | .plain => w
  | .file name _ => w.truncate name text
  | .append name => w.append name text

theorem body_save (usage : Usage) (nonempty : x ≠ []) (w : World) :
    body usage.args x w = .ok (usage.save x w) := by
  cases usage with
  | plain => simp [body, nonempty, Usage.args, Usage.save]
  | file name notOption =>
    have other : name ≠ dashA := by
      rintro rfl
      exact notOption rfl
    simp [body, nonempty, Usage.args, Usage.save, other]
  | append name => simp [body, nonempty, Usage.args, Usage.save]

def Usage.saveAll (usage : Usage) (texts : List (List Byte)) (w : World) : World :=
  texts.foldl (fun w text => usage.save text w) w

/-- Run lemma: the loop comes to the end of the input when every turn has a text to write. -/
theorem tee_endOfFile_iff (usage : Usage) (turns : List Turn) (w v : World) :
    tee usage.args turns w = some (.endOfFile, v) ↔
      ∃ texts, List.Forall₂ Writes turns texts ∧ v = usage.saveAll texts w := by
  induction turns generalizing w with
  | nil => simp [tee, Usage.saveAll, eq_comm]
  | cons turn rest ih =>
    rw [tee]
    constructor
    · intro ends
      obtain ⟨text, here, step⟩ := Option.bind_eq_some_iff.mp ends
      by_cases nonempty : text = []
      · simp [body, nonempty] at step
      · rw [body_save usage nonempty] at step
        obtain ⟨texts, others, same⟩ := (ih _).mp step
        exact ⟨text :: texts, .cons ⟨here, nonempty⟩ others, same⟩
    · rintro ⟨_, all, same⟩
      cases all with
      | @cons _ text _ texts first others =>
        rw [first.1, Option.bind_some, body_save usage first.2]
        exact (ih _).mpr ⟨texts, others, same⟩

theorem saveAll_stdout (usage : Usage) (texts : List (List Byte)) (w : World) :
    (usage.saveAll texts w).stdout = w.stdout ++ texts.flatten := by
  induction texts generalizing w with
  | nil => simp [Usage.saveAll]
  | cons text texts ih =>
    have first : (usage.save text w).stdout = w.stdout ++ text := by cases usage <;> rfl
    rw [List.flatten_cons, ← List.append_assoc, ← first]
    exact ih (usage.save text w)

/-- Every turn truncates the file, so the last text is left in it. -/
theorem saveAll_file {name : Name} (notOption : name.head? ≠ some 45) (w : World) :
    ((Usage.file name notOption).saveAll texts w).files name =
      texts.getLast?.or (w.files name) := by
  induction texts generalizing w with
  | nil => rfl
  | cons text texts ih =>
    have first : ((Usage.file name notOption).save text w).files name = some text :=
      Function.update_self ..
    have later := ih ((Usage.file name notOption).save text w)
    rw [first] at later
    rw [List.getLast?_cons, Option.some_or]
    refine later.trans ?_
    cases texts.getLast? <;> rfl

theorem saveAll_append {name : Name} (w : World) :
    ((Usage.append name).saveAll texts w).files name =
      if texts = [] then w.files name else some ((w.files name).getD [] ++ texts.flatten) := by
  induction texts generalizing w with
  | nil => rfl
  | cons text texts ih =>
    have first : ((Usage.append name).save text w).files name =
        some ((w.files name).getD [] ++ text) := Function.update_self ..
    have later := ih ((Usage.append name).save text w)
    rw [first] at later
    rw [if_neg (List.cons_ne_nil text texts), List.flatten_cons, ← List.append_assoc]
    refine later.trans ?_
    by_cases last : texts = []
    · simp [last]
    · rw [if_neg last, Option.getD_some]

theorem texts_clean (written : List.Forall₂ Writes turns texts) : 0 ∉ texts.flatten := by
  induction written with
  | nil => exact List.not_mem_nil
  | cons first _ ih =>
    rw [List.flatten_cons, List.mem_append]
    rintro (zero | zero)
    · exact text_clean first.1 zero
    · exact ih zero

/-- The texts of a run that copies everything are what was read. -/
theorem texts_eq_chunks (written : List.Forall₂ Writes turns texts)
    (same : texts.flatten = stream turns) : texts = turns.map Turn.chunk := by
  have clean := texts_clean written
  rw [same] at clean
  have chunks : ∀ turn ∈ turns, 0 ∉ turn.chunk := fun turn member zero =>
    clean (List.mem_flatMap.mpr ⟨turn, member, zero⟩)
  apply eq_of_flatten_eq
  · rw [List.forall₂_map_left_iff]
    refine ((List.forall₂_and_left _ _).mpr ⟨chunks, written⟩).imp ?_
    rintro turn text ⟨clean, h, -⟩
    exact chunk_prefix h clean
  · exact same

theorem writes_chunks_iff (reads : ∀ turn ∈ turns, turn.Read) :
    List.Forall₂ Writes turns (turns.map Turn.chunk) ↔ ∀ turn ∈ turns, turn.Whole := by
  rw [List.forall₂_map_right_iff, List.forall₂_same]
  apply forall₂_congr
  intro turn member
  have read := reads turn member
  rw [Writes, text_eq_chunk_iff read]
  exact and_iff_left read.nonempty

end

/-! ## When everything is copied -/

/-- What the way to call it needs of the input and the file: a file that is truncated in
every turn holds one turn only, and without input no file is opened. -/
def FileInPlace (usage : Usage) (turns : List Turn) (files : Name → Option (List Byte)) : Prop :=
  match usage with
  | .plain => True
  | .file name _ => turns.length = 1 ∨ turns = [] ∧ files name = some []
  | .append name => turns ≠ [] ∨ (files name).isSome

section
variable {turns : List Turn} {files : Name → Option (List Byte)}

/-- The last of several turns is not all of the input. -/
theorem last_chunk_iff (reads : ∀ turn ∈ turns, turn.Read) (old : Option (List Byte)) :
    (turns.map Turn.chunk).getLast?.or old = some (stream turns) ↔
      turns.length = 1 ∨ turns = [] ∧ old = some [] := by
  rcases List.eq_nil_or_concat turns with rfl | ⟨front, last, rfl⟩
  · simp [stream]
  · have kept : ((front.concat last).map Turn.chunk).getLast? = some last.chunk := by simp
    have input : stream (front.concat last) = stream front ++ last.chunk := by simp [stream]
    rw [kept, Option.some_or, Option.some.injEq, input, List.self_eq_append_left]
    constructor
    · intro nothing
      left
      cases front with
      | nil => rfl
      | cons turn front =>
        have read := reads turn (by simp)
        exact absurd (List.append_eq_nil_iff.mp nothing).1 read.nonempty
    · rintro (one | ⟨none_left, -⟩)
      · have empty : front = [] := by simpa using one
        rw [empty]
        rfl
      · simp at none_left

theorem fileCopied_iff (usage : Usage) (reads : ∀ turn ∈ turns, turn.Read) :
    FileCopied usage files (usage.saveAll (turns.map Turn.chunk) ⟨[], files⟩).files (stream turns) ↔
      FileInPlace usage turns files := by
  cases usage with
  | plain => exact Iff.rfl
  | file name notOption =>
    rw [FileCopied, saveAll_file]
    exact last_chunk_iff reads _
  | append name =>
    rw [FileCopied, saveAll_append, FileInPlace]
    cases turns with
    | nil => cases found : files name <;> simp [found, stream]
    | cons turn rest => simp [stream, List.flatMap_def]

/-- The loop copies its input exactly when every turn reads a string and the file can
keep it. -/
theorem copies_iff (usage : Usage) (reads : ∀ turn ∈ turns, turn.Read) :
    Copies usage turns files ↔ (∀ turn ∈ turns, turn.Whole) ∧ FileInPlace usage turns files := by
  rw [← writes_chunks_iff reads, ← fileCopied_iff usage reads]
  constructor
  · rintro ⟨w, ends, stdout, copied⟩
    obtain ⟨texts, written, rfl⟩ := (tee_endOfFile_iff usage turns _ w).mp ends
    rw [saveAll_stdout, List.nil_append] at stdout
    obtain rfl := texts_eq_chunks written stdout
    exact ⟨written, copied⟩
  · rintro ⟨written, copied⟩
    refine ⟨_, (tee_endOfFile_iff usage turns _ _).mpr ⟨_, written, rfl⟩, ?_, copied⟩
    rw [saveAll_stdout, List.nil_append, stream, List.flatMap_def]

end

/-- "hello" and a newline, in two turns. -/
private def hello : List Turn := [⟨[104, 101, 108], []⟩, ⟨[108, 111, 10], []⟩]

private theorem hello_reads : ∀ turn ∈ hello, turn.Read := by
  simp only [hello, List.forall_mem_cons]
  exact ⟨⟨by decide, by decide⟩, ⟨by decide, by decide⟩, by simp⟩

theorem hello_appended : Copies (.append [102]) hello (fun _ => some [97, 10]) := by
  refine (copies_iff (.append [102]) hello_reads).mpr ⟨?_, Or.inl (by decide)⟩
  simp only [hello, List.forall_mem_cons]
  exact ⟨⟨by decide, by decide⟩, ⟨by decide, by decide⟩, by simp⟩

/-- The file "f" is left with what the second turn has read, and of "a", a NUL and "b"
only the "a" comes out. -/
theorem tee_loses_input : (∀ turn ∈ hello, turn.Read) ∧
    ¬ Copies (.file [102] (by decide)) hello (fun _ => none) ∧
    ¬ Copies .plain [⟨[97, 0, 98], []⟩] (fun _ => none) := by
  have left_in_file : (tee [[102]] hello ⟨[], fun _ => none⟩).map (fun r => r.2.files [102]) =
      some (some [108, 111, 10]) := by decide +kernel
  have printed : (tee [] [⟨[97, 0, 98], []⟩] ⟨[], fun _ => none⟩).map (fun r => r.2.stdout) =
      some [97] := by decide +kernel
  refine ⟨hello_reads, ?_, ?_⟩
  · rintro ⟨w, ends, -, copied⟩
    rw [show tee [[102]] hello ⟨[], fun _ => none⟩ = _ from ends] at left_in_file
    have content : w.files [102] = some [108, 111, 10] := Option.some.inj left_in_file
    have whole : w.files [102] = some (stream hello) := copied
    rw [content] at whole
    exact absurd whole (by decide)
  · rintro ⟨w, ends, stdout, -⟩
    rw [show tee [] [⟨[97, 0, 98], []⟩] ⟨[], fun _ => none⟩ = _ from ends] at printed
    have content : w.stdout = [97] := Option.some.inj printed
    rw [content] at stdout
    exact absurd stdout (by decide)

end Tee
