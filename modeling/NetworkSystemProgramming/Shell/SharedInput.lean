import NetworkSystemProgramming.Shell.Copies
import NetworkSystemProgramming.Shell.Lines

/-!
# The shell's stdin

`stdin` reads ahead, and its open file is the one that the commands inherit. A child that
comes to `exit` moves the common offset back over what its copy of `stdin` has not used up.
-/

namespace Shell

open ByteBuffers Texts

/-- The open file: its bytes, whether it has an offset that `lseek` can move, and how much
one `read` returns at most. -/
structure Input where
  bytes : List Byte
  seekable : Bool
  size : Nat → Nat
  size_pos : ∀ offset, 0 < size offset

/-- The stream `stdin`, and the offset of its open file. -/
structure Stdin where
  ahead : List Byte
  offset : Nat
  eof : Bool
  deriving DecidableEq

def Stdin.initial : Stdin := ⟨[], 0, false⟩

/-- `read` into the empty buffer. The end of the file is noticed once. -/
def Input.fill (input : Input) (s : Stdin) : Stdin :=
  if s.ahead ≠ [] ∨ s.eof then s
  else
    let block := (input.bytes.drop s.offset).take (input.size s.offset)
    ⟨block, s.offset + block.length, block = []⟩

/-- The bytes up to and with the first newline, but no more than there is room for. -/
def Input.getLine (input : Input) : Nat → Stdin → List Byte × Stdin
  | 0, s => ([], s)
  | room + 1, s =>
    match input.fill s with
    | ⟨[], offset, eof⟩ => ([], ⟨[], offset, eof⟩)
    | ⟨c :: ahead, offset, eof⟩ =>
      if c = newline then ([c], ⟨ahead, offset, eof⟩)
      else
        let (line, s) := input.getLine room ⟨ahead, offset, eof⟩
        (c :: line, s)

/-- `fgets`: what it stores in front of the NUL; NULL when it gets nothing. -/
def Input.fgets (input : Input) (size : Nat) (s : Stdin) : Option (List Byte × Stdin) :=
  match input.getLine (size - 1) s with
  | ([], _) => none
  | (line, s) => some (line, s)

/-- What a command does to the offset of the open file. -/
inductive Touch where
  /-- The child of a command, counted from 0, calls `exit`. -/
  | exits (command : Nat)
  /-- A program that was exec'd has read or moved. -/
  | moves (offset : Nat)
  deriving DecidableEq

/-- `lseek` by so many bytes back, which does not go in front of the start. -/
def Input.seekBack (input : Input) (count : Nat) (s : Stdin) : Stdin :=
  if input.seekable ∧ count ≤ s.offset then { s with offset := s.offset - count } else s

/-- `forks` are the numbers of bytes that had been read ahead when the commands started. -/
def Input.touch (input : Input) (forks : List Nat) (s : Stdin) : Touch → Stdin
  | .exits command =>
    match forks[command]? with
    | some count => input.seekBack count s
    | none => s
  | .moves offset => { s with offset }

/-- A vector that the loop hands to `is_builtin` and `run_command`, and how much of `stdin`
has been read ahead by then. -/
structure Handed where
  vector : Block
  ahead : Nat
  deriving DecidableEq

/-- The vectors of so many turns of the loop in `main`, when each command returns to the loop.
`touches` is what happens to the open file behind each command. -/
def Version.mainLoop (v : Version) (input : Input) (touches : Nat → List Touch) :
    Nat → List Nat → Stdin → List Handed
  | 0, _, _ => []
  | turns + 1, forks, stdin =>
    match input.fgets LONGLINE stdin with
    | none => []
    | some (line, stdin) =>
      match v.parse (cstr line) with
      | none => v.mainLoop input touches turns forks stdin
      | some myArgv =>
        let forks' := forks ++ [stdin.ahead.length]
        ⟨myArgv, stdin.ahead.length⟩ ::
          v.mainLoop input touches turns forks'
            ((touches forks.length).foldl (input.touch forks') stdin)

/-! ## One line -/

section
variable {input : Input} {s : Stdin}

/-- The bytes that the stream has still to give. -/
def Input.left (input : Input) (s : Stdin) : List Byte :=
  s.ahead ++ if s.eof then [] else input.bytes.drop s.offset

theorem Input.left_fill (input : Input) (s : Stdin) : input.left (input.fill s) = input.left s := by
  by_cases busy : s.ahead ≠ [] ∨ s.eof
  · rw [Input.fill, if_pos busy]
  obtain ⟨empty, more⟩ : s.ahead = [] ∧ s.eof = false := by simpa using busy
  by_cases nothing : (input.bytes.drop s.offset).take (input.size s.offset) = []
  · have rest : input.bytes.drop s.offset = [] := by
      rcases List.take_eq_nil_iff.mp nothing with none | rest
      · exact absurd none (Nat.ne_of_gt (input.size_pos s.offset))
      · exact rest
    simp [Input.fill, Input.left, empty, more, rest]
  · have rejoined := List.prefix_iff_eq_append.mp
      (List.take_prefix (input.size s.offset) (input.bytes.drop s.offset))
    rw [Input.fill, if_neg busy]
    simp only [Input.left, nothing, decide_false, Bool.false_eq_true, if_false, empty, more,
      List.nil_append]
    rw [← List.drop_drop]
    exact rejoined

/-- After a `read` there is something ahead, unless nothing is left. -/
theorem Input.fill_empty (empty : (input.fill s).ahead = []) : input.left s = [] := by
  by_cases busy : s.ahead ≠ [] ∨ s.eof
  · rw [Input.fill, if_pos busy] at empty
    have ended : s.eof = true := busy.resolve_left fun other => other empty
    rw [Input.left, empty, ended]
    rfl
  · rw [Input.fill, if_neg busy] at empty
    have same := input.left_fill s
    rw [Input.fill, if_neg busy] at same
    rw [← same, Input.left]
    simp only at empty
    simp [empty]

/-- The bytes of the line are taken off what is left. -/
theorem Input.getLine_eq (input : Input) (room : Nat) (s : Stdin) :
    (input.getLine room s).1 = upToNewline room (input.left s) ∧
      input.left (input.getLine room s).2 =
        (input.left s).drop (upToNewline room (input.left s)).length := by
  induction room generalizing s with
  | zero => exact ⟨rfl, rfl⟩
  | succ room ih =>
    have same := input.left_fill s
    cases filled : input.fill s with
    | mk ahead offset eof =>
      cases ahead with
      | nil =>
        have nothing : input.left s = [] := Input.fill_empty (by rw [filled])
        rw [filled, nothing] at same
        simp only [Input.getLine, filled, nothing]
        exact ⟨rfl, same⟩
      | cons c ahead =>
        have rest : input.left s = c :: input.left ⟨ahead, offset, eof⟩ := by
          rw [← same, filled]
          rfl
        by_cases ends : c = newline
        · simp only [Input.getLine, filled, if_pos ends, rest, upToNewline]
          exact ⟨trivial, rfl⟩
        · obtain ⟨line, left⟩ := ih ⟨ahead, offset, eof⟩
          simp only [Input.getLine, filled, if_neg ends, rest, upToNewline]
          exact ⟨congrArg (c :: ·) line, left⟩

theorem Input.fgets_eq (input : Input) (s : Stdin) :
    (input.fgets LONGLINE s = none ∧ takeLine LONGLINE (input.left s) = none) ∨
      ∃ line s', input.fgets LONGLINE s = some (line, s') ∧
        takeLine LONGLINE (input.left s) = some (line, input.left s') := by
  obtain ⟨line, left⟩ := input.getLine_eq (LONGLINE - 1) s
  cases got : input.getLine (LONGLINE - 1) s with
  | mk bytes s' =>
    rw [got] at line left
    simp only at line left
    cases rest : input.left s with
    | nil =>
      rw [rest] at line
      refine Or.inl ⟨?_, rfl⟩
      rw [Input.fgets, got, line]
      rfl
    | cons c more =>
      have some_bytes : upToNewline (LONGLINE - 1) (c :: more) ≠ [] := by
        rw [show LONGLINE - 1 = 253 + 1 from rfl, upToNewline]
        split <;> exact List.cons_ne_nil _ _
      rw [rest] at line left
      refine Or.inr ⟨bytes, s', ?_, ?_⟩
      · rw [Input.fgets, got]
        cases bytes with
        | nil => exact absurd line.symm some_bytes
        | cons b bytes => rfl
      · rw [takeLine, if_neg (List.cons_ne_nil c more), line, left]

/-! ## The loop -/

/-- The offset stays: nothing was ahead in the child, or there is no offset to move. -/
def Touch.Harmless (input : Input) (forks : List Nat) : Touch → Prop
  | .exits command => input.seekable = true → ∀ count ∈ forks[command]?, count = 0
  | .moves _ => False

theorem Touch.Harmless.touch {forks more : List Nat} {t : Touch}
    (harmless : t.Harmless input (forks ++ more)) (s : Stdin) : input.touch forks s t = s := by
  cases t with
  | moves offset => exact harmless.elim
  | exits command =>
    cases fork : forks[command]? with
    | none => simp [Input.touch, fork]
    | some count =>
      simp only [Input.touch, fork, Input.seekBack]
      split
      · rename_i back
        have forked := (List.getElem?_eq_some_iff.mp fork).1
        have nothing : count = 0 := harmless back.1 count (by
          rw [List.getElem?_append_left forked, fork]
          rfl)
        rw [nothing]
        rfl
      · rfl

theorem foldl_harmless {forks more : List Nat} {touches : List Touch}
    (harmless : ∀ t ∈ touches, t.Harmless input (forks ++ more)) (s : Stdin) :
    touches.foldl (input.touch forks) s = s := by
  induction touches with
  | nil => rfl
  | cons t touches ih =>
    rw [List.foldl_cons, (harmless t List.mem_cons_self).touch]
    exact ih fun u member => harmless u (List.mem_cons_of_mem t member)

/-- While nothing moves the offset, the loop makes of `stdin` what is to be made of the bytes
that are left. The last one of the commands may do what it likes. -/
theorem mainLoop_turnWords (v : Version) (touches : Nat → List Touch) (turns : Nat)
    {forks : List Nat} {count : Nat}
    (harmless : ∀ k, forks.length ≤ k → k + 1 < forks.length + count → ∀ t ∈ touches k,
      t.Harmless input (forks ++ (v.mainLoop input touches turns forks s).map Handed.ahead)) :
    ((v.mainLoop input touches turns forks s).take count).map (leadingWords ·.vector.cells) =
      (turnWords v turns (input.left s)).take count := by
  induction turns generalizing forks s count with
  | zero => simp [Version.mainLoop, turnWords]
  | succ turns ih =>
    rcases input.fgets_eq s with ⟨ended, last⟩ | ⟨line, s', got, taken⟩
    · simp [Version.mainLoop, turnWords, ended, last]
    · cases parsed : v.parse (cstr line) with
      | none =>
        simp only [Version.mainLoop, got, parsed] at harmless
        simpa only [Version.mainLoop, turnWords, got, taken, parsed] using ih harmless
      | some myArgv =>
        simp only [Version.mainLoop, got, parsed] at harmless
        simp only [Version.mainLoop, turnWords, got, taken, parsed]
        cases count with
        | zero => rfl
        | succ count =>
          rw [List.take_succ_cons, List.take_succ_cons, List.map_cons]
          congr 1
          cases count with
          | zero => simp
          | succ count =>
            have own := harmless forks.length (Nat.le_refl _) (by omega)
            rw [List.map_cons, List.append_cons] at own
            have still := foldl_harmless own s'
            rw [still] at harmless ⊢
            refine ih fun k later bound t member => ?_
            rw [List.length_append, List.length_singleton] at later bound
            rw [← List.append_cons]
            exact harmless k (by omega) (by omega) t member

end

/-! ## One command per line -/

/-- The vectors as they are read by those that get them. -/
def Heap.ReadsHanded (heap : Heap) (handed : List Handed) (vectors : List (List Word)) : Prop :=
  List.Forall₂ heap.ReadsAll (handed.map (leadingWords ·.vector.cells)) vectors

/-- Nothing else is read in them, whatever there is behind the words. -/
def Heap.HandsOver (heap : Heap) (handed : List Handed) (vectors : List (List Word)) : Prop :=
  ∀ found, heap.ReadsHanded handed found → found = vectors

/-- The first `n` vectors are the first `n` lines with a token exactly when each of these lines
is in one block and each of its words fits the memory that it is copied to. The shell may end
in the last of them; up to then no command moves the offset of `stdin`. -/
theorem handed_lines_iff (v : Version) (heap : Heap) {input : Input} (clean : 0 ∉ input.bytes)
    (touches : Nat → List Touch) {turns : Nat} (enough : input.bytes.length ≤ turns) (n : Nat)
    (harmless : ∀ k, k + 1 < n → ∀ t ∈ touches k,
      t.Harmless input ((v.mainLoop input touches turns [] .initial).map Handed.ahead)) :
    heap.HandsOver ((v.mainLoop input touches turns [] .initial).take n)
        (((commandLines input.bytes).map tokenise).take n) ↔
      ∀ line ∈ (commandLines input.bytes).take n,
        InOneBlock line ∧ ∀ word ∈ tokenise line, heap.Fits word := by
  have left : input.left .initial = input.bytes := rfl
  have words : ((v.mainLoop input touches turns [] .initial).take n).map
        (leadingWords ·.vector.cells) =
      (input.bytes.splitOn newline |>.flatMap lineCommands).take n := by
    rw [← turnWords_lines v enough clean, ← left]
    refine mainLoop_turnWords v touches turns fun k _ bound t member => ?_
    rw [List.length_nil, Nat.zero_add] at bound
    exact harmless k bound t member
  have wordsClean : ∀ vector ∈ (input.bytes.splitOn newline |>.flatMap lineCommands).take n,
      ∀ s ∈ vector, 0 ∉ s := fun vector member =>
    lineCommands_clean clean vector (List.mem_of_mem_take member)
  have expected := take_commands_iff (input.bytes.splitOn newline) n
  have fit := heap.vectors_only_iff wordsClean
  simp only [Heap.HandsOver, Heap.ReadsHanded, words]
  constructor
  · intro right
    have same := right _ (List.forall₂_same.mpr fun vector member =>
      heap.readsAll_self (wordsClean vector member))
    intro line member
    refine ⟨expected.mp same line member, ?_⟩
    refine fit.mp (fun found reads => (right found reads).trans same.symm) (tokenise line) ?_
    rw [same, commandLines, ← List.map_take]
    exact List.mem_map_of_mem member
  · intro lines vectors reads
    have same := expected.mpr fun line member => (lines line member).1
    refine (fit.mpr ?_ vectors reads).trans same
    rw [same, ← List.map_take]
    intro vector member
    obtain ⟨line, isLine, rfl⟩ := List.mem_map.mp member
    exact (lines line isLine).2

/-- `ls` and `ps` from a pipe, an empty line between them. -/
private def twoCommands : Input := ⟨ascii "ls\n\nps", false, fun _ => 4, fun _ => by decide⟩

/-- Both children come to `exit`, which cannot move back in a pipe. -/
theorem two_lines_handed :
    glibc.HandsOver
      ((Version.part2.mainLoop twoCommands (fun k => [.exits k]) 6 [] .initial).take 2)
      (((commandLines twoCommands.bytes).map tokenise).take 2) := by
  refine (handed_lines_iff .part2 glibc (by decide +kernel) _ (by decide +kernel) 2 ?_).mpr ?_
  · intro k _ t member
    obtain rfl := List.mem_singleton.mp member
    intro seekable
    cases seekable
  · intro line member
    have lines : (commandLines twoCommands.bytes).take 2 = [ascii "ls", ascii "ps"] := by
      decide +kernel
    rw [lines] at member
    rcases List.mem_pair.mp member with rfl | rfl <;>
      exact ⟨inOneBlock_short (by decide +kernel), by decide +kernel⟩

/-- One word of 255 bytes. -/
private def oneWordInput : Input :=
  ⟨List.replicate 255 97, false, fun _ => 4096, fun _ => by decide⟩

theorem long_word_cut :
    ¬ ∀ (v : Version) (heap : Heap) (input : Input) (touches : Nat → List Touch), 0 ∉ input.bytes →
      heap.HandsOver (v.mainLoop input touches input.bytes.length [] .initial)
        ((commandLines input.bytes).map tokenise) := by
  intro claim
  have clean : 0 ∉ oneWordInput.bytes := by
    intro zero
    cases List.eq_of_mem_replicate zero
  have cleanWords : ∀ vector ∈ (Version.part2.mainLoop oneWordInput (fun _ => [])
        oneWordInput.bytes.length [] .initial).map (leadingWords ·.vector.cells),
      ∀ s ∈ vector, 0 ∉ s := by
    decide +kernel
  have same := congrArg List.length (claim .part2 glibc oneWordInput (fun _ => []) clean _
    (List.forall₂_same.mpr fun vector member => glibc.readsAll_self (cleanWords vector member)))
  revert same
  decide +kernel

/-- A file with `nosuch` and `pwd`: the child that cannot exec `nosuch` moves the offset back
over `pwd`, which the shell has read ahead. -/
example :
    (Version.hw2.mainLoop ⟨ascii "nosuch\npwd\n", true, fun _ => 4096, fun _ => by decide⟩
      (fun k => if k = 0 then [.exits 0] else []) 11 [] .initial).map
        (leadingWords ·.vector.cells) = ([["nosuch"], ["pwd"], ["pwd"]] : List (List Word)) := by
  decide +kernel

end Shell
