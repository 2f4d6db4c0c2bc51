import NetworkSystemProgramming.Shell.Background
import NetworkSystemProgramming.Shell.Copies
import NetworkSystemProgramming.Shell.Tokens

/-!
# Sessions

The shell of SP_HW4/part2, line after line. Builtins run in the shell process itself, which
also waits for the other commands. Undefined is what is read through NULL or outside the
argument vector, what is stored behind a block, and a call of a function that is not declared.
`fork` does not fail in the parent.
-/

namespace Shell

open ByteBuffers Texts

structure Passwd where
  name : List Byte
  uid : Nat
  gid : Nat
  deriving DecidableEq

/-- The outcomes of the system calls in one turn of the loop. -/
structure Answers where
  chdir : Bool
  /-- `uts.nodename`, when `uname` succeeds. -/
  uname : Option (List Byte)
  getcwd : Option (List Byte)
  /-- What `getlogin_r` leaves in `buf`. -/
  login : List Byte
  /-- What `getpwent` returns one after the other, before NULL. -/
  passwd : List Passwd

/-- The text on stdout, by the `printf` calls it comes from. -/
inductive Printed where
  /-- "%s is a builtin feature.\n" -/
  | isBuiltin (name : List Byte)
  /-- "%s is NOT a builtin feature.\n" -/
  | notBuiltin (name : List Byte)
  /-- "%s\n" -/
  | line (s : List Byte)
  /-- "%s " for each, and "\n" -/
  | words (words : List (List Byte))
  /-- "hostname: %s\n" -/
  | hostname (nodename : List Byte)
  /-- "UserId = %d(%s), GroupId = %d(%s)\n" -/
  | userId (pw : Passwd)
  deriving DecidableEq

/-- What becomes of the shell process. -/
inductive Effect where
  | prompt (printed : Option Printed)
  | exits (perror : Option String) (status : Nat)
  | undefined
  deriving DecidableEq

inductive Builtin where
  | builtin
  | echo
  | quit
  | cd
  | pwd
  | id
  | hostname
  deriving DecidableEq

def inbuilts : List (List Byte × Builtin) :=
  [(ascii "builtin", .builtin), (ascii "echo", .echo), (ascii "quit", .quit),
    (ascii "exit", .quit), (ascii "bye", .quit), (ascii "logout", .quit), (ascii "cd", .cd),
    (ascii "pwd", .pwd), (ascii "id", .id), (ascii "hostname", .hostname)]

/-- `is_builtin`, with the entry that it leaves in `this`. -/
def isBuiltin (cmd : List Byte) : Option Builtin :=
  (inbuilts.find? (·.1 = cmd)).map Prod.snd

/-- The string at `argv[i]`; there is none at NULL and outside the vector. -/
def Block.str (argv : Block) (i : Int) : Option Word :=
  if i < 0 then none
  else match argv.cells[i.toNat]? with
    | some (.str s) => some s
    | _ => none

def biBuiltin (argv : Block) : Effect :=
  match argv.str 1 with
  | none => .undefined
  | some name =>
    if inbuilts.any (·.1 = name) then .prompt (some (.isBuiltin name))
    else .prompt (some (.notBuiltin name))

/-- `chdir` of NULL fails. -/
def biCd (answers : Answers) (argv : Block) : Effect :=
  if (argv.str 1).isSome && answers.chdir then .prompt none
  else .exits (some "chdir error") 1

/-- When `index + 2` overflows, it is outside the vector anyway. -/
def biEcho (argv : Block) : Effect :=
  match argv.str 1 with
  | none => .undefined
  | some first =>
    if first = ascii "-n" then
      match argv.str 2 with
      | none => .undefined
      | some second =>
        let index := atoi second
        match argv.str (index + 2) with
        | none => .undefined
        | some word => .prompt (some (.line word))
    else .prompt (some (.words (leadingWords (argv.cells.drop 1))))

def biHostname (answers : Answers) : Effect :=
  match answers.uname with
  | none => .exits (some "uname error\n") 1
  | some nodename => .prompt (some (.hostname nodename))

/-- Behind the last entry `pw` is NULL. -/
def biId (answers : Answers) : Effect :=
  match answers.passwd.find? (·.name = answers.login) with
  | none => .undefined
  | some pw => .prompt (some (.userId pw))

def biPwd (answers : Answers) : Effect :=
  match answers.getcwd with
  | none => .undefined
  | some dir => .prompt (some (.line dir))

def biQuit : Effect := .exits none 0

def doBuiltin (this : Builtin) (answers : Answers) (argv : Block) : Effect :=
  match this with
  | .builtin => biBuiltin argv
  | .echo => biEcho argv
  | .quit => biQuit
  | .cd => biCd answers argv
  | .pwd => biPwd answers
  | .id => biId answers
  | .hostname => biHostname answers

/-- What the parent does in `run_command` about a command that ends with `stat`. The functions
`strerror` and `strsignal` that it calls after a failure are not declared in `run_command.c`:
a pointer is taken for an `int`, and "%s" reads through what is left of it. -/
def runCommand (stat : ExitStatus) (myArgv : Block) : Effect :=
  if Version.part2.parentWaits myArgv.cells = .blocking then
    match stat with
    | .exited code => if code ≠ 0 then .undefined else .prompt none
    | .signaled sig => if sig ≠ 0 then .undefined else .prompt none
  else .prompt none

/-- One turn of the loop: the line in the buffer, the outcomes of the calls, and how a command
ends that is no builtin. -/
structure Turn where
  line : List Byte
  answers : Answers
  stat : ExitStatus

/-- The body of the loop. -/
def Turn.effect (heap : Heap) (t : Turn) : Effect :=
  match Version.part2.parse (cstr t.line) with
  | none => .prompt none
  | some myArgv =>
    -- `strcpy` stores the NUL of a word that does not fit behind its block
    if ∀ s ∈ leadingWords myArgv.cells, heap.Fits s then
      match myArgv.str 0 with
      | none => .undefined
      | some cmd =>
        match isBuiltin cmd with
        | some this => doBuiltin this t.answers myArgv
        | none => runCommand t.stat myArgv
    else .undefined

/-- The turns that are executed, each with what becomes of the shell. -/
def session (heap : Heap) : List Turn → List Effect
  | [] => []
  | t :: rest =>
    match t.effect heap with
    | .prompt printed => .prompt printed :: session heap rest
    | effect => [effect]

/-- Every line is executed and leads back to the prompt. -/
def Survives (heap : Heap) (turns : List Turn) : Prop :=
  (session heap turns).length = turns.length ∧
    ∀ effect ∈ session heap turns, ∃ printed, effect = .prompt printed

/-! ## What a line asks for -/

def Turn.words (t : Turn) : List Word := tokenise (cstr t.line)

def Turn.command (t : Turn) : Option Builtin := t.words.head?.bind isBuiltin

/-- The words that end the shell. -/
def quitWords : List Word := [ascii "quit", ascii "exit", ascii "bye", ascii "logout"]

def Turn.Quits (t : Turn) : Prop := ∃ cmd ∈ quitWords, t.words.head? = some cmd

/-- The third word gives the distance of a word from it. -/
def Turn.IndexesWord (t : Turn) : Prop :=
  ∃ index ∈ t.words[2]?, 0 ≤ atoi index + 2 ∧ atoi index + 2 < t.words.length

/-- A missing or wrong argument, or a missing answer, that the builtin does not look for. -/
def Builtin.Unchecked (t : Turn) : Builtin → Prop
  | .builtin => t.words.length < 2
  | .echo => t.words.length < 2 ∨ t.words[1]? = some (ascii "-n") ∧ ¬ t.IndexesWord
  | .pwd => t.answers.getcwd = none
  | .id => ∀ pw ∈ t.answers.passwd, pw.name ≠ t.answers.login
  | .quit | .cd | .hostname => False

def Turn.Unchecked (t : Turn) : Prop := ∃ this ∈ t.command, this.Unchecked t

/-- A call fails, and the builtin looks for it. -/
def Builtin.fails (t : Turn) : Builtin → Bool
  | .cd => t.words.length < 2 || !t.answers.chdir
  | .hostname => t.answers.uname.isNone
  | _ => false

def Turn.fails (t : Turn) : Bool := t.command.any (Builtin.fails t)

/-- The parent reports how a command has ended: not with status 0, and not in the
background. -/
def Turn.Reported (t : Turn) : Prop :=
  t.words ≠ [] ∧ t.command = none ∧ (ampersand ∉ t.words ∨ t.words.head? = some ampersand) ∧
    t.stat ≠ .exited 0 ∧ t.stat ≠ .signaled 0

/-- Every NUL is in the block of its word. -/
def Turn.Fits (heap : Heap) (t : Turn) : Prop := ∀ s ∈ t.words, heap.Fits s

instance (t : Turn) : Decidable t.Quits :=
  inferInstanceAs (Decidable (∃ cmd ∈ quitWords, t.words.head? = some cmd))

instance (t : Turn) : Decidable t.IndexesWord :=
  inferInstanceAs (Decidable (∃ index ∈ t.words[2]?,
    0 ≤ atoi index + 2 ∧ atoi index + 2 < t.words.length))

instance (t : Turn) : (this : Builtin) → Decidable (this.Unchecked t)
  | .builtin => inferInstanceAs (Decidable (t.words.length < 2))
  | .echo => inferInstanceAs (Decidable
      (t.words.length < 2 ∨ t.words[1]? = some (ascii "-n") ∧ ¬ t.IndexesWord))
  | .pwd => inferInstanceAs (Decidable (t.answers.getcwd = none))
  | .id => inferInstanceAs (Decidable (∀ pw ∈ t.answers.passwd, pw.name ≠ t.answers.login))
  | .quit | .cd | .hostname => .isFalse id

instance (t : Turn) : Decidable t.Unchecked :=
  inferInstanceAs (Decidable (∃ this ∈ t.command, this.Unchecked t))

instance (t : Turn) : Decidable t.Reported := inferInstanceAs (Decidable (_ ∧ _))

instance (heap : Heap) (t : Turn) : Decidable (t.Fits heap) :=
  inferInstanceAs (Decidable (∀ s ∈ t.words, heap.Fits s))

/-! ## One turn -/

section
variable {heap : Heap} {argv : Block} {words : List Word} {t : Turn}

/-- The strings of a vector are its words. -/
theorem str_words (cells : argv.cells = words.map .str ++ [.null]) (i : Int) :
    argv.str i = if i < 0 then none else words[i.toNat]? := by
  rw [Block.str, cells]
  split
  · rfl
  · by_cases inside : i.toNat < words.length
    · simp [List.getElem?_append_left, inside]
    · have above : words.length ≤ i.toNat := Nat.le_of_not_lt inside
      rw [List.getElem?_eq_none above, List.getElem?_append_right (by simpa using above)]
      cases i.toNat - (words.map Cell.str).length <;> rfl

theorem isBuiltin_quit {cmd : Word} (quit : isBuiltin cmd = some .quit) : cmd ∈ quitWords := by
  have ends : ∀ entry ∈ inbuilts, entry.2 = .quit → entry.1 ∈ quitWords := by decide
  obtain ⟨entry, found, this⟩ := Option.map_eq_some_iff.mp quit
  have same : entry.1 = cmd := by simpa using List.find?_some found
  exact same ▸ ends entry (List.mem_of_find?_eq_some found) this

theorem command_ne_quit (stays : ¬ t.Quits) : t.command ≠ some .quit := by
  intro quit
  obtain ⟨cmd, first, this⟩ := Option.bind_eq_some_iff.mp quit
  exact stays ⟨cmd, isBuiltin_quit this, first⟩

/-- A turn without words, one with a word that does not fit, one of a builtin, or one of
another command, which see the words of the line. -/
theorem effect_cases (heap : Heap) (t : Turn) :
    (t.words = [] ∧ t.effect heap = .prompt none) ∨
      (¬ t.Fits heap ∧ t.effect heap = .undefined) ∨
      t.words ≠ [] ∧ t.Fits heap ∧ ∃ argv : Block, argv.cells = t.words.map .str ++ [.null] ∧
        ((t.command = none ∧ t.effect heap = runCommand t.stat argv) ∨
          ∃ this, t.command = some this ∧ t.effect heap = doBuiltin this t.answers argv) := by
  rcases parse_cases .part2 (cstr t.line) with ⟨null, blank⟩ | ⟨argv, parsed, cells, nonempty⟩
  · exact Or.inl ⟨blank, by rw [Turn.effect, null]⟩
  have vector : leadingWords argv.cells = t.words := by
    rw [cells]
    exact leadingWords_append _ rfl
  by_cases fits : t.Fits heap
  · obtain ⟨cmd, args, split⟩ := List.exists_cons_of_ne_nil nonempty
    have first : argv.str 0 = some cmd := by
      rw [str_words cells, split]
      rfl
    have command : t.command = isBuiltin cmd := by
      rw [Turn.command, Turn.words, split]
      rfl
    have inBlocks : ∀ s ∈ leadingWords argv.cells, heap.Fits s := vector ▸ fits
    refine Or.inr (Or.inr ⟨nonempty, fits, argv, cells, ?_⟩)
    cases entry : isBuiltin cmd with
    | none =>
      refine Or.inl ⟨by rw [command, entry], ?_⟩
      simp only [Turn.effect, parsed, if_pos inBlocks, first, entry]
    | some this =>
      refine Or.inr ⟨this, by rw [command, entry], ?_⟩
      simp only [Turn.effect, parsed, if_pos inBlocks, first, entry]
  · have overflows : ¬ ∀ s ∈ leadingWords argv.cells, heap.Fits s := vector ▸ fits
    exact Or.inr (Or.inl ⟨fits, by simp only [Turn.effect, parsed, if_neg overflows]⟩)

/-- The shell comes back to its prompt. -/
def Effect.Returns (effect : Effect) : Prop := ∃ printed, effect = .prompt printed

instance : DecidablePred Effect.Returns
  | .prompt printed => .isTrue ⟨printed, rfl⟩
  | .exits _ _ => .isFalse (by simp [Effect.Returns])
  | .undefined => .isFalse (by simp [Effect.Returns])

theorem biBuiltin_returns_iff (argv : Block) : (biBuiltin argv).Returns ↔ argv.str 1 ≠ none := by
  cases name : argv.str 1 with
  | none => simp [biBuiltin, name, Effect.Returns]
  | some word =>
    simp only [biBuiltin, name, Effect.Returns]
    split <;> simp

theorem biEcho_returns_iff (argv : Block) :
    (biEcho argv).Returns ↔ argv.str 1 ≠ none ∧ (argv.str 1 = some (ascii "-n") →
      ∃ index, argv.str 2 = some index ∧ argv.str (atoi index + 2) ≠ none) := by
  cases first : argv.str 1 with
  | none => simp [biEcho, first, Effect.Returns]
  | some word =>
    by_cases option : word = ascii "-n"
    · cases second : argv.str 2 with
      | none => simp [biEcho, first, option, second, Effect.Returns]
      | some index => cases third : argv.str (atoi index + 2) <;>
          simp [biEcho, first, option, second, third, Effect.Returns]
    · simp [biEcho, first, option, Effect.Returns]

theorem biId_returns_iff (answers : Answers) :
    (biId answers).Returns ↔ ∃ pw ∈ answers.passwd, pw.name = answers.login := by
  rw [biId, Effect.Returns]
  split
  · rename_i missing
    have none_found := List.find?_eq_none.mp missing
    simpa using none_found
  · rename_i pw found
    have own : pw.name = answers.login := by simpa using List.find?_some found
    simpa using ⟨pw, List.mem_of_find?_eq_some found, own⟩

theorem biCd_returns_iff (answers : Answers) (argv : Block) :
    (biCd answers argv).Returns ↔ argv.str 1 ≠ none ∧ answers.chdir = true := by
  cases path : argv.str 1 <;> cases done : answers.chdir <;> simp [biCd, path, done, Effect.Returns]

theorem biPwd_returns_iff (answers : Answers) :
    (biPwd answers).Returns ↔ answers.getcwd ≠ none := by
  cases dir : answers.getcwd <;> simp [biPwd, dir, Effect.Returns]

theorem biHostname_returns_iff (answers : Answers) :
    (biHostname answers).Returns ↔ answers.uname ≠ none := by
  cases name : answers.uname <;> simp [biHostname, name, Effect.Returns]

/-- A builtin other than `quit` leads back to the prompt, if it gets what it does not look
for, and the call succeeds that it does look at. -/
theorem doBuiltin_returns_iff {this : Builtin} (stays : this ≠ .quit)
    (cells : argv.cells = t.words.map .str ++ [.null]) :
    (doBuiltin this t.answers argv).Returns ↔ ¬ this.Unchecked t ∧ this.fails t = false := by
  have str := str_words cells
  have second : argv.str 1 = t.words[1]? := str 1
  have third : argv.str 2 = t.words[2]? := str 2
  have given : t.words[1]? ≠ none ↔ ¬ t.words.length < 2 := by
    rw [ne_eq, List.getElem?_eq_none_iff, Nat.lt_succ_iff]
  cases this with
  | builtin =>
    rw [doBuiltin, biBuiltin_returns_iff, second, given]
    simp [Builtin.Unchecked, Builtin.fails]
  | echo =>
    have inside (index : Word) : argv.str (atoi index + 2) ≠ none ↔
        0 ≤ atoi index + 2 ∧ atoi index + 2 < t.words.length := by
      rw [str]
      split
      · simp; omega
      · rw [ne_eq, List.getElem?_eq_none_iff]
        omega
    simp only [doBuiltin, biEcho_returns_iff, second, third, inside, given]
    simp [Builtin.Unchecked, Builtin.fails, Turn.IndexesWord]
  | quit => exact absurd rfl stays
  | cd =>
    rw [doBuiltin, biCd_returns_iff, second, given]
    simp [Builtin.Unchecked, Builtin.fails]
  | pwd =>
    rw [doBuiltin, biPwd_returns_iff]
    simp [Builtin.Unchecked, Builtin.fails]
  | id =>
    rw [doBuiltin, biId_returns_iff]
    simp [Builtin.Unchecked, Builtin.fails]
  | hostname =>
    rw [doBuiltin, biHostname_returns_iff]
    cases name : t.answers.uname <;> simp [Builtin.Unchecked, Builtin.fails, name]

/-- `waitpid` is called for a vector without "&", and for one that begins with it. -/
theorem parentWaits_blocking_iff (cells : argv.cells = words.map .str ++ [.null]) :
    Version.part2.parentWaits argv.cells = .blocking ↔
      ampersand ∉ words ∨ words.head? = some ampersand := by
  have waits := parentWaits_iff .part2 argv.cells
  rw [← not_iff_not, ← ne_eq, waits, Version.isBackground, cells, not_or, not_not]
  rcases ampersand_cases words with absent | ⟨front, behind, absent, rfl⟩
  · simp [ampersandIndex_absent absent, absent]
  · rw [List.map_append, List.map_cons, List.append_assoc, List.cons_append,
      ampersandIndex_found absent, Nat.zero_add]
    cases front with
    | nil => simp
    | cons s front =>
      have other : s ≠ ampersand := fun same => absent (by simp [same])
      simp [other]

theorem runCommand_returns_iff (command : t.command = none) (nonempty : t.words ≠ [])
    (cells : argv.cells = t.words.map .str ++ [.null]) :
    (runCommand t.stat argv).Returns ↔ ¬ t.Reported := by
  have waits := parentWaits_blocking_iff cells
  rw [Turn.Reported, ← waits]
  unfold runCommand
  by_cases blocking : Version.part2.parentWaits argv.cells = .blocking
  · cases t.stat with
    | exited code => cases code <;> simp [blocking, command, nonempty, Effect.Returns]
    | signaled sig => cases sig <;> simp [blocking, command, nonempty, Effect.Returns]
  · simp [blocking, Effect.Returns]

/-- What leads back to the prompt. -/
theorem effect_returns_iff (heap : Heap) (stays : ¬ t.Quits) :
    (t.effect heap).Returns ↔ t.Fits heap ∧ ¬ t.Unchecked ∧ t.fails = false ∧ ¬ t.Reported := by
  rcases effect_cases heap t with ⟨blank, effect⟩ | ⟨overflows, effect⟩ |
      ⟨nonempty, fits, argv, cells, ⟨command, effect⟩ | ⟨this, command, effect⟩⟩
  · have none : t.command = none := by rw [Turn.command, blank]; rfl
    simp [effect, Effect.Returns, Turn.Fits, Turn.Unchecked, Turn.fails, Turn.Reported, none, blank]
  · simp [effect, overflows, Effect.Returns]
  · rw [effect, runCommand_returns_iff command nonempty cells]
    simp [fits, command, Turn.Unchecked, Turn.fails]
  · have known : this ≠ .quit := fun quit => command_ne_quit stays (quit ▸ command)
    rw [effect, doBuiltin_returns_iff known cells]
    simp [fits, command, Turn.Unchecked, Turn.fails, Turn.Reported]

/-! ## A session -/

/-- A session goes on to its end exactly if each of its lines leads back to the prompt. -/
theorem survives_iff (heap : Heap) (turns : List Turn) :
    Survives heap turns ↔ ∀ t ∈ turns, (t.effect heap).Returns := by
  induction turns with
  | nil => simp [Survives, session]
  | cons t turns ih =>
    rw [List.forall_mem_cons, ← ih]
    cases effect : t.effect heap with
    | prompt printed => simp [Survives, session, effect, Effect.Returns]
    | exits perror status => simp [Survives, session, effect, Effect.Returns]
    | undefined => simp [Survives, session, effect, Effect.Returns]

end

private def quiet : Answers := ⟨true, some (ascii "host"), some (ascii "/"), ascii "u", []⟩

/-- "echo -n 1 hello" and "cd /", "ls", and "false &", which the shell does not wait for. -/
private def harmlessLines : List Turn :=
  [⟨ascii "echo -n 1 hello\n", quiet, .exited 0⟩, ⟨ascii "cd /\n", quiet, .exited 0⟩,
    ⟨ascii "ls\n", quiet, .exited 0⟩, ⟨ascii "false &\n", quiet, .exited 1⟩]

private def longWordLine : Turn := ⟨ascii "ls aaaaaaaaaaaaaaaaaaaaaaaa b\n", quiet, .exited 0⟩

/-- `echo`, which compares the NULL behind it with "-n"; `cd nosuch`; `false`, whose status is
looked up; and a word of 24 bytes, twice: in the memory that the first line has freed its NUL
goes to the size of another block, which `free` then finds to be wrong. -/
private def endingSessions : List (List Turn) :=
  [[⟨ascii "echo\n", quiet, .exited 0⟩],
    [⟨ascii "cd nosuch\n", { quiet with chdir := false }, .exited 0⟩],
    [⟨ascii "false\n", quiet, .exited 1⟩], [longWordLine, longWordLine]]

end Shell
