import NetworkSystemProgramming.Pipes
import NetworkSystemProgramming.StepSystems

/-!
# Commands behind a pipe

`my_popen` and `my_pclose` of `popen_pclose.c`, one system call at a time, in the parent
and in the children that it forks. A child of mode "w" reads its stdin up to the end of
file and exits; one of mode "r" writes its output to stdout and exits. `pipe`, `fork`,
`dup2` and `fdopen` do not fail here. Process 0 is the parent, and the `i`-th child has
the `i`-th pipe.
-/

namespace Popen

open DescriptorTables Pipes StepSystems StepSystem

inductive Mode where
  | r
  | w
  deriving DecidableEq, Repr

/-- `keep_fd`, which the child closes. -/
def Mode.keepFd (mode : Mode) (pfd : Nat × Nat) : Nat :=
  match mode with
  | .r => pfd.1
  | .w => pfd.2

/-- The descriptor that the parent closes and the child moves to `mode.stdFd`. -/
def Mode.otherFd (mode : Mode) (pfd : Nat × Nat) : Nat :=
  match mode with
  | .r => pfd.2
  | .w => pfd.1

/-- `STDOUT_FILENO` and `STDIN_FILENO`. -/
def Mode.stdFd : Mode → Nat
  | .r => 1
  | .w => 0

/-- The next statement of the parent. -/
inductive MainPc where
  /-- It is in neither function. -/
  | ready
  | fork (mode : Mode) (pfd : Nat × Nat) (output : Nat)
  | closeOther (mode : Mode) (pfd : Nat × Nat) (pid : Nat)
  /-- `fdtopid[keep_fd] = pid`, and `fdopen` -/
  | record (mode : Mode) (pfd : Nat × Nat) (pid : Nat)
  | wait (pid : Nat)
  deriving DecidableEq, Repr

inductive ChildPc where
  | closeKeep
  | dup
  | closeOther
  | running
  | exited
  deriving DecidableEq, Repr

structure Child (E : Type) where
  mode : Mode
  pfd : Nat × Nat
  pc : ChildPc
  fds : Table (End E)
  /-- The bytes that a child of mode "r" has still to write. -/
  output : Nat

structure State (E : Type) where
  main : MainPc
  fds : Table (End E)
  /-- The array has 1024 entries; descriptors stay below it, by the usual limit of a process. -/
  fdtopid : Nat → Nat
  /-- The descriptors of the streams that `my_popen` has returned. -/
  streams : List Nat
  nextPid : Nat
  children : Nat → Child E
  nextPipe : Nat
  /-- The number of bytes in each pipe. -/
  pipes : Nat → Nat

inductive Act where
  | popen (mode : Mode) (output : Nat)
  /-- The next statement of the parent. -/
  | run
  | pclose (fd : Nat)
  /-- The parent writes bytes to a stream, or reads them from it. -/
  | write (fd n : Nat)
  | read (fd n : Nat)
  /-- The next statement of a child before the command runs. -/
  | prepare (pid : Nat)
  | childRead (pid n : Nat)
  | childEof (pid : Nat)
  | childWrite (pid n : Nat)
  | childExit (pid : Nat)
  deriving DecidableEq, Repr

variable {E : Type}

def Child.dead : Child E := ⟨.r, (0, 0), .exited, [], 0⟩

/-- The tables of all processes. -/
def State.tables (s : State E) (pid : Nat) : Table (End E) :=
  if pid = 0 then s.fds else (s.children pid).fds

def State.setChild (s : State E) (pid : Nat) (c : Child E) : State E :=
  { s with children := Function.update s.children pid c }

def State.setPipe (s : State E) (pipe n : Nat) : State E :=
  { s with pipes := Function.update s.pipes pipe n }

@[simp] theorem setChild_self (s : State E) (pid : Nat) (c : Child E) :
    (s.setChild pid c).children pid = c := by
  simp [State.setChild]

theorem setChild_other (s : State E) {pid other : Nat} (c : Child E) (ne : other ≠ pid) :
    (s.setChild pid c).children other = s.children other := by
  simp [State.setChild, ne]

@[simp] theorem setPipe_self (s : State E) (pipe n : Nat) : (s.setPipe pipe n).pipes pipe = n := by
  simp [State.setPipe]

theorem setPipe_other (s : State E) {pipe other : Nat} (n : Nat) (ne : other ≠ pipe) :
    (s.setPipe pipe n).pipes other = s.pipes other := by
  simp [State.setPipe, ne]

/-- An exited child has no descriptors. -/
def State.exit (s : State E) (pid : Nat) : State E :=
  s.setChild pid { s.children pid with pc := .exited, fds := [] }

/-- `my_popen` up to `pipe`. -/
def popen (s : State E) (mode : Mode) (output : Nat) : Option (State E) :=
  match s.main with
  | .ready =>
    let made := allocPair s.fds (.read s.nextPipe) (.write s.nextPipe)
    some { s with
      main := .fork mode made.2 output
      fds := made.1
      nextPipe := s.nextPipe + 1
      pipes := Function.update s.pipes s.nextPipe 0 }
  | _ => none

/-- The rest of `my_popen`, and `waitpid`. -/
def statement (s : State E) : Option (State E) :=
  match s.main with
  | .ready => none
  | .fork mode pfd output =>
    some ({ s with main := .closeOther mode pfd s.nextPid, nextPid := s.nextPid + 1 }.setChild
      s.nextPid ⟨mode, pfd, .closeKeep, s.fds, output⟩)
  | .closeOther mode pfd pid =>
    some { s with main := .record mode pfd pid, fds := close s.fds (mode.otherFd pfd) }
  | .record mode pfd pid =>
    some { s with
      main := .ready
      fdtopid := Function.update s.fdtopid (mode.keepFd pfd) pid
      streams := mode.keepFd pfd :: s.streams }
  | .wait pid => if (s.children pid).pc = .exited then some { s with main := .ready } else none

/-- `my_pclose` up to `waitpid`; nothing is closed. -/
def pclose (s : State E) (fd : Nat) : Option (State E) :=
  if s.main = .ready ∧ fd ∈ s.streams then
    if s.fdtopid fd = 0 then some s else some { s with main := .wait (s.fdtopid fd) }
  else none

/-- A write of some bytes that fit; the write end of a stream has a reader, as no child
exits before it is closed. -/
def parentWrite (capacity : Nat) (s : State E) (fd n : Nat) : Option (State E) :=
  match s.main, lookup s.fds fd with
  | .ready, some (.write pipe) =>
    if fd ∈ s.streams ∧ 0 < n ∧ s.pipes pipe + n ≤ capacity then
      some (s.setPipe pipe (s.pipes pipe + n))
    else none
  | _, _ => none

def parentRead (s : State E) (fd n : Nat) : Option (State E) :=
  match s.main, lookup s.fds fd with
  | .ready, some (.read pipe) =>
    if fd ∈ s.streams ∧ 0 < n ∧ n ≤ s.pipes pipe then
      some (s.setPipe pipe (s.pipes pipe - n))
    else none
  | _, _ => none

/-- `close`, `dup2`, `close` and `execlp`. -/
def prepare (s : State E) (pid : Nat) : Option (State E) :=
  let c := s.children pid
  match c.pc with
  | .closeKeep =>
    some (s.setChild pid { c with pc := .dup, fds := close c.fds (c.mode.keepFd c.pfd) })
  | .dup =>
    match dup2 c.fds (c.mode.otherFd c.pfd) c.mode.stdFd with
    | some fds => some (s.setChild pid { c with pc := .closeOther, fds })
    | none => some (s.exit pid)
  | .closeOther =>
    some (s.setChild pid { c with pc := .running, fds := close c.fds (c.mode.otherFd c.pfd) })
  | .running | .exited => none

/-- A child of mode "w" reads some of the bytes in its pipe. -/
def childRead (s : State E) (pid n : Nat) : Option (State E) :=
  let c := s.children pid
  match c.pc, c.mode, lookup c.fds 0 with
  | .running, .w, some (.read pipe) =>
    if 0 < n ∧ n ≤ s.pipes pipe then some (s.setPipe pipe (s.pipes pipe - n)) else none
  | _, _, _ => none

section
variable [DecidableEq E]

/-- It sees the end of file when the pipe is empty and no process holds its write end. -/
def childEof (s : State E) (pid : Nat) : Option (State E) :=
  let c := s.children pid
  match c.pc, c.mode, lookup c.fds 0 with
  | .running, .w, some (.read pipe) =>
    if s.pipes pipe = 0 ∧ ¬ Held s.tables s.nextPid (.write pipe) then some (s.exit pid) else none
  | _, _, _ => none

/-- A child of mode "r" writes bytes for which there is room; SIGPIPE ends it when nobody
can read them. -/
def childWrite (capacity : Nat) (s : State E) (pid n : Nat) : Option (State E) :=
  let c := s.children pid
  match c.pc, c.mode, lookup c.fds 1 with
  | .running, .r, some (.write pipe) =>
    if Held s.tables s.nextPid (.read pipe) then
      if 0 < n ∧ n ≤ c.output ∧ s.pipes pipe + n ≤ capacity then
        some ((s.setPipe pipe (s.pipes pipe + n)).setChild pid { c with output := c.output - n })
      else none
    else some (s.exit pid)
  | _, _, _ => none

def childExit (s : State E) (pid : Nat) : Option (State E) :=
  let c := s.children pid
  if c.pc = .running ∧ c.mode = .r ∧ c.output = 0 then some (s.exit pid) else none

def next (capacity : Nat) (act : Act) (s : State E) : Option (State E) :=
  match act with
  | .popen mode output => popen s mode output
  | .run => statement s
  | .pclose fd => pclose s fd
  | .write fd n => parentWrite capacity s fd n
  | .read fd n => parentRead s fd n
  | .prepare pid => prepare s pid
  | .childRead pid n => childRead s pid n
  | .childEof pid => childEof s pid
  | .childWrite pid n => childWrite capacity s pid n
  | .childExit pid => childExit s pid

end

def State.initial (entry : Table E) : State E where
  main := .ready
  fds := entry.map (Option.map .entry)
  fdtopid := fun _ => 0
  streams := []
  nextPid := 1
  children := fun _ => .dead
  nextPipe := 1
  pipes := fun _ => 0

/-- Any sequence of calls, on streams that `my_popen` has returned. -/
def commands [DecidableEq E] (capacity : Nat) (entry : Table E) : StepSystem (State E) Act :=
  ofNext (· = State.initial entry) (next capacity)

end Popen
