import NetworkSystemProgramming.StepSystems
import NetworkSystemProgramming.DescriptorTables
import NetworkSystemProgramming.Shell.Vectors

/-!
# The processes of a pipeline

`pipe_and_exec` one system call at a time, in the process that calls it and in those it
forks. Process 0 is the child that `run_command` forked, process `i` comes from the
`i`-th fork. A program that has been exec'd writes its output byte by byte, reads or
not, and ends after its output. Messages to stderr are left out.
-/

namespace Shell

open DescriptorTables StepSystems StepSystem

/-- What an open descriptor refers to: something that was open at entry, or an end of
a pipe. -/
inductive End (E : Type) where
  | entry (e : E)
  | read (pipe : Nat)
  | write (pipe : Nat)
  deriving DecidableEq, Repr

/-- The local variables of one call of `pipe_and_exec` after the split. -/
structure Frame where
  pfd : Nat × Nat
  split : Split
  deriving DecidableEq

/-- The next statement of a process. -/
inductive Pc where
  /-- `pipe`, and the switch on `pipe_present` -/
  | call (argv : List Word)
  | fork (f : Frame)
  | closeWrite (f : Frame) (pid : Nat)
  | dupRead (f : Frame) (pid : Nat)
  | wait (f : Frame) (pid : Nat)
  | closeRead (f : Frame)
  | execRight (f : Frame)
  | childCloseRead (f : Frame)
  | childDupWrite (f : Frame)
  | childCloseWrite (f : Frame)
  | execLeft (f : Frame)
  /-- A program, with the bytes that it has still to write. -/
  | running (output : Nat)
  | exited
  deriving DecidableEq

structure Process (E : Type) where
  pc : Pc
  fds : Table (End E)
  /-- The callers that wait for a recursive call to return. -/
  stack : List Frame

/-- A successful `execvp`, with the tables of all processes at that moment. -/
structure Exec (E : Type) where
  pid : Nat
  argv : List Cell
  fds : Table (End E)
  tables : Nat → Table (End E)

structure State (E : Type) where
  nextPid : Nat
  procs : Nat → Process E
  nextPipe : Nat
  /-- The number of bytes in each pipe. -/
  pipes : Nat → Nat
  execs : List (Exec E)

/-- The descriptors at entry, the capacity of a pipe, and how much the program that a
process runs writes. -/
structure World (E : Type) where
  entry : Table E
  capacity : Nat
  output : Nat → Nat

inductive Act where
  | run (pid : Nat)
  /-- `pipe`, `fork` or `execvp` fails. -/
  | fails (pid : Nat)
  | write (pid : Nat)
  | read (pid : Nat)
  | exit (pid : Nat)
  deriving DecidableEq

variable {E : Type}

def Process.dead : Process E := ⟨.exited, [], []⟩

def State.set (s : State E) (pid : Nat) (p : Process E) : State E :=
  { s with procs := Function.update s.procs pid p }

def State.exit (s : State E) (pid : Nat) : State E := s.set pid .dead

@[simp] theorem set_self (s : State E) (pid : Nat) (p : Process E) :
    (s.set pid p).procs pid = p := by
  simp [State.set]

@[simp] theorem set_nextPid (s : State E) (pid : Nat) (p : Process E) :
    (s.set pid p).nextPid = s.nextPid := rfl

theorem set_other (s : State E) {pid other : Nat} (p : Process E) (ne : other ≠ pid) :
    (s.set pid p).procs other = s.procs other := by
  simp [State.set, ne]

/-- The effect of `close(fd)`, which may fail. -/
def Process.close (p : Process E) (fd : Nat) (pc : Pc) : Process E :=
  { p with fds := DescriptorTables.close p.fds fd, pc }

/-- The effect of `dup2(old, new)`, whose failure is only reported. -/
def Process.dup2 (p : Process E) (old new : Nat) (pc : Pc) : Process E :=
  { p with fds := (DescriptorTables.dup2 p.fds old new).getD p.fds, pc }

def State.exec (w : World E) (s : State E) (pid : Nat) (argv : List Cell) : State E :=
  let p := s.procs pid
  let done : Exec E := ⟨pid, argv, p.fds, fun i => (s.procs i).fds⟩
  { s with execs := s.execs ++ [done] }.set pid { p with pc := .running (w.output pid) }

/-- `pipe` and the switch. The illegal positions of "|" lead to `exit`; without "|" the
call returns, at the outermost level to the `exit` in `run_command`. -/
def callStep (s : State E) (pid : Nat) (p : Process E) (argv : List Word) : State E :=
  let made := allocPair p.fds (.read s.nextPipe) (.write s.nextPipe)
  let s' := { s with nextPipe := s.nextPipe + 1, pipes := Function.update s.pipes s.nextPipe 0 }
  let pipeArgvIndex := pipePresent argv
  if pipeArgvIndex = -1 then s'.exit pid
  else if pipeArgvIndex = 0 then
    match p.stack with
    | [] => s'.exit pid
    | f :: stack => s'.set pid ⟨.execRight f, made.1, stack⟩
  else s'.set pid ⟨.fork ⟨made.2, splitPipe argv pipeArgvIndex.toNat⟩, made.1, p.stack⟩

/-- A statement of `pipe_and_exec` whose calls succeed. -/
def statement (w : World E) (s : State E) (pid : Nat) : Option (State E) :=
  let p := s.procs pid
  match p.pc with
  | .call argv => some (callStep s pid p argv)
  | .fork f =>
    some ({ s with nextPid := s.nextPid + 1 }.set pid { p with pc := .closeWrite f s.nextPid }
      |>.set s.nextPid { p with pc := .childCloseRead f })
  | .closeWrite f child => some (s.set pid (p.close f.pfd.2 (.dupRead f child)))
  | .dupRead f child => some (s.set pid (p.dup2 f.pfd.1 0 (.wait f child)))
  | .wait f child =>
    if (s.procs child).pc = .exited then some (s.set pid { p with pc := .closeRead f }) else none
  | .closeRead f =>
    some (s.set pid { p.close f.pfd.1 (.call f.split.rest) with stack := f :: p.stack })
  | .execRight f => some (s.exec w pid f.split.right.cells)
  | .childCloseRead f => some (s.set pid (p.close f.pfd.1 (.childDupWrite f)))
  | .childDupWrite f => some (s.set pid (p.dup2 f.pfd.2 1 (.childCloseWrite f)))
  | .childCloseWrite f => some (s.set pid (p.close f.pfd.2 (.execLeft f)))
  | .execLeft f => some (s.exec w pid f.split.left.cells)
  | .running _ => none
  | .exited => none

/-- A call that fails. After a failed `execvp` of the right side, control goes on into
the branch of the child. -/
def failure (s : State E) (pid : Nat) : Option (State E) :=
  let p := s.procs pid
  match p.pc with
  | .call _ => some (s.exit pid)
  | .fork _ => some (s.exit pid)
  | .execRight f => some (s.set pid { p with pc := .childCloseRead f })
  | .execLeft _ => some (s.exit pid)
  | _ => none

/-- Some process holds the read end of a pipe. -/
def State.HasReader (s : State E) (pipe : Nat) : Prop :=
  ∃ pid < s.nextPid, Holds (s.procs pid).fds (.read pipe)

variable [DecidableEq E]

instance (s : State E) (pipe : Nat) : Decidable (s.HasReader pipe) :=
  inferInstanceAs (Decidable (∃ pid < s.nextPid, Holds (s.procs pid).fds (.read pipe)))

/-- A program writes one byte. It blocks on a full pipe, and SIGPIPE ends it when the
pipe has no reader. -/
def programWrite (w : World E) (s : State E) (pid : Nat) : Option (State E) :=
  let p := s.procs pid
  match p.pc with
  | .running (n + 1) =>
    match lookup p.fds 1 with
    | some (.write pipe) =>
      if s.HasReader pipe then
        if s.pipes pipe < w.capacity then
          some ({ s with pipes := Function.update s.pipes pipe (s.pipes pipe + 1) }.set pid
            { p with pc := .running n })
        else none
      else some (s.exit pid)
    | _ => some (s.set pid { p with pc := .running n })
  | _ => none

/-- A program reads one byte from a pipe. -/
def programRead (s : State E) (pid : Nat) : Option (State E) :=
  let p := s.procs pid
  match p.pc with
  | .running _ =>
    match lookup p.fds 0 with
    | some (.read pipe) =>
      if 0 < s.pipes pipe then
        some { s with pipes := Function.update s.pipes pipe (s.pipes pipe - 1) }
      else none
    | _ => none
  | _ => none

def programExit (s : State E) (pid : Nat) : Option (State E) :=
  match (s.procs pid).pc with
  | .running 0 => some (s.exit pid)
  | _ => none

def next (w : World E) (act : Act) (s : State E) : Option (State E) :=
  match act with
  | .run pid => statement w s pid
  | .fails pid => failure s pid
  | .write pid => programWrite w s pid
  | .read pid => programRead s pid
  | .exit pid => programExit s pid

def Act.pid : Act → Nat
  | .run pid | .fails pid | .write pid | .read pid | .exit pid => pid

/-- A process that has ended takes no step. -/
theorem next_dead {w : World E} {act : Act} {s : State E} (ended : s.procs act.pid = .dead) :
    next w act s = none := by
  cases act <;>
    simp only [Act.pid] at ended <;>
    simp [next, statement, failure, programWrite, programRead, programExit, ended, Process.dead]

/-- Only a program writes, reads and exits. -/
theorem run_or_fails {w : World E} {act : Act} {s t : State E} {pid : Nat} (own : act.pid = pid)
    (notRunning : ∀ output, (s.procs pid).pc ≠ .running output) (h : next w act s = some t) :
    act = .run pid ∨ act = .fails pid := by
  cases act with
  | run p => exact Or.inl (congrArg Act.run own)
  | fails p => exact Or.inr (congrArg Act.fails own)
  | write p =>
    cases own
    simp only [next, programWrite] at h
    split at h
    · rename_i runs
      exact absurd runs (notRunning _)
    · cases h
  | read p =>
    cases own
    simp only [next, programRead] at h
    split at h
    · rename_i runs
      exact absurd runs (notRunning _)
    · cases h
  | exit p =>
    cases own
    simp only [next, programExit] at h
    split at h
    · rename_i runs
      exact absurd runs (notRunning _)
    · cases h

/-- Process 0 calls `pipe_and_exec`. -/
def State.initial (w : World E) (argv : List Word) : State E where
  nextPid := 1
  procs := fun pid =>
    if pid = 0 then ⟨.call argv, w.entry.map (Option.map .entry), []⟩ else .dead
  nextPipe := 0
  pipes := fun _ => 0
  execs := []

def pipeAndExec (w : World E) (argv : List Word) : StepSystem (State E) Act :=
  ofNext (· = State.initial w argv) (next w)

/-- Every `pipe`, `fork` and `execvp` succeeds. -/
def Succeeds (act : Act) (_ : State E) : Prop := ∀ pid, act ≠ .fails pid

end Shell
