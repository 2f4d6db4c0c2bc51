import NetworkSystemProgramming.ByteBuffers
import NetworkSystemProgramming.Pipes
import NetworkSystemProgramming.StepSystems

/-!
# The uppercase filter

`bidirection_pipe.c`, one statement at a time, in the process that is started and in all
that are forked: parent and child share the loop. A pipe transfers each write whole. The
only descriptors of the entry that are used are stdin and stdout; stdin gives one chunk for
each `read`, and nothing behind the last one.
-/

namespace BidirectionPipe

open ByteBuffers DescriptorTables Pipes StepSystems StepSystem

/-- The size of `buf`, `child_buf` and `parent_buf`. -/
def bufSize : Nat := 200

/-- The next statement of a process. -/
inductive Pc where
  | dupOut
  | dupIn
  /-- The test of the loop. -/
  | read
  | pipe1
  | pipe2
  | fork
  | childCloseP1Write
  | childDupStdin
  | childRead
  | childCloseP1Read
  /-- The loop with `toupper`. -/
  | childUpper
  | childCloseP2Read
  | childDupStdout
  | childWrite
  | childCloseP2Write
  | closeP1Read
  | dupStdout
  | write
  | closeP1Write
  | closeP2Write
  | dupStdin
  | readBack
  | closeP2Read
  | writeOut
  | wait
  /-- The end of the loop, for both. -/
  | memset
  | exited
  deriving DecidableEq, Repr

/-- A process with the local variables of `main`. -/
structure Process (E : Type) where
  pc : Pc
  fds : Table (End E)
  stdoutDup : Nat
  stdinDup : Nat
  p1 : Nat × Nat
  p2 : Nat × Nat
  pid : Nat
  buf : Buffer bufSize
  childBuf : Buffer bufSize
  parentBuf : Buffer bufSize

structure State (E : Type) where
  nextPid : Nat
  procs : Nat → Process E
  nextPipe : Nat
  pipes : Nat → List Byte
  /-- The chunks that are still to be read. -/
  stdin : List (List Byte)
  stdout : List Byte

inductive Act where
  | run (pid : Nat)
  /-- `read`, `write`, `pipe` or `fork` fails. -/
  | fails (pid : Nat)
  deriving DecidableEq, Repr

variable {E : Type}

def toupper (c : Byte) : Byte := if 97 ≤ c ∧ c ≤ 122 then c - 32 else c

/-- The string that starts at a buffer; without a NUL it goes on into the bytes behind. -/
def stringAt (behind : List Byte) (buf : Buffer bufSize) : List Byte :=
  cstr (buf.bytes ++ behind ++ [0])

/-- The loop up to the first NUL. What it does to the bytes behind a full buffer is left out. -/
def upper (buf : Buffer bufSize) : Buffer bufSize := buf.receive (buf.str.map toupper)

def State.set (s : State E) (pid : Nat) (p : Process E) : State E :=
  { s with procs := Function.update s.procs pid p }

@[simp] theorem set_self (s : State E) (pid : Nat) (p : Process E) :
    (s.set pid p).procs pid = p := by
  simp [State.set]

theorem set_other (s : State E) {pid other : Nat} (p : Process E) (ne : other ≠ pid) :
    (s.set pid p).procs other = s.procs other := by
  simp [State.set, ne]

def State.setPipe (s : State E) (pipe : Nat) (bytes : List Byte) : State E :=
  { s with pipes := Function.update s.pipes pipe bytes }

@[simp] theorem set_nextPid (s : State E) (pid : Nat) (p : Process E) :
    (s.set pid p).nextPid = s.nextPid := rfl

def State.tables (s : State E) (pid : Nat) : Table (End E) := (s.procs pid).fds

def State.exit (s : State E) (pid : Nat) : State E :=
  s.set pid { s.procs pid with pc := .exited, fds := [] }

def Process.close (p : Process E) (fd : Nat) (pc : Pc) : Process E :=
  { p with fds := DescriptorTables.close p.fds fd, pc }

/-- The effect of `dup2`, whose result is not looked at. -/
def Process.dup2 (p : Process E) (old new : Nat) (pc : Pc) : Process E :=
  { p with fds := (DescriptorTables.dup2 p.fds old new).getD p.fds, pc }

/-- `dup`, which takes the lowest free descriptor; what is duplicated is open. -/
def Process.dup (p : Process E) (fd : Nat) : Table (End E) × Nat :=
  match lookup p.fds fd with
  | some x => (assign p.fds (lowest p.fds) x, lowest p.fds)
  | none => (p.fds, 0)

/-- `pipe`, with the state in which it is empty. -/
def State.makePipe (s : State E) (p : Process E) : State E × Table (End E) × Nat × Nat :=
  ({ s with nextPipe := s.nextPipe + 1 }.setPipe s.nextPipe [],
    allocPair p.fds (.read s.nextPipe) (.write s.nextPipe))

section
variable [DecidableEq E]

/-- The bytes that `read` returns, up to the size of a buffer. It waits for bytes while the
pipe has a writer, and returns 0 behind the last one. A read of anything else fails. -/
def readFd (s : State E) (pid fd : Nat) : Option (Option (List Byte) × State E) :=
  match lookup (s.procs pid).fds fd with
  | some (.entry _) =>
    match s.stdin with
    | [] => some (some [], s)
    | chunk :: rest => some (some chunk, { s with stdin := rest })
  | some (.read pipe) =>
    if s.pipes pipe ≠ [] then
      some (some ((s.pipes pipe).take bufSize), s.setPipe pipe ((s.pipes pipe).drop bufSize))
    else if Held s.tables s.nextPid (.write pipe) then none
    else some (some [], s)
  | _ => some (none, s)

/-- The state after a `write`; it fails when nobody can read the pipe. -/
def writeFd (s : State E) (pid fd : Nat) (bytes : List Byte) : Option (State E) :=
  match lookup (s.procs pid).fds fd with
  | some (.entry _) => some { s with stdout := s.stdout ++ bytes }
  | some (.write pipe) =>
    if Held s.tables s.nextPid (.read pipe) then some (s.setPipe pipe (s.pipes pipe ++ bytes))
    else none
  | _ => none

/-- A `read` of a process: what it does with the bytes, or its end when the call fails. -/
def readStep (s : State E) (pid fd : Nat) (got : List Byte → Process E) : Option (State E) :=
  match readFd s pid fd with
  | none => none
  | some (none, _) => some (s.exit pid)
  | some (some bytes, s) => some (s.set pid (got bytes))

def writeStep (s : State E) (pid fd : Nat) (bytes : List Byte) (p : Process E) : State E :=
  match writeFd s pid fd bytes with
  | none => s.exit pid
  | some s => s.set pid p

/-- A statement of the process `p`. The loop ends when `read` returns `EOF`, which is -1. -/
def statement (behind : List Byte) (s : State E) (pid : Nat) (p : Process E) :
    Option (State E) :=
  match p.pc with
  | .dupOut =>
    let made := p.dup 1
    some (s.set pid { p with pc := .dupIn, fds := made.1, stdoutDup := made.2 })
  | .dupIn =>
    let made := p.dup 0
    some (s.set pid { p with pc := .read, fds := made.1, stdinDup := made.2 })
  | .read =>
    readStep s pid p.stdinDup fun bytes => { p with pc := .pipe1, buf := p.buf.receive bytes }
  | .pipe1 =>
    let made := s.makePipe p
    some (made.1.set pid { p with pc := .pipe2, fds := made.2.1, p1 := made.2.2 })
  | .pipe2 =>
    let made := s.makePipe p
    some (made.1.set pid { p with pc := .fork, fds := made.2.1, p2 := made.2.2 })
  | .fork =>
    some ({ s with nextPid := s.nextPid + 1 }
      |>.set pid { p with pc := .closeP1Read, pid := s.nextPid }
      |>.set s.nextPid { p with pc := .childCloseP1Write, pid := 0 })
  | .childCloseP1Write => some (s.set pid (p.close p.p1.2 .childDupStdin))
  | .childDupStdin =>
    some (s.set pid { p.dup2 p.p1.1 0 .childRead with childBuf := Buffer.zero bufSize })
  | .childRead =>
    readStep s pid p.p1.1 fun bytes =>
      { p with pc := .childCloseP1Read, childBuf := p.childBuf.receive bytes }
  | .childCloseP1Read => some (s.set pid (p.close p.p1.1 .childUpper))
  | .childUpper => some (s.set pid { p with pc := .childCloseP2Read, childBuf := upper p.childBuf })
  | .childCloseP2Read => some (s.set pid (p.close p.p2.1 .childDupStdout))
  | .childDupStdout => some (s.set pid (p.dup2 p.p2.2 1 .childWrite))
  | .childWrite =>
    some (writeStep s pid p.p2.2 (stringAt behind p.childBuf) { p with pc := .childCloseP2Write })
  | .childCloseP2Write => some (s.set pid (p.close p.p2.2 .memset))
  | .closeP1Read => some (s.set pid (p.close p.p1.1 .dupStdout))
  | .dupStdout => some (s.set pid (p.dup2 p.p1.2 1 .write))
  | .write =>
    some (writeStep s pid p.p1.2 (stringAt behind p.buf ++ [0]) { p with pc := .closeP1Write })
  | .closeP1Write => some (s.set pid (p.close p.p1.2 .closeP2Write))
  | .closeP2Write => some (s.set pid (p.close p.p2.2 .dupStdin))
  | .dupStdin =>
    some (s.set pid { p.dup2 p.p2.1 0 .readBack with parentBuf := Buffer.zero bufSize })
  | .readBack =>
    readStep s pid p.p2.1 fun bytes =>
      { p with pc := .closeP2Read, parentBuf := p.parentBuf.receive bytes }
  | .closeP2Read => some (s.set pid (p.close p.p2.1 .writeOut))
  | .writeOut =>
    some (writeStep s pid p.stdoutDup (stringAt behind p.parentBuf) { p with pc := .wait })
  | .wait =>
    if (s.procs p.pid).pc = .exited then some (s.set pid { p with pc := .memset }) else none
  | .memset => some (s.set pid { p with pc := .read, buf := Buffer.zero bufSize })
  | .exited => none

/-- A call that fails ends the process. -/
def failure (s : State E) (pid : Nat) : Option (State E) :=
  match (s.procs pid).pc with
  | .read | .pipe1 | .pipe2 | .fork | .childRead | .childWrite | .write | .readBack | .writeOut =>
    some (s.exit pid)
  | _ => none

def next (behind : List Byte) (act : Act) (s : State E) : Option (State E) :=
  match act with
  | .run pid => statement behind s pid (s.procs pid)
  | .fails pid => failure s pid

/-- What can be seen of a step. -/
inductive Event where
  /-- A `read` of the original stdin, with the number that it returns. -/
  | read (pid n : Nat)
  | transform (pid : Nat)
  deriving DecidableEq, Repr

def events (act : Act) (s : State E) : List Event :=
  match act with
  | .run pid =>
    match (s.procs pid).pc with
    | .read => [.read pid (s.stdin.headD []).length]
    | .childUpper => [.transform pid]
    | _ => []
  | .fails _ => []

/-- A process in front of `main`. -/
def Process.start (fds : Table (End E)) : Process E where
  pc := .dupOut
  fds := fds
  stdoutDup := 0
  stdinDup := 0
  p1 := (0, 0)
  p2 := (0, 0)
  pid := 0
  buf := Buffer.zero bufSize
  childBuf := Buffer.zero bufSize
  parentBuf := Buffer.zero bufSize

def State.initial (entry : Table E) (stdin : List (List Byte)) : State E where
  nextPid := 1
  procs := fun pid =>
    if pid = 0 then Process.start (entry.map (Option.map .entry))
    else { Process.start [] with pc := .exited }
  nextPipe := 0
  pipes := fun _ => []
  stdin := stdin
  stdout := []

/-- No call fails. -/
def Succeeds (act : Act) (_ : State E) : Prop := ∀ pid, act ≠ .fails pid

instance (act : Act) (s : State E) : Decidable (Succeeds act s) :=
  match act with
  | .run _ => isTrue fun _ => Act.noConfusion
  | .fails pid => isFalse fun h => h pid rfl

def plainRuns (behind : List Byte) (entry : Table E) (stdin : List (List Byte)) :
    StepSystem (State E) Act :=
  (ofNext (· = State.initial entry stdin) (next behind)).restrict Succeeds

/-- The runs of the filter, with what can be seen of them. -/
def filterRuns (behind : List Byte) (entry : Table E) (stdin : List (List Byte)) :
    StepSystem (State E × List Event) Act :=
  (plainRuns behind entry stdin).logged events

end
end BidirectionPipe
