import NetworkSystemProgramming.ByteBuffers
import NetworkSystemProgramming.ChildProcesses
import NetworkSystemProgramming.Pipes

/-!
# A listing through a pipe

`pipe_ls.c` from the `fork` on: the child becomes "ls -l" with the pipe as its standard
output, the parent prints what it reads and waits for the child. The pipe has a finite
capacity, a write and a read transfer as many bytes as the label says. What "ls" writes is
given by the environment.
-/

namespace Listing

open ByteBuffers StepSystems StepSystem DescriptorTables Pipes ChildProcesses

variable {E : Type}

/-- The size of `buf`, and how much of it is read into. -/
def BUF_SIZE : Nat := 1024
def READ_SIZE : Nat := 1023

def STDIN_FILENO : Nat := 0
def STDOUT_FILENO : Nat := 1

inductive ChildPc where
  | closeRead
  | closeStdout
  | dup
  | closeWrite
  | execlp
  | writing
  | exited
  deriving DecidableEq, Repr

inductive ParentPc where
  | closeWrite
  | closeStdin
  | dup
  | reading
  | closeRead
  | waiting
  | exited (status : Nat)
  deriving DecidableEq, Repr

/-- How a process ends. -/
inductive Status where
  | exited (code : Nat)
  | killed (sig : Nat)
  deriving DecidableEq, Repr

def SIGPIPE : Nat := 13

structure World (E : Type) where
  entries : Table E
  capacity : Nat
  /-- Whether `execlp` finds "ls". -/
  found : Bool
  output : List Byte
  status : Nat

structure State (E : Type) where
  p : Nat × Nat
  child : ChildPc
  childFds : Table (End E)
  /-- What the program has still to write. -/
  todo : List Byte
  parent : ParentPc
  parentFds : Table (End E)
  buf : Buffer BUF_SIZE
  /-- The blocks that `read` has returned. -/
  chunks : List (List Byte)
  stdout : List Byte
  pipe : List Byte
  family : Family Unit Status

/-- A process holds the end. -/
def State.Held (s : State E) (x : End E) : Prop := Holds s.childFds x ∨ Holds s.parentFds x

instance [DecidableEq E] (s : State E) (x : End E) : Decidable (s.Held x) :=
  inferInstanceAs (Decidable (Holds s.childFds x ∨ Holds s.parentFds x))

/-- An exit closes all descriptors. -/
def State.childExits (s : State E) (status : Status) : State E :=
  { s with
    child := .exited
    childFds := []
    family := (s.family.ends () status).getD s.family }

def State.parentExits (s : State E) (status : Nat) : State E :=
  { s with parent := .exited status, parentFds := [] }

/-- `dup`, with the descriptor that it returns. -/
def dup (t : Table (End E)) (fd : Nat) : Option (Table (End E) × Nat) :=
  (lookup t fd).map fun x => (assign t (lowest t) x, lowest t)

variable [DecidableEq E]

/-- One statement of the child, or a write of `n` bytes of the program. A write without a
reader kills it. -/
def childStep (w : World E) (n : Nat) (s : State E) : Option (State E) :=
  match s.child with
  | .closeRead => some { s with child := .closeStdout, childFds := close s.childFds s.p.1 }
  | .closeStdout => some { s with child := .dup, childFds := close s.childFds STDOUT_FILENO }
  | .dup =>
    match dup s.childFds s.p.2 with
    | some (fds, fd) =>
      if fd = STDOUT_FILENO then some { s with child := .closeWrite, childFds := fds }
      else some (s.childExits (.exited 1))
    | none => some (s.childExits (.exited 1))
  | .closeWrite => some { s with child := .execlp, childFds := close s.childFds s.p.2 }
  | .execlp =>
    if w.found then some { s with child := .writing, todo := w.output }
    else some (s.childExits (.exited 1))
  | .writing =>
    if s.todo = [] then some (s.childExits (.exited w.status))
    else
      match lookup s.childFds STDOUT_FILENO with
      | some (.write _) =>
        if s.Held (.read 0) then
          if 0 < n ∧ n ≤ s.todo.length ∧ s.pipe.length + n ≤ w.capacity then
            some { s with todo := s.todo.drop n, pipe := s.pipe ++ s.todo.take n }
          else none
        else some (s.childExits (.killed SIGPIPE))
      | _ => some { s with todo := s.todo.drop 1 }
  | .exited => none

/-- One statement of the parent; `read` returns `n` bytes, and 0 when the pipe is empty and
nobody can write to it. -/
def parentStep (n : Nat) (s : State E) : Option (State E) :=
  match s.parent with
  | .closeWrite => some { s with parent := .closeStdin, parentFds := close s.parentFds s.p.2 }
  | .closeStdin => some { s with parent := .dup, parentFds := close s.parentFds STDIN_FILENO }
  | .dup =>
    match dup s.parentFds s.p.1 with
    | some (fds, fd) =>
      if fd = STDIN_FILENO then some { s with parent := .reading, parentFds := fds }
      else some (s.parentExits 1)
    | none => some (s.parentExits 1)
  | .reading =>
    match lookup s.parentFds s.p.1 with
    | some (.read _) =>
      if s.pipe ≠ [] then
        if 0 < n ∧ n ≤ READ_SIZE ∧ n ≤ s.pipe.length then
          ((s.buf.receive (s.pipe.take n)).store n 0).map fun buf =>
            { s with
              buf
              chunks := s.chunks ++ [s.pipe.take n]
              stdout := s.stdout ++ buf.str
              pipe := s.pipe.drop n }
        else none
      else if s.Held (.write 0) then none
      else some { s with parent := .closeRead }
    | _ => some { s with parent := .closeRead }
  | .closeRead => some { s with parent := .waiting, parentFds := close s.parentFds s.p.1 }
  | .waiting =>
    match s.family.waitFor () with
    | (.child _ _, family) => some ({ s with family }.parentExits 0)
    | (.nobody, _) => none
    | (.echild, _) => some (s.parentExits 1)
  | .exited _ => none

inductive Act where
  | child (n : Nat)
  | parent (n : Nat)
  deriving DecidableEq, Repr

def next (w : World E) : Act → State E → Option (State E)
  | .child n, s => childStep w n s
  | .parent n, s => parentStep n s

/-- The table after `pipe`, and the two descriptors. -/
def piped (entries : Table E) : Table (End E) × Nat × Nat :=
  allocPair (entries.map (Option.map .entry)) (.read 0) (.write 0)

def State.initial (w : World E) : State E where
  p := (piped w.entries).2
  child := .closeRead
  childFds := (piped w.entries).1
  todo := []
  parent := .closeWrite
  parentFds := (piped w.entries).1
  buf := Buffer.zero _
  chunks := []
  stdout := []
  pipe := []
  family := Family.empty.fork ()

def pipeLs (w : World E) : StepSystem (State E) Act :=
  ofNext (· = State.initial w) (next w)

/-! ## The descriptors -/

/-- The standard input and the standard output are open at entry. -/
def World.Opened (w : World E) : Prop :=
  lookup w.entries STDIN_FILENO ≠ none ∧ lookup w.entries STDOUT_FILENO ≠ none

def World.p (w : World E) : Nat × Nat := (piped w.entries).2

def World.base (w : World E) : Nat → Option (End E) := lookup (piped w.entries).1

/-- What the child has open in front of each statement. -/
def childTable (w : World E) : ChildPc → Nat → Option (End E)
  | .closeRead => w.base
  | .closeStdout => Function.update w.base w.p.1 none
  | .dup => Function.update (Function.update w.base w.p.1 none) STDOUT_FILENO none
  | .closeWrite => Function.update (Function.update w.base w.p.1 none) STDOUT_FILENO
      (some (.write 0))
  | .execlp | .writing => Function.update (Function.update (Function.update w.base w.p.1 none)
      STDOUT_FILENO (some (.write 0))) w.p.2 none
  | .exited => fun _ => none

def parentTable (w : World E) : ParentPc → Nat → Option (End E)
  | .closeWrite => w.base
  | .closeStdin => Function.update w.base w.p.2 none
  | .dup => Function.update (Function.update w.base w.p.2 none) STDIN_FILENO none
  | .reading | .closeRead => Function.update (Function.update w.base w.p.2 none) STDIN_FILENO
      (some (.read 0))
  | .waiting => Function.update (Function.update (Function.update w.base w.p.2 none)
      STDIN_FILENO (some (.read 0))) w.p.1 none
  | .exited _ => fun _ => none

/-- What is known of the two ends. -/
structure World.Ends (w : World E) : Prop where
  differ : w.p.1 ≠ w.p.2
  read : w.base w.p.1 = some (.read 0)
  write : w.base w.p.2 = some (.write 0)
  writeOnly : ∀ fd, w.base fd = some (.write 0) → fd = w.p.2
  stdin : w.base STDIN_FILENO ≠ none ∧ STDIN_FILENO ≠ w.p.1 ∧ STDIN_FILENO ≠ w.p.2
  stdout : STDOUT_FILENO ≠ w.p.1 ∧ STDOUT_FILENO ≠ w.p.2

omit [DecidableEq E] in
theorem World.Opened.ends {w : World E} (opened : w.Opened) : w.Ends := by
  obtain ⟨a, b, fresh, differ, freeA, freeB, table⟩ :=
    allocPair_spec (w.entries.map (Option.map .entry)) (End.read 0) (End.write (E := E) 0)
  have p : w.p = (a, b) := fresh
  have base : w.base = Function.update (Function.update
      (lookup (w.entries.map (Option.map .entry))) a (some (.read 0))) b (some (.write 0)) := table
  have entry : ∀ fd, lookup w.entries fd ≠ none →
      lookup (w.entries.map (Option.map (End.entry (E := E)))) fd ≠ none := by
    intro fd open_
    rw [lookup_map]
    simpa using open_
  have apart : ∀ fd, lookup w.entries fd ≠ none → fd ≠ a ∧ fd ≠ b := by
    intro fd open_
    refine ⟨?_, ?_⟩
    · rintro rfl
      exact entry _ open_ freeA
    · rintro rfl
      exact entry _ open_ freeB
  obtain ⟨inA, inB⟩ := apart _ opened.1
  obtain ⟨outA, outB⟩ := apart _ opened.2
  have writeOnly : ∀ fd, w.base fd = some (.write 0) → fd = b := by
    intro fd holds
    by_contra other
    rw [base, Function.update_of_ne other] at holds
    by_cases reads : fd = a
    · rw [reads, Function.update_self] at holds
      cases holds
    · rw [Function.update_of_ne reads, lookup_map] at holds
      obtain ⟨e, -, same⟩ := Option.map_eq_some_iff.mp holds
      cases same
  refine ⟨?_, ?_, ?_, ?_, ?_, ?_⟩
  · rw [p]; exact differ
  · rw [p, base, Function.update_of_ne differ, Function.update_self]
  · rw [p, base, Function.update_self]
  · rw [p]; exact writeOnly
  · rw [p]
    refine ⟨?_, inA, inB⟩
    rw [base, Function.update_of_ne inB, Function.update_of_ne inA]
    exact entry _ opened.1
  · rw [p]; exact ⟨outA, outB⟩

section
variable {w : World E}

omit [DecidableEq E] in
/-- The `dup` of the child gives its standard output. -/
theorem childTable_dup (ends : w.Ends) {fds : Table (End E)}
    (table : lookup fds = childTable w .dup) :
    ∃ fds', dup fds w.p.2 = some (fds', STDOUT_FILENO) ∧
      lookup fds' = childTable w .closeWrite := by
  have free : lookup fds STDOUT_FILENO = none := by rw [table, childTable, Function.update_self]
  have write : lookup fds w.p.2 = some (.write 0) := by
    rw [table, childTable, Function.update_of_ne ends.stdout.2.symm,
      Function.update_of_ne ends.differ.symm, ends.write]
  have first : lowest fds = STDOUT_FILENO := by
    refine lowest_eq free fun i below => ?_
    obtain rfl : i = STDIN_FILENO := Nat.lt_one_iff.mp below
    rw [table, childTable, Function.update_of_ne (by decide),
      Function.update_of_ne ends.stdin.2.1]
    exact ends.stdin.1
  refine ⟨assign fds STDOUT_FILENO (.write 0), by rw [dup, write, first]; rfl, ?_⟩
  rw [lookup_assign, table, childTable, childTable, Function.update_idem]

omit [DecidableEq E] in
/-- The `dup` of the parent gives its standard input. -/
theorem parentTable_dup (ends : w.Ends) {fds : Table (End E)}
    (table : lookup fds = parentTable w .dup) :
    ∃ fds', dup fds w.p.1 = some (fds', STDIN_FILENO) ∧ lookup fds' = parentTable w .reading := by
  have free : lookup fds STDIN_FILENO = none := by rw [table, parentTable, Function.update_self]
  have read : lookup fds w.p.1 = some (.read 0) := by
    rw [table, parentTable, Function.update_of_ne ends.stdin.2.1.symm,
      Function.update_of_ne ends.differ, ends.read]
  have first : lowest fds = STDIN_FILENO :=
    lowest_eq free fun i below => absurd below (Nat.not_lt_zero i)
  refine ⟨assign fds STDIN_FILENO (.read 0), by rw [dup, read, first]; rfl, ?_⟩
  rw [lookup_assign, table, parentTable, parentTable, Function.update_idem]

omit [DecidableEq E] in
/-- The child holds the write end until it exits. -/
theorem childTable_writes (ends : w.Ends) {pc : ChildPc} (runs : pc ≠ .exited) :
    ∃ fd, childTable w pc fd = some (.write 0) := by
  have later : ∃ fd, childTable w .writing fd = some (.write 0) :=
    ⟨STDOUT_FILENO, by rw [childTable, Function.update_of_ne ends.stdout.2, Function.update_self]⟩
  cases pc with
  | closeRead => exact ⟨w.p.2, ends.write⟩
  | closeStdout =>
    exact ⟨w.p.2, by rw [childTable, Function.update_of_ne ends.differ.symm, ends.write]⟩
  | dup =>
    exact ⟨w.p.2, by rw [childTable, Function.update_of_ne ends.stdout.2.symm,
      Function.update_of_ne ends.differ.symm, ends.write]⟩
  | closeWrite => exact ⟨STDOUT_FILENO, by rw [childTable, Function.update_self]⟩
  | execlp => exact later
  | writing => exact later
  | exited => exact absurd rfl runs

omit [DecidableEq E] in
/-- The parent holds the read end until it exits. -/
theorem parentTable_reads (ends : w.Ends) {pc : ParentPc} (runs : ∀ status, pc ≠ .exited status) :
    ∃ fd, parentTable w pc fd = some (.read 0) := by
  have later : ∃ fd, parentTable w .reading fd = some (.read 0) :=
    ⟨STDIN_FILENO, by rw [parentTable, Function.update_self]⟩
  cases pc with
  | closeWrite => exact ⟨w.p.1, ends.read⟩
  | closeStdin =>
    exact ⟨w.p.1, by rw [parentTable, Function.update_of_ne ends.differ, ends.read]⟩
  | dup =>
    exact ⟨w.p.1, by rw [parentTable, Function.update_of_ne ends.stdin.2.1.symm,
      Function.update_of_ne ends.differ, ends.read]⟩
  | reading => exact later
  | closeRead => exact later
  | waiting =>
    exact ⟨STDIN_FILENO, by rw [parentTable, Function.update_of_ne ends.stdin.2.1,
      Function.update_self]⟩
  | exited status => exact absurd rfl (runs status)

omit [DecidableEq E] in
/-- Behind its first `close` the parent does not hold the write end. -/
theorem parentTable_reading (ends : w.Ends) (fd : Nat) :
    parentTable w .reading fd ≠ some (.write 0) := by
  rw [parentTable]
  by_cases stdin : fd = STDIN_FILENO
  · rw [stdin, Function.update_self]
    simp
  · rw [Function.update_of_ne stdin]
    by_cases write : fd = w.p.2
    · rw [write, Function.update_self]
      simp
    · rw [Function.update_of_ne write]
      exact fun holds => write (ends.writeOnly fd holds)

end

/-! ## Every run -/

/-- What the program writes; without "ls" there is no program. -/
def World.text (w : World E) : List Byte := if w.found then w.output else []

structure State.Sound (w : World E) (s : State E) : Prop where
  p : s.p = w.p
  childFds : lookup s.childFds = childTable w s.child
  parentFds : lookup s.parentFds = parentTable w s.parent
  fine : ∀ status, s.parent = .exited status → status = 0
  ended : s.parent = .closeRead ∨ s.parent = .waiting ∨ s.parent = .exited 0 →
    s.child = .exited ∧ s.pipe = []
  running : s.child ≠ .exited → s.family.running = [()] ∧ s.family.zombies = []
  zombie : s.child = .exited → (∀ status, s.parent ≠ .exited status) →
    s.family.running = [] ∧ ∃ status, s.family.zombies = [((), status)]
  collected : ∀ status, s.parent = .exited status → s.family.pids = []
  before : s.child ≠ .writing → s.child ≠ .exited →
    s.chunks = [] ∧ s.pipe = [] ∧ s.todo = []
  stream : s.child = .writing ∨ s.child = .exited →
    s.chunks.flatten ++ s.pipe ++ s.todo = w.text
  written : s.child = .exited → s.todo = []
  stdout : s.stdout = s.chunks.flatMap cstr

section
variable {w : World E} {s t : State E} {n : Nat}

omit [DecidableEq E] in
theorem State.Sound.start : (State.initial w).Sound w where
  p := rfl
  childFds := rfl
  parentFds := rfl
  fine status place := by cases place
  ended := by rintro (place | place | place) <;> cases place
  running _ := ⟨rfl, rfl⟩
  zombie place := by cases place
  collected status place := by cases place
  before _ _ := ⟨rfl, rfl, rfl⟩
  stream := by rintro (place | place) <;> cases place
  written place := by cases place
  stdout := rfl

omit [DecidableEq E] in
theorem State.Sound.parent_runs (sound : s.Sound w) (runs : s.child ≠ .exited) :
    s.parent ≠ .closeRead ∧ s.parent ≠ .waiting ∧ ∀ status, s.parent ≠ .exited status := by
  refine ⟨fun place => runs (sound.ended (Or.inl place)).1,
    fun place => runs (sound.ended (Or.inr (Or.inl place))).1, ?_⟩
  rintro status place
  obtain rfl := sound.fine status place
  exact runs (sound.ended (Or.inr (Or.inr place))).1

omit [DecidableEq E] in
/-- A statement of the child in front of the program. -/
theorem State.Sound.child_prepares (sound : s.Sound w) (runs : s.child ≠ .exited)
    (early : s.child ≠ .writing) {pc : ChildPc} (pcRuns : pc ≠ .exited) (pcEarly : pc ≠ .writing)
    {fds : Table (End E)} (table : lookup fds = childTable w pc) :
    State.Sound w { s with child := pc, childFds := fds } := by
  obtain ⟨open_, waiting, exited⟩ := sound.parent_runs runs
  have before := sound.before early runs
  refine ⟨sound.p, table, sound.parentFds, sound.fine, ?_, fun _ => sound.running runs, ?_,
    sound.collected, fun _ _ => before, ?_, ?_, sound.stdout⟩
  · rintro (place | place | place)
    · exact absurd place open_
    · exact absurd place waiting
    · exact absurd place (exited 0)
  · intro place
    exact absurd place pcRuns
  · rintro (place | place)
    · exact absurd place pcEarly
    · exact absurd place pcRuns
  · intro place
    exact absurd place pcRuns

omit [DecidableEq E] in
/-- The child exits with nothing left to write. -/
theorem State.Sound.child_exits (sound : s.Sound w) (runs : s.child ≠ .exited) (status : Status)
    (stream : s.chunks.flatten ++ s.pipe ++ s.todo = w.text) (written : s.todo = []) :
    State.Sound w (s.childExits status) := by
  obtain ⟨open_, waiting, exited⟩ := sound.parent_runs runs
  obtain ⟨running, zombies⟩ := sound.running runs
  have ends : s.family.ends () status = some ⟨[], [((), status)], true⟩ := by
    rw [Family.ends, running, zombies]
    rfl
  refine ⟨sound.p, rfl, sound.parentFds, sound.fine, ?_, fun place => absurd rfl place, ?_, ?_, ?_,
    fun _ => stream, fun _ => written, sound.stdout⟩
  · rintro (place | place | place)
    · exact absurd place open_
    · exact absurd place waiting
    · exact absurd place (exited 0)
  · intro _ _
    rw [State.childExits, ends]
    exact ⟨rfl, status, rfl⟩
  · intro status' place
    exact absurd place (exited status')
  · intro _ place
    exact absurd rfl place

theorem State.Sound.child_step (ends : w.Ends) (sound : s.Sound w)
    (step : childStep w n s = some t) : t.Sound w := by
  have table := sound.childFds
  cases place : s.child with
  | closeRead =>
    simp only [childStep, place, Option.some.injEq] at step
    subst step
    refine sound.child_prepares (by simp [place]) (by simp [place]) (by simp) (by simp) ?_
    rw [lookup_close, table, place, sound.p, childTable, childTable]
  | closeStdout =>
    simp only [childStep, place, Option.some.injEq] at step
    subst step
    refine sound.child_prepares (by simp [place]) (by simp [place]) (by simp) (by simp) ?_
    rw [lookup_close, table, place, childTable, childTable]
  | dup =>
    rw [place] at table
    obtain ⟨fds, gives, table⟩ := childTable_dup ends table
    rw [← sound.p] at gives
    simp only [childStep, place, gives, if_true, Option.some.injEq] at step
    subst step
    exact sound.child_prepares (by simp [place]) (by simp [place]) (by simp) (by simp) table
  | closeWrite =>
    simp only [childStep, place, Option.some.injEq] at step
    subst step
    refine sound.child_prepares (by simp [place]) (by simp [place]) (by simp) (by simp) ?_
    rw [lookup_close, table, place, sound.p, childTable, childTable]
  | execlp =>
    obtain ⟨noChunks, noPipe, noTodo⟩ := sound.before (by simp [place]) (by simp [place])
    simp only [childStep, place] at step
    split at step
    · rename_i found
      cases step
      obtain ⟨open_, waiting, exited⟩ := sound.parent_runs (by simp [place])
      refine ⟨sound.p, ?_, sound.parentFds, sound.fine, ?_,
        fun _ => sound.running (by simp [place]), by rintro ⟨⟩, sound.collected,
        fun out => absurd rfl out, fun _ => ?_, by rintro ⟨⟩, sound.stdout⟩
      · rw [table, place]
        rfl
      · rintro (there | there | there)
        · exact absurd there open_
        · exact absurd there waiting
        · exact absurd there (exited 0)
      · simp [noChunks, noPipe, World.text, found]
    · rename_i missing
      cases step
      refine sound.child_exits (by simp [place]) _ ?_ noTodo
      simp [noChunks, noPipe, noTodo, World.text, missing]
  | writing =>
    have stream := sound.stream (Or.inl place)
    obtain ⟨open_, waiting, exited⟩ := sound.parent_runs (by simp [place])
    have stdout : lookup s.childFds STDOUT_FILENO = some (.write 0) := by
      rw [table, place, childTable, Function.update_of_ne ends.stdout.2, Function.update_self]
    have reader : s.Held (.read 0) := by
      obtain ⟨fd, holds⟩ := parentTable_reads ends exited
      exact Or.inr ⟨fd, by rw [sound.parentFds, holds]⟩
    simp only [childStep, place, stdout, if_pos reader] at step
    split at step
    · rename_i written
      cases step
      exact sound.child_exits (by simp [place]) _ stream written
    · obtain ⟨-, same⟩ := Option.ite_none_right_eq_some.mp step
      cases same
      refine ⟨sound.p, ?_, sound.parentFds, sound.fine, ?_,
        fun _ => sound.running (by simp [place]), by rintro ⟨⟩, sound.collected,
        fun out => absurd rfl out, fun _ => ?_, by rintro ⟨⟩, sound.stdout⟩
      · rw [table, place]
      · rintro (there | there | there)
        · exact absurd there open_
        · exact absurd there waiting
        · exact absurd there (exited 0)
      · simpa only [List.append_assoc, List.take_append_drop] using stream
  | exited => simp [childStep, place] at step

/-- What is printed of a block is the string in it. -/
theorem str_stored (buf : Buffer BUF_SIZE) (chunk : List Byte) (fits : chunk.length ≤ READ_SIZE) :
    ∃ buf', (buf.receive chunk).store chunk.length 0 = some buf' ∧ buf'.str = cstr chunk := by
  have room : chunk.length < BUF_SIZE := Nat.lt_succ_of_le fits
  refine ⟨_, if_pos room, ?_⟩
  have bytes : (buf.receive chunk).bytes = overwrite buf.bytes chunk :=
    buf.receive_bytes (Nat.le_of_lt room)
  have behind : (buf.bytes.drop chunk.length) ≠ [] := by
    intro nothing
    have length := congrArg List.length nothing
    rw [List.length_drop, buf.size_eq, List.length_nil] at length
    omega
  obtain ⟨c, rest, split⟩ := List.exists_cons_of_ne_nil behind
  rw [Buffer.str]
  simp only [bytes, overwrite, split]
  rw [List.set_append_right _ _ (Nat.le_refl _), Nat.sub_self, List.set_cons_zero]
  exact cstr_append_nul chunk rest

omit [DecidableEq E] in
/-- A statement of the parent in front of the loop. -/
theorem State.Sound.parent_prepares (sound : s.Sound w) {pc : ParentPc}
    (early : s.parent ≠ .closeRead ∧ s.parent ≠ .waiting ∧ ∀ status, s.parent ≠ .exited status)
    (pcEarly : pc ≠ .closeRead ∧ pc ≠ .waiting ∧ ∀ status, pc ≠ .exited status)
    {fds : Table (End E)} (table : lookup fds = parentTable w pc) :
    State.Sound w { s with parent := pc, parentFds := fds } := by
  obtain ⟨open_, waiting, exited⟩ := pcEarly
  refine ⟨sound.p, sound.childFds, table, fun status place => absurd place (exited status), ?_,
    sound.running, fun place _ => sound.zombie place early.2.2,
    fun status place => absurd place (exited status), sound.before, sound.stream, sound.written,
    sound.stdout⟩
  rintro (place | place | place)
  · exact absurd place open_
  · exact absurd place waiting
  · exact absurd place (exited 0)

omit [DecidableEq E] in
/-- A statement of the parent behind the loop, before it exits. -/
theorem State.Sound.parent_leaves (sound : s.Sound w) {pc : ParentPc}
    (runs : ∀ status, s.parent ≠ .exited status) (pcRuns : ∀ status, pc ≠ .exited status)
    (done : s.child = .exited ∧ s.pipe = []) {fds : Table (End E)}
    (table : lookup fds = parentTable w pc) :
    State.Sound w { s with parent := pc, parentFds := fds } := by
  refine ⟨sound.p, sound.childFds, table, fun status place => absurd place (pcRuns status),
    fun _ => done, sound.running, fun place _ => sound.zombie place runs,
    fun status place => absurd place (pcRuns status), sound.before, sound.stream, sound.written,
    sound.stdout⟩

theorem State.Sound.parent_step (ends : w.Ends) (sound : s.Sound w)
    (step : parentStep n s = some t) : t.Sound w := by
  have table := sound.parentFds
  cases place : s.parent with
  | closeWrite =>
    simp only [parentStep, place, Option.some.injEq] at step
    subst step
    refine sound.parent_prepares (by simp [place]) (by simp) ?_
    rw [lookup_close, table, place, sound.p, parentTable, parentTable]
  | closeStdin =>
    simp only [parentStep, place, Option.some.injEq] at step
    subst step
    refine sound.parent_prepares (by simp [place]) (by simp) ?_
    rw [lookup_close, table, place, parentTable, parentTable]
  | dup =>
    rw [place] at table
    obtain ⟨fds, gives, table⟩ := parentTable_dup ends table
    rw [← sound.p] at gives
    simp only [parentStep, place, gives, if_true, Option.some.injEq] at step
    subst step
    exact sound.parent_prepares (by simp [place]) (by simp) table
  | reading =>
    have readEnd : lookup s.parentFds s.p.1 = some (.read 0) := by
      rw [table, place, sound.p, parentTable, Function.update_of_ne ends.stdin.2.1.symm,
        Function.update_of_ne ends.differ, ends.read]
    simp only [parentStep, place, readEnd] at step
    split at step
    · obtain ⟨⟨positive, bound, available⟩, moved⟩ := Option.ite_none_right_eq_some.mp step
      obtain ⟨buf, stored, rfl⟩ := Option.map_eq_some_iff.mp moved
      have length : (s.pipe.take n).length = n := by
        rw [List.length_take, Nat.min_eq_left available]
      obtain ⟨buf', stored', text⟩ := str_stored s.buf (s.pipe.take n) (by rw [length]; exact bound)
      rw [length, stored] at stored'
      obtain rfl := Option.some.inj stored'
      have writing : s.child = .writing ∨ s.child = .exited := by
        by_contra early
        obtain ⟨notWriting, runs⟩ := not_or.mp early
        rw [(sound.before notWriting runs).2.1] at available
        exact Nat.not_lt.mpr available positive
      have stream := sound.stream writing
      refine ⟨sound.p, sound.childFds, ?_, ?_, ?_, sound.running, ?_, ?_, ?_, fun _ => ?_,
        sound.written, ?_⟩
      · rw [table, place]
      · rintro status ⟨⟩
      · rintro (there | there | there) <;> cases there
      · intro out _
        exact sound.zombie out (by simp [place])
      · rintro status ⟨⟩
      · intro notWriting runs
        rcases writing with writing | exited
        · exact absurd writing notWriting
        · exact absurd exited runs
      · have split := List.take_append_drop n s.pipe
        rw [← split] at stream
        simpa [List.append_assoc] using stream
      · rw [sound.stdout, text, List.flatMap_append, List.flatMap_singleton]
    · rename_i empty
      have empty : s.pipe = [] := not_not.mp empty
      obtain ⟨noWriter, same⟩ := Option.ite_none_left_eq_some.mp step
      cases same
      have out : s.child = .exited := by
        by_contra runs
        obtain ⟨fd, holds⟩ := childTable_writes ends runs
        exact noWriter (Or.inl ⟨fd, by rw [sound.childFds, holds]⟩)
      refine sound.parent_leaves (by simp [place]) (by simp) ⟨out, empty⟩ ?_
      rw [table, place]
      rfl
  | closeRead =>
    simp only [parentStep, place, Option.some.injEq] at step
    subst step
    refine sound.parent_leaves (by simp [place]) (by simp) (sound.ended (Or.inl place)) ?_
    rw [lookup_close, table, place, sound.p, parentTable, parentTable]
  | waiting =>
    have done := sound.ended (Or.inr (Or.inl place))
    obtain ⟨running, status, zombies⟩ := sound.zombie done.1 (by simp [place])
    have waited : s.family.waitFor () =
        (.child () status, { s.family with zombies := s.family.zombies.eraseP (·.1 = ()) }) := by
      simp [Family.waitFor, zombies]
    simp only [parentStep, place, waited, Option.some.injEq] at step
    subst step
    refine ⟨sound.p, sound.childFds, rfl, ?_, fun _ => done, ?_, ?_, ?_, sound.before, sound.stream,
      sound.written, sound.stdout⟩
    · rintro status' there
      cases there
      rfl
    · intro runs
      exact absurd done.1 runs
    · intro _ runs
      exact absurd rfl (runs 0)
    · intro _ _
      simp [Family.pids, State.parentExits, running, zombies]
  | exited status => simp [parentStep, place] at step

theorem reachable_sound (ends : w.Ends) (reach : (pipeLs w).Reachable s) : s.Sound w := by
  refine reach.invariant ?_ ?_
  · rintro r rfl
    exact .start
  · intro act r t sound step
    cases act with
    | child n => exact sound.child_step ends step
    | parent n => exact sound.parent_step ends step

/-! ## The end -/

def ChildPc.rank : ChildPc → Nat
  | .closeRead => 6
  | .closeStdout => 5
  | .dup => 4
  | .closeWrite => 3
  | .execlp => 2
  | .writing => 1
  | .exited => 0

def ParentPc.rank : ParentPc → Nat
  | .closeWrite => 6
  | .closeStdin => 5
  | .dup => 4
  | .reading => 3
  | .closeRead => 2
  | .waiting => 1
  | .exited _ => 0

/-- What the program has still to write. -/
def State.ahead (w : World E) (s : State E) : Nat :=
  match s.child with
  | .writing => s.todo.length
  | .exited => 0
  | _ => w.output.length

def State.work (w : World E) (s : State E) : Nat :=
  s.child.rank + s.parent.rank + 2 * s.ahead w + s.pipe.length

theorem childStep_work (step : childStep w n s = some t) : t.work w < s.work w := by
  unfold childStep at step
  split at step
  · rename_i place
    cases step
    simp [State.work, State.ahead, place, ChildPc.rank]
  · rename_i place
    cases step
    simp [State.work, State.ahead, place, ChildPc.rank]
  · rename_i place
    split at step
    · split at step
      · cases step
        simp [State.work, State.ahead, place, ChildPc.rank]
      · cases step
        simp [State.work, State.ahead, State.childExits, place, ChildPc.rank]
        omega
    · cases step
      simp [State.work, State.ahead, State.childExits, place, ChildPc.rank]
      omega
  · rename_i place
    cases step
    simp [State.work, State.ahead, place, ChildPc.rank]
  · rename_i place
    split at step
    · cases step
      simp [State.work, State.ahead, place, ChildPc.rank]
    · cases step
      simp [State.work, State.ahead, State.childExits, place, ChildPc.rank]
      omega
  · rename_i place
    split at step
    · rename_i written
      cases step
      simp [State.work, State.ahead, State.childExits, place, written, ChildPc.rank]
    · rename_i unwritten
      have positive := List.length_pos_iff.mpr unwritten
      split at step
      · split at step
        · obtain ⟨⟨more, available, -⟩, same⟩ := Option.ite_none_right_eq_some.mp step
          cases same
          simp only [State.work, State.ahead, place, List.length_drop, List.length_append,
            List.length_take, Nat.min_eq_left available]
          omega
        · cases step
          simp [State.work, State.ahead, State.childExits, place, ChildPc.rank]
          omega
      · cases step
        simp only [State.work, State.ahead, place, List.length_drop]
        omega
  · cases step

theorem parentStep_work (step : parentStep n s = some t) : t.work w < s.work w := by
  unfold parentStep at step
  split at step
  · rename_i place
    cases step
    simp [State.work, State.ahead, place, ParentPc.rank]
  · rename_i place
    cases step
    simp [State.work, State.ahead, place, ParentPc.rank]
  · rename_i place
    split at step
    · split at step
      · cases step
        simp [State.work, State.ahead, place, ParentPc.rank]
      · cases step
        simp [State.work, State.ahead, State.parentExits, place, ParentPc.rank]
    · cases step
      simp [State.work, State.ahead, State.parentExits, place, ParentPc.rank]
  · rename_i place
    split at step
    · split at step
      · obtain ⟨⟨positive, -, available⟩, moved⟩ := Option.ite_none_right_eq_some.mp step
        obtain ⟨buf, -, rfl⟩ := Option.map_eq_some_iff.mp moved
        simp only [State.work, State.ahead, place, List.length_drop]
        omega
      · obtain ⟨-, same⟩ := Option.ite_none_left_eq_some.mp step
        cases same
        simp [State.work, State.ahead, place, ParentPc.rank]
    · cases step
      simp [State.work, State.ahead, place, ParentPc.rank]
  · rename_i place
    cases step
    simp [State.work, State.ahead, place, ParentPc.rank]
  · rename_i place
    split at step
    · cases step
      simp [State.work, State.ahead, State.parentExits, place, ParentPc.rank]
    · cases step
    · cases step
      simp [State.work, State.ahead, State.parentExits, place, ParentPc.rank]
  · cases step

/-- Until the parent has exited one of the two can go on. -/
theorem State.Sound.moves (ends : w.Ends) (room : 0 < w.capacity) (sound : s.Sound w)
    (running : ∀ status, s.parent ≠ .exited status) :
    ∃ act t, (pipeLs w).step act s t := by
  have child : childStep w 1 s ≠ none → ∃ act t, (pipeLs w).step act s t := by
    intro moves
    obtain ⟨t, step⟩ := Option.ne_none_iff_exists'.mp moves
    exact ⟨.child 1, t, step⟩
  have parent : parentStep 1 s ≠ none → ∃ act t, (pipeLs w).step act s t := by
    intro moves
    obtain ⟨t, step⟩ := Option.ne_none_iff_exists'.mp moves
    exact ⟨.parent 1, t, step⟩
  have readEnd : s.parent = .reading → lookup s.parentFds s.p.1 = some (.read 0) := by
    intro place
    rw [sound.parentFds, place, sound.p, parentTable, Function.update_of_ne ends.stdin.2.1.symm,
      Function.update_of_ne ends.differ, ends.read]
  have reads : s.parent = .reading → s.pipe ≠ [] → parentStep 1 s ≠ none := by
    intro place some_
    obtain ⟨c, rest, split⟩ := List.exists_cons_of_ne_nil some_
    obtain ⟨buf, stored, -⟩ := str_stored s.buf [c] (by rw [List.length_singleton]; decide)
    have stored : (s.buf.receive [c]).store 1 0 = some buf := stored
    simp [parentStep, place, readEnd place, split, stored, READ_SIZE]
  cases place : s.parent with
  | closeWrite => exact parent (by simp [parentStep, place])
  | closeStdin => exact parent (by simp [parentStep, place])
  | dup =>
    have table := sound.parentFds
    rw [place] at table
    obtain ⟨fds, gives, -⟩ := parentTable_dup ends table
    rw [← sound.p] at gives
    exact parent (by simp [parentStep, place, gives])
  | closeRead => exact parent (by simp [parentStep, place])
  | waiting =>
    obtain ⟨-, status, zombies⟩ :=
      sound.zombie (sound.ended (Or.inr (Or.inl place))).1 (by simp [place])
    exact parent (by simp [parentStep, place, Family.waitFor, zombies])
  | exited status => exact absurd place (running status)
  | reading =>
    by_cases empty : s.pipe = []
    · cases there : s.child with
      | exited =>
        have noWriter : ¬ s.Held (.write 0) := by
          rintro (⟨fd, holds⟩ | ⟨fd, holds⟩)
          · rw [sound.childFds, there] at holds
            cases holds
          · rw [sound.parentFds, place] at holds
            exact parentTable_reading ends fd holds
        exact parent (by simp [parentStep, place, readEnd place, empty, noWriter])
      | writing =>
        obtain ⟨fd, holds⟩ := parentTable_reads ends running
        have reader : s.Held (.read 0) := Or.inr ⟨fd, by rw [sound.parentFds, holds]⟩
        have stdout : lookup s.childFds STDOUT_FILENO = some (.write 0) := by
          rw [sound.childFds, there, childTable, Function.update_of_ne ends.stdout.2,
            Function.update_self]
        by_cases written : s.todo = []
        · exact child (by simp [childStep, there, written])
        · have positive : 1 ≤ s.todo.length := List.length_pos_iff.mpr written
          have fits : 1 ≤ w.capacity := room
          exact child (by simp [childStep, there, written, stdout, reader, empty, positive, fits])
      | closeRead => exact child (by simp [childStep, there])
      | closeStdout => exact child (by simp [childStep, there])
      | dup =>
        have table := sound.childFds
        rw [there] at table
        obtain ⟨fds, gives, -⟩ := childTable_dup ends table
        rw [← sound.p] at gives
        exact child (by simp [childStep, there, gives])
      | closeWrite => exact child (by simp [childStep, there])
      | execlp =>
        cases found : w.found <;> exact child (by simp [childStep, there, found])
    · exact parent (reads place empty)

end

theorem flatMap_cstr {chunks : List (List Byte)} (clean : 0 ∉ chunks.flatten) :
    chunks.flatMap cstr = chunks.flatten := by
  induction chunks with
  | nil => rfl
  | cons chunk rest ih =>
    rw [List.flatten_cons, List.mem_append, not_or] at clean
    rw [List.flatMap_cons, List.flatten_cons, ih clean.2, cstr_of_clean clean.1]

/-- What has been read is always a first part of the output. Whatever the capacity of the pipe
and the sizes of the transfers, the two processes come to their end: then everything has been
read, an output without NUL has been printed as it is, and the child has been collected. -/
theorem listing_printed {w : World E} (opened : w.Opened) (room : 0 < w.capacity) {s : State E}
    (reach : (pipeLs w).Reachable s) :
    s.chunks.flatten <+: w.text ∧ s.stdout = s.chunks.flatMap cstr ∧
    Inevitable (pipeLs w) (fun t : State E => t.parent = .exited 0 ∧ t.child = .exited ∧
      t.family.pids = [] ∧ t.chunks.flatten = w.text ∧ (0 ∉ w.text → t.stdout = w.text)) s := by
  have ends := opened.ends
  have sound := reachable_sound ends reach
  refine ⟨?_, sound.stdout, ?_⟩
  · by_cases early : s.child = .writing ∨ s.child = .exited
    · rw [← sound.stream early, List.append_assoc]
      exact List.prefix_append _ _
    · obtain ⟨notWriting, runs⟩ := not_or.mp early
      rw [(sound.before notWriting runs).1]
      exact List.nil_prefix
  · have ending : Inevitable (pipeLs w) (fun t : State E => ∃ status, t.parent = .exited status)
        s := by
      refine Inevitable.of_measure (State.Sound w) Nat.lt_wfRel.wf (State.work w) ?_ ?_ s sound
      · intro t sound running
        exact sound.moves ends room fun status place => running ⟨status, place⟩
      · intro act r t sound step
        cases act with
        | child n => exact ⟨sound.child_step ends step, childStep_work step⟩
        | parent n => exact ⟨sound.parent_step ends step, parentStep_work step⟩
    refine ending.mono ?_
    rintro t run ⟨status, place⟩
    have sound := reachable_sound ends (reach.run run)
    obtain rfl := sound.fine status place
    obtain ⟨out, empty⟩ := sound.ended (Or.inr (Or.inr place))
    have all : t.chunks.flatten = w.text := by
      have stream := sound.stream (Or.inr out)
      rwa [empty, sound.written out, List.append_nil, List.append_nil] at stream
    refine ⟨place, out, sound.collected 0 place, all, fun clean => ?_⟩
    rw [sound.stdout, flatMap_cstr (by rw [all]; exact clean), all]

/-- A pipe of two bytes. -/
def twoFiles : World String :=
  ⟨[some "in", some "out", some "err"], 2, true, [97, 10, 98, 10], 0⟩

/-- The child has written "a" and a newline, and both wait. -/
def pipeFull : List Act :=
  [.child 0, .child 0, .child 0, .child 0, .child 0, .child 2]

theorem two_files_listed :
    ∃ s : State String, s.pipe = [97, 10] ∧
      Inevitable (pipeLs twoFiles) (fun t : State String => t.parent = .exited 0 ∧
        t.child = .exited ∧ t.family.pids = [] ∧ t.chunks.flatten = twoFiles.text ∧
        (0 ∉ twoFiles.text → t.stdout = twoFiles.text)) s := by
  have run : ∃ s, follow (next twoFiles) pipeFull (State.initial twoFiles) = some s ∧
      s.pipe = [97, 10] := ⟨_, rfl, rfl⟩
  obtain ⟨s, run, pipe⟩ := run
  have reach : (pipeLs twoFiles).Reachable s := (Reachable.initial rfl).run (follow_run run)
  have opened : twoFiles.Opened := by
    constructor <;> simp [twoFiles, lookup, STDIN_FILENO, STDOUT_FILENO]
  exact ⟨s, pipe, (listing_printed opened (by decide) reach).2.2⟩

end Listing
