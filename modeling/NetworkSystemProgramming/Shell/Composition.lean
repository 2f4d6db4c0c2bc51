import NetworkSystemProgramming.Shell.FailedExec
import NetworkSystemProgramming.Shell.Wiring
import NetworkSystemProgramming.StreamPrograms

/-!
# What a pipeline computes

The processes of `pipe_and_exec` with the bytes that go through the pipes and with the
programs that are exec'd. The stdin of the shell is the input, and when nothing fails, the
vectors are found as they were meant and the outputs fit in the pipes, the stdout gets what the
programs make of it one after the other.
-/

namespace Shell

open DescriptorTables StepSystems StepSystem StreamPrograms

variable {E B P : Type} {heap : Heap}

/-- What `execvp` loads for the words of a command, and how it goes on. -/
structure Programs (B P : Type) where
  load : List Word → P
  turn : P → Operation B P

/-- The processes, the program that each of them runs, the bytes in the pipes, and what was
open at entry as descriptors 0 and 1. -/
structure Flow (E B P : Type) where
  core : State E
  program : Nat → Option P
  contents : Nat → List B
  stdin : List B
  stdout : List B

/-- Some process holds the write end of a pipe. -/
def State.HasWriter (s : State E) (pipe : Nat) : Prop :=
  ∃ pid < s.nextPid, Holds (s.procs pid).fds (.write pipe)

instance [DecidableEq E] (s : State E) (pipe : Nat) : Decidable (s.HasWriter pipe) :=
  inferInstanceAs (Decidable (∃ pid < s.nextPid, Holds (s.procs pid).fds (.write pipe)))

def Flow.put (d : Flow E B P) (pid : Nat) (p : Option P) : Flow E B P :=
  { d with program := Function.update d.program pid p }

/-- A statement of `pipe_and_exec`. After a successful `execvp` the process runs the program for
the words that it finds in its memory. -/
def flowRun (mem : Nat → heap.Contents) (progs : Programs B P) (w : World E) (d : Flow E B P)
    (pid : Nat) : Option (Flow E B P) :=
  (statement w d.core pid).map fun core =>
    match (d.core.procs pid).pc.execArgv with
    | some argv => { d with core }.put pid (some (progs.load ((mem pid).words argv)))
    | none => { d with core }

section
variable [DecidableEq E]

/-- A program writes a byte to its stdout, unless SIGPIPE ends it. -/
def flowWrite (progs : Programs B P) (w : World E) (d : Flow E B P) (pid : Nat) :
    Option (Flow E B P) :=
  match (d.program pid).map progs.turn with
  | some (.write b p) =>
    (programWrite w d.core pid).map fun core =>
      match lookup (d.core.procs pid).fds 1 with
      | some (.write pipe) =>
        if d.core.HasReader pipe then
          { d with core, contents := Function.update d.contents pipe (d.contents pipe ++ [b]) }.put
            pid (some p)
        else { d with core }.put pid none
      | some (.entry _) => { d with core, stdout := d.stdout ++ [b] }.put pid (some p)
      | _ => { d with core }.put pid (some p)
  | _ => none

/-- A program reads a byte from its stdin. An empty pipe is at its end when nobody can write
to it any more. -/
def flowRead (progs : Programs B P) (d : Flow E B P) (pid : Nat) : Option (Flow E B P) :=
  match (d.program pid).map progs.turn with
  | some (.read got) =>
    match lookup (d.core.procs pid).fds 0 with
    | some (.read pipe) =>
      match d.contents pipe with
      | b :: rest =>
        (programRead d.core pid).map fun core =>
          { d with core, contents := Function.update d.contents pipe rest }.put pid
            (some (got (some b)))
      | [] => if d.core.HasWriter pipe then none else some (d.put pid (some (got none)))
    | some (.entry _) =>
      match d.stdin with
      | b :: rest => some ({ d with stdin := rest }.put pid (some (got (some b))))
      | [] => some (d.put pid (some (got none)))
    | _ => some (d.put pid (some (got none)))
  | _ => none

def flowExit (progs : Programs B P) (d : Flow E B P) (pid : Nat) : Option (Flow E B P) :=
  match (d.program pid).map progs.turn with
  | some .exit => (programExit d.core pid).map fun core => { d with core }.put pid none
  | _ => none

def flowNext (mem : Nat → heap.Contents) (progs : Programs B P) (w : World E) (act : Act)
    (d : Flow E B P) : Option (Flow E B P) :=
  match act with
  | .run pid => flowRun mem progs w d pid
  | .fails pid => (failure d.core pid).map fun core => { d with core }
  | .write pid => flowWrite progs w d pid
  | .read pid => flowRead progs d pid
  | .exit pid => flowExit progs d pid

def Flow.initial (w : World E) (argv : List Word) (input : List B) : Flow E B P :=
  ⟨State.initial w argv, fun _ => none, fun _ => [], input, []⟩

/-- `pipe_and_exec` with `input` to read from descriptor 0, when no call fails. -/
def pipelineFlow (mem : Nat → heap.Contents) (progs : Programs B P) (w : World E)
    (argv : List Word) (input : List B) : StepSystem (Flow E B P) Act :=
  (ofNext (· = Flow.initial w argv input) (flowNext mem progs w)).restrict
    fun act _ => ∀ pid, act ≠ .fails pid

/-! ## The processes below -/

variable {mem : Nat → heap.Contents} {progs : Programs B P} {w : World E}
  {stages : List (List Word)} {d e : Flow E B P}

/-- A step moves the processes as before, or only a program that reads. -/
theorem flowNext_core {act : Act} (step : flowNext mem progs w act d = some e) :
    next w act d.core = some e.core ∨ e.core = d.core := by
  cases act with
  | run pid =>
    obtain ⟨core, moved, rfl⟩ := Option.map_eq_some_iff.mp step
    left
    cases (d.core.procs pid).pc.execArgv with
    | none => exact moved
    | some argv => exact moved
  | fails pid =>
    obtain ⟨core, moved, rfl⟩ := Option.map_eq_some_iff.mp step
    exact Or.inl moved
  | write pid =>
    simp only [flowNext, flowWrite] at step
    split at step
    · obtain ⟨core, moved, rfl⟩ := Option.map_eq_some_iff.mp step
      left
      split
      · split
        · exact moved
        · exact moved
      · exact moved
      · exact moved
    · cases step
  | read pid =>
    simp only [flowNext, flowRead] at step
    split at step
    · split at step
      · split at step
        · obtain ⟨core, moved, rfl⟩ := Option.map_eq_some_iff.mp step
          exact Or.inl moved
        · split at step <;> cases step
          exact Or.inr rfl
      · split at step <;> cases step
        · exact Or.inr rfl
        · exact Or.inr rfl
      · cases step
        exact Or.inr rfl
    · cases step
  | exit pid =>
    simp only [flowNext, flowExit] at step
    split at step
    · obtain ⟨core, moved, rfl⟩ := Option.map_eq_some_iff.mp step
      exact Or.inl moved
    · cases step

omit [DecidableEq E] in
/-- A statement that is no `execvp` starts no program, and only `pipe` touches a pipe. -/
theorem statement_frame {s t : State E} {pid : Nat} (step : statement w s pid = some t)
    (plain : (s.procs pid).pc.execArgv = none) :
    t.execs = s.execs ∧
      (∀ i m, (t.procs i).pc = .running m → t.procs i = s.procs i) ∧
      (t.pipes = s.pipes ∨ (∃ argv, (s.procs pid).pc = .call argv) ∧
        t.pipes = Function.update s.pipes s.nextPipe 0) := by
  have quiet (u : State E) (p : Process E) (procs : u.procs = s.procs)
      (idle : ∀ m, p.pc ≠ .running m) (i m : Nat) (runs : ((u.set pid p).procs i).pc = .running m) :
      (u.set pid p).procs i = s.procs i := by
    by_cases self : i = pid
    · rw [self, set_self] at runs
      exact absurd runs (idle m)
    · rw [set_other u p self, procs]
  cases pc : (s.procs pid).pc with
  | call argv =>
    simp only [statement, pc, Option.some.injEq] at step
    subst step
    simp only [callStep]
    split
    · exact ⟨rfl, quiet _ _ rfl (by simp [Process.dead]), Or.inr ⟨⟨argv, rfl⟩, rfl⟩⟩
    · split
      · split
        · exact ⟨rfl, quiet _ _ rfl (by simp [Process.dead]), Or.inr ⟨⟨argv, rfl⟩, rfl⟩⟩
        · exact ⟨rfl, quiet _ _ rfl (by simp), Or.inr ⟨⟨argv, rfl⟩, rfl⟩⟩
      · exact ⟨rfl, quiet _ _ rfl (by simp), Or.inr ⟨⟨argv, rfl⟩, rfl⟩⟩
  | fork f =>
    simp only [statement, pc, Option.some.injEq] at step
    subst step
    refine ⟨rfl, ?_, Or.inl rfl⟩
    intro i m runs
    by_cases child : i = s.nextPid
    · rw [child, set_self] at runs
      cases runs
    · rw [set_other _ _ child] at runs ⊢
      exact quiet _ _ rfl (by simp) i m runs
  | closeWrite f child | dupRead f child | closeRead f | childCloseRead f | childDupWrite f
  | childCloseWrite f =>
    simp only [statement, pc, Option.some.injEq] at step
    subst step
    exact ⟨rfl, quiet _ _ rfl (by simp [Process.close, Process.dup2]), Or.inl rfl⟩
  | wait f child =>
    simp only [statement, pc] at step
    split at step <;> cases step
    exact ⟨rfl, quiet _ _ rfl (by simp), Or.inl rfl⟩
  | execRight f | execLeft f =>
    rw [pc] at plain
    cases plain
  | running | exited => simp [statement, pc] at step

omit [DecidableEq E] in
theorem Phase.call_pipe {s : State E} {pid : Nat} {argv : List Word}
    (phase : Phase w stages True s) (calls : (s.procs pid).pc = .call argv) :
    s.nextPipe = s.execs.length := by
  have main (alone : s.Alone) : pid = 0 := by
    by_contra other
    rw [alone pid other] at calls
    cases calls
  cases phase with
  | calling k fds stack level here table stackAt alone own pipe executed =>
    rw [pipe, (executed trivial).length]
  | waiting k f parent child frame others =>
    by_cases zero : pid = 0
    · rw [zero] at calls
      generalize s.procs 0 = p at parent calls
      cases parent <;> cases calls
    · by_cases self : pid = k + 1
      · rw [self] at calls
        generalize s.procs (k + 1) = c at child calls
        cases child <;> cases calls
      · rw [others pid zero self] at calls
        cases calls
  | fallen lax => exact absurd trivial lax
  | forking k f fds stack here table frame alone | waited k f fds stack here table frame alone
  | returned k f fds stack pfd last here table free frame alone
  | last k output fds stack pfd last here table free alone | finished here alone =>
    rw [main alone, here] at calls
    cases calls

/-- While stage `k` runs nobody else starts a program or makes a pipe or a process, somebody
can read what it writes, and nobody can write what it reads. -/
structure RunsAlone (stages : List (List Word)) (k : Nat) (s : State E) : Prop where
  plain : ∀ i, (s.procs i).pc.execArgv = none ∧ (∀ argv, (s.procs i).pc ≠ .call argv) ∧
    ∀ f, (s.procs i).pc ≠ .fork f
  reader : k + 1 < stages.length → s.HasReader k
  writer : ∀ j, k = j + 1 → ¬ s.HasWriter j

omit [DecidableEq E] in
theorem Phase.runs_alone {s : State E} {k pid m : Nat} (phase : Phase w stages True s)
    (length : s.execs.length = k + 1) (runs : (s.procs pid).pc = .running m) :
    RunsAlone stages k s := by
  have main (alone : s.Alone) : pid = 0 := by
    by_contra other
    rw [alone pid other] at runs
    cases runs
  cases phase with
  | waiting k' f parent child frame others pid' =>
    have self : pid = k' + 1 := by
      by_contra other
      by_cases zero : pid = 0
      · rw [zero] at runs
        generalize s.procs 0 = p at parent runs
        cases parent <;> cases runs
      · rw [others pid zero other] at runs
        cases runs
    rw [self] at runs
    have writers : ∀ j, j ≠ k' → ¬ Holds (s.procs (k' + 1)).fds (.write j) := by
      intro j ne
      generalize s.procs (k' + 1) = c at child runs
      cases child with
      | running table =>
        rw [Holds, table]
        exact not_holds_leftBase ne
      | _ => cases runs
    have same : k' = k := by
      generalize s.procs (k' + 1) = c at child runs
      cases child with
      | running table written room executed =>
        have := (executed trivial).length
        omega
      | _ => cases runs
    subst same
    refine ⟨?_, fun _ => ⟨0, by omega, parent.reader frame.free⟩, ?_⟩
    · intro i
      by_cases zero : i = 0
      · rw [zero]
        generalize s.procs 0 = p at parent
        cases parent <;> exact ⟨rfl, by simp, by simp⟩
      · by_cases child' : i = k' + 1
        · rw [child', runs]
          exact ⟨rfl, by simp, by simp⟩
        · rw [others i zero child']
          exact ⟨rfl, by simp [Process.dead], by simp [Process.dead]⟩
    · rintro j rfl ⟨i, -, held⟩
      by_cases zero : i = 0
      · rw [zero] at held
        exact parent.not_writer (by omega) held
      · by_cases child' : i = j + 1 + 1
        · rw [child'] at held
          exact writers j (by omega) held
        · rw [others i zero child'] at held
          exact not_holds_dead held
  | last k' output fds stack pfd last here table free alone pipe executed =>
    have all := (executed trivial).length
    refine ⟨?_, by omega, ?_⟩
    · intro i
      by_cases zero : i = 0
      · rw [zero, here]
        exact ⟨rfl, by simp, by simp⟩
      · rw [alone i zero]
        exact ⟨rfl, by simp [Process.dead], by simp [Process.dead]⟩
    · rintro j rfl ⟨i, -, held⟩
      by_cases zero : i = 0
      · rw [zero, here, Holds, table] at held
        exact not_holds_piped (by omega) held
      · rw [alone i zero] at held
        exact not_holds_dead held
  | fallen lax => exact absurd trivial lax
  | calling k' fds stack level here table stackAt alone
  | forking k' f fds stack here table frame alone | waited k' f fds stack here table frame alone
  | returned k' f fds stack pfd last here table free frame alone | finished here alone =>
    rw [main alone, here] at runs
    cases runs

omit [DecidableEq E] in
/-- A statement that starts no program and makes no pipe and no process. -/
theorem statement_own {s t : State E} {pid : Nat} (step : statement w s pid = some t)
    (plain : (s.procs pid).pc.execArgv = none) (noCall : ∀ argv, (s.procs pid).pc ≠ .call argv)
    (noFork : ∀ f, (s.procs pid).pc ≠ .fork f) :
    ∃ p, t = s.set pid p ∧ ∀ m, p.pc ≠ .running m := by
  cases pc : (s.procs pid).pc with
  | call argv => exact absurd pc (noCall argv)
  | fork f => exact absurd pc (noFork f)
  | closeWrite f child | dupRead f child | closeRead f | childCloseRead f | childDupWrite f
  | childCloseWrite f =>
    simp only [statement, pc, Option.some.injEq] at step
    exact ⟨_, step.symm, by simp [Process.close, Process.dup2]⟩
  | wait f child =>
    simp only [statement, pc] at step
    split at step <;> cases step
    exact ⟨_, rfl, by simp⟩
  | execRight f | execLeft f =>
    rw [pc] at plain
    cases plain
  | running | exited => simp [statement, pc] at step

omit [DecidableEq E] in
theorem statement_exec {s t : State E} {pid : Nat} {argv : List Cell}
    (step : statement w s pid = some t) (execs : (s.procs pid).pc.execArgv = some argv) :
    t = s.exec w pid argv := by
  cases pc : (s.procs pid).pc with
  | execRight f | execLeft f =>
    rw [pc] at execs
    cases execs
    simp only [statement, pc, Option.some.injEq] at step
    exact step.symm
  | _ =>
    rw [pc] at execs
    cases execs

/-! ## The bytes -/

/-- What the stdin of stage `k` still has to give. -/
def Flow.source (d : Flow E B P) : Nat → List B
  | 0 => d.stdin
  | k + 1 => d.contents k

/-- What stage `k` of `n` stages has written. -/
def Flow.sink (d : Flow E B P) (n k : Nat) : List B :=
  if k + 1 = n then d.stdout else d.contents k

/-- The words fit the memory that they are copied to, and where the entry behind the words of a
vector was not stored to, it is NULL. -/
structure Legible (mem : Nat → heap.Contents) (stages : List (List Word)) : Prop where
  clean : ∀ stage ∈ stages, ∀ s ∈ stage, 0 ∉ s
  fit : ∀ stage ∈ stages, ∀ s ∈ stage, heap.Fits s
  unset : ∀ pid, (mem pid).unset = none

/-- Stage `k` makes `texts (k + 1)` of `texts k`. -/
structure Computed (progs : Programs B P) (w : World E) (stages : List (List Word))
    (texts : Nat → List B) : Prop where
  stage : ∀ k words, stages[k]? = some words →
    ∃ n, Computes progs.turn n (progs.load words) (texts k) (texts (k + 1))
  size : ∀ pid, w.output pid = (texts (if pid = 0 then stages.length else pid)).length
  fits : ∀ k, k + 1 < stages.length → (texts (k + 1)).length ≤ w.capacity

/-- The first `k` stages have run, and no program runs. -/
structure Between (stages : List (List Word)) (texts : Nat → List B) (k : Nat)
    (d : Flow E B P) : Prop where
  execs : d.core.execs.length = k
  programs : ∀ i, d.program i = none
  idle : ∀ i m, (d.core.procs i).pc ≠ .running m
  source : k < stages.length → d.source k = texts k
  later : ∀ j, k ≤ j → d.contents j = []
  stdout : d.stdout = if k = stages.length then texts k else []

/-- Stage `k` runs as process `pid`. The program has `n` turns left, and `rest` to write. -/
structure Running (progs : Programs B P) (w : World E) (stages : List (List Word))
    (texts : Nat → List B) (k pid : Nat) (p : P) (rest : List B) (n : Nat) (d : Flow E B P) :
    Prop where
  execs : d.core.execs.length = k + 1
  program : d.program pid = some p
  others : ∀ i, i ≠ pid → d.program i = none
  runs : (d.core.procs pid).pc = .running rest.length
  idle : ∀ i m, i ≠ pid → (d.core.procs i).pc ≠ .running m
  stdin : lookup (d.core.procs pid).fds 0 = feed w k
  stdout : lookup (d.core.procs pid).fds 1 =
    if k + 1 = stages.length then (lookup w.entry 1).map .entry else some (.write k)
  computes : Computes progs.turn n p (d.source k) rest
  written : d.sink stages.length k ++ rest = texts (k + 1)
  later : ∀ j, k < j → d.contents j = []
  silent : k + 1 ≠ stages.length → d.stdout = []

inductive Carries (progs : Programs B P) (w : World E) (stages : List (List Word))
    (texts : Nat → List B) (d : Flow E B P) : Nat → Prop
  | between {k} (between : Between stages texts k d) : Carries progs w stages texts d 0
  | running {k pid p rest n} (running : Running progs w stages texts k pid p rest n d) :
      Carries progs w stages texts d n

structure FlowAt (progs : Programs B P) (w : World E) (stages : List (List Word))
    (texts : Nat → List B) (n : Nat) (d : Flow E B P) : Prop where
  phase : Phase w stages True d.core
  carries : Carries progs w stages texts d n
  sizes : ∀ j, d.core.pipes j = (d.contents j).length

/-- What a step leaves to do: fewer turns, where the processes have not moved. -/
structure Carried (progs : Programs B P) (w : World E) (stages : List (List Word))
    (texts : Nat → List B) (n : Nat) (act : Act) (d e : Flow E B P) : Prop where
  carries : ∃ m, Carries progs w stages texts e m ∧
    (next w act d.core = some e.core ∨ e.core = d.core ∧ m < n)
  sizes : ∀ j, e.core.pipes j = (e.contents j).length

variable {texts : Nat → List B} {n : Nat}

omit [DecidableEq E] in
theorem update_length (pipes : Nat → Nat) (contents : Nat → List B)
    (sizes : ∀ j, pipes j = (contents j).length) (k : Nat) (text : List B) (j : Nat) :
    Function.update pipes k text.length j = (Function.update contents k text j).length := by
  by_cases self : j = k
  · rw [self, Function.update_self, Function.update_self]
  · rw [Function.update_of_ne self, Function.update_of_ne self, sizes]

/-- Between two stages: the next one is started, or something that leaves the bytes alone
happens. -/
theorem Between.step (legible : Legible mem stages) (computed : Computed progs w stages texts)
    (phase : Phase w stages True d.core)
    {k : Nat} (between : Between stages texts k d)
    (sizes : ∀ j, d.core.pipes j = (d.contents j).length) {act : Act}
    (succeeds : ∀ pid, act ≠ .fails pid) (phase' : Phase w stages True e.core)
    (step : flowNext mem progs w act d = some e) : Carried progs w stages texts n act d e := by
  obtain ⟨execs, programs, idle, source, later, stdout⟩ := between
  cases act with
  | fails pid => exact absurd rfl (succeeds pid)
  | write pid => simp [flowNext, flowWrite, programs] at step
  | read pid => simp [flowNext, flowRead, programs] at step
  | exit pid => simp [flowNext, flowExit, programs] at step
  | run pid =>
    obtain ⟨core, moved, rfl⟩ := Option.map_eq_some_iff.mp step
    cases plain : (d.core.procs pid).pc.execArgv with
    | none =>
      obtain ⟨same, started, pipes⟩ := statement_frame moved plain
      refine ⟨⟨0, .between ⟨same ▸ execs, programs, ?_, source, later, stdout⟩, Or.inl moved⟩, ?_⟩
      · intro i m runs
        rw [started i m runs] at runs
        exact idle i m runs
      · intro j
        change core.pipes j = (d.contents j).length
        rcases pipes with kept | ⟨⟨argv, calls⟩, made⟩
        · rw [kept, sizes]
        · have fresh : d.contents d.core.nextPipe = [] :=
            later _ (by rw [phase.call_pipe calls, execs])
          rw [made]
          by_cases self : j = d.core.nextPipe
          · rw [self, Function.update_self, fresh]
            rfl
          · rw [Function.update_of_ne self, sizes]
    | some argv =>
      obtain rfl := statement_exec moved plain
      simp only [plain] at phase' ⊢
      let done : Exec E :=
        ⟨pid, argv, (d.core.procs pid).fds, fun i => (d.core.procs i).fds⟩
      obtain ⟨count, bound, executed⟩ := phase'.executed
      have all : d.core.execs ++ [done] = (d.core.exec w pid argv).execs := rfl
      have length : count = k + 1 := by
        rw [← executed.length, ← execs]
        exact List.length_append
      have newest : (d.core.execs ++ [done])[k]? = some done := by
        rw [← execs, List.getElem?_concat_length]
      have stage : StageAt w stages k done := executed.stage k done newest
      obtain ⟨turns, computes⟩ := computed.stage k _ stage.words
      have own : (if pid = 0 then stages.length else pid) = k + 1 := by
        have same : pid = if k + 1 = stages.length then 0 else k + 1 := stage.pid
        rw [same]
        split
        · rename_i last
          rw [if_pos rfl, last]
        · exact if_neg (Nat.succ_ne_zero k)
      have silent : d.stdout = [] := by
        rw [stdout, if_neg (by omega)]
      have written : Flow.sink d stages.length k = [] := by
        rw [Flow.sink]
        split
        · exact silent
        · exact later k (Nat.le_refl k)
      have member := List.mem_of_getElem? stage.words
      have found : (mem pid).words argv = leadingWords argv :=
        (mem pid).words_eq (legible.unset pid) (legible.clean _ member) (legible.fit _ member)
      rw [found]
      let loaded := progs.load (leadingWords argv)
      let started : Flow E B P := { d with core := d.core.exec w pid argv }.put pid (some loaded)
      suffices running : Running progs w stages texts k pid loaded (texts (k + 1)) turns started from
        ⟨⟨turns, .running running, Or.inl moved⟩, sizes⟩
      refine ⟨?_, ?_, ?_, ?_, ?_, ?_, ?_, ?_, ?_, ?_, ?_⟩
      · exact length ▸ executed.length
      · exact Function.update_self ..
      · intro i other
        exact (Function.update_of_ne other _ _).trans (programs i)
      · change ((d.core.exec w pid argv).procs pid).pc = _
        rw [State.exec, set_self, computed.size pid, own]
      · intro i m other
        change ((d.core.exec w pid argv).procs i).pc ≠ _
        rw [State.exec, set_other _ _ other]
        exact idle i m
      · change lookup ((d.core.exec w pid argv).procs pid).fds 0 = _
        rw [State.exec, set_self]
        exact stage.stdin
      · change lookup ((d.core.exec w pid argv).procs pid).fds 1 = _
        rw [State.exec, set_self]
        exact stage.stdout
      · rw [← source (by omega)] at computes
        exact computes
      · change Flow.sink d stages.length k ++ _ = _
        rw [written, List.nil_append]
      · exact fun j less => later j (Nat.le_of_lt less)
      · exact fun _ => silent

section
variable {k pid : Nat} {p : P} {rest : List B}
  (running : Running progs w stages texts k pid p rest n d)

include running

omit [DecidableEq E] in
theorem Running.turn {i : Nat} {turn : Operation B P}
    (next : (d.program i).map progs.turn = some turn) : i = pid ∧ progs.turn p = turn := by
  have own : i = pid := by
    by_contra other
    rw [running.others i other] at next
    cases next
  rw [own, running.program] at next
  exact ⟨own, Option.some.inj next⟩

/-- The other processes go on. -/
theorem Running.step_run (phase : Phase w stages True d.core)
    (sizes : ∀ j, d.core.pipes j = (d.contents j).length) {i : Nat}
    (step : flowNext mem progs w (.run i) d = some e) :
    Carried progs w stages texts n (.run i) d e := by
  have alone := phase.runs_alone running.execs running.runs
  obtain ⟨plain, noCall, noFork⟩ := alone.plain i
  obtain ⟨core, moved, rfl⟩ := Option.map_eq_some_iff.mp step
  obtain ⟨q, rfl, quiet⟩ := statement_own moved plain noCall noFork
  simp only [plain]
  have other : pid ≠ i := by
    rintro rfl
    simp [statement, running.runs] at moved
  have same : (d.core.set i q).procs pid = d.core.procs pid := set_other _ q other
  suffices goes_on :
      Running progs w stages texts k pid p rest n { d with core := d.core.set i q } from
    ⟨⟨n, .running goes_on, Or.inl moved⟩, sizes⟩
  refine { running with runs := ?_, idle := ?_, stdin := ?_, stdout := ?_ }
  · rw [same]
    exact running.runs
  · intro j m notOwn
    by_cases self : j = i
    · rw [self, set_self]
      exact quiet m
    · rw [set_other _ q self]
      exact running.idle j m notOwn
  · rw [same]
    exact running.stdin
  · rw [same]
    exact running.stdout

/-- The program exits, and its stage is complete. -/
theorem Running.step_exit (sizes : ∀ j, d.core.pipes j = (d.contents j).length) {i : Nat}
    (step : flowNext mem progs w (.exit i) d = some e) :
    Carried progs w stages texts n (.exit i) d e := by
  simp only [flowNext, flowExit] at step
  split at step
  · rename_i next
    obtain ⟨rfl, turn⟩ := running.turn next
    obtain ⟨core, moved, rfl⟩ := Option.map_eq_some_iff.mp step
    obtain rfl := running.computes.at_exit turn
    have exited : core = d.core.exit i := by
      simp only [programExit, running.runs, List.length_nil, Option.some.injEq] at moved
      exact moved.symm
    subst exited
    suffices between :
        Between stages texts (k + 1) ({ d with core := d.core.exit i }.put i none) from
      ⟨⟨0, .between between, Or.inl moved⟩, sizes⟩
    have written := running.written
    rw [List.append_nil, Flow.sink] at written
    refine ⟨running.execs, ?_, ?_, ?_, ?_, ?_⟩
    · intro j
      by_cases self : j = i
      · exact (congrArg _ self).trans (Function.update_self ..)
      · exact (Function.update_of_ne self _ _).trans (running.others j self)
    · intro j m
      change ((d.core.exit i).procs j).pc ≠ _
      by_cases self : j = i
      · rw [self, State.exit, set_self]
        simp [Process.dead]
      · rw [State.exit, set_other _ _ self]
        exact running.idle j m self
    · intro more
      rw [if_neg (by omega)] at written
      exact written
    · exact fun j less => running.later j less
    · change d.stdout = _
      split
      · rename_i last
        rw [if_pos last] at written
        exact written
      · rename_i more
        exact running.silent more
  · cases step

/-- The program reads what the stage before has written, or comes to its end. -/
theorem Running.step_read (std : StandardOpen w) (phase : Phase w stages True d.core)
    (sizes : ∀ j, d.core.pipes j = (d.contents j).length) {i : Nat}
    (step : flowNext mem progs w (.read i) d = some e) :
    Carried progs w stages texts n (.read i) d e := by
  have alone := phase.runs_alone running.execs running.runs
  simp only [flowNext, flowRead] at step
  split at step
  · rename_i got next
    obtain ⟨rfl, turn⟩ := running.turn next
    -- what does not depend on what was read
    have goes_on : ∀ (u : Flow E B P) (q : P) (m : Nat), u.core.execs = d.core.execs →
        u.core.procs = d.core.procs → u.program = d.program → u.stdout = d.stdout →
        (∀ j, k ≤ j → u.contents j = d.contents j) → Computes progs.turn m q (u.source k) rest →
        Running progs w stages texts k i q rest m (u.put i (some q)) := by
      intro u q m execs procs program stdout contents computes
      refine ⟨?_, Function.update_self .., ?_, ?_, ?_, ?_, ?_, computes, ?_, ?_, ?_⟩
      · exact (congrArg List.length execs).trans running.execs
      · intro j other
        refine (Function.update_of_ne other _ _).trans ?_
        rw [program]
        exact running.others j other
      · change (u.core.procs i).pc = _
        rw [procs]
        exact running.runs
      · intro j m other
        change (u.core.procs j).pc ≠ _
        rw [procs]
        exact running.idle j m other
      · change lookup (u.core.procs i).fds 0 = _
        rw [procs]
        exact running.stdin
      · change lookup (u.core.procs i).fds 1 = _
        rw [procs]
        exact running.stdout
      · have written := running.written
        rw [Flow.sink] at written ⊢
        change (if _ then u.stdout else u.contents k) ++ _ = _
        rw [stdout, contents k (Nat.le_refl k)]
        exact written
      · intro j less
        exact (contents j (Nat.le_of_lt less)).trans (running.later j less)
      · exact fun more => stdout.trans (running.silent more)
    have computes := running.computes
    cases k with
    | zero =>
      obtain ⟨entry, opened⟩ := Option.ne_none_iff_exists'.mp (std 0 (by omega))
      have stdin := running.stdin
      rw [feed, opened, Option.map_some] at stdin
      simp only [stdin] at step
      split at step
      · rename_i b more content
        cases step
        rw [Flow.source, content] at computes
        obtain ⟨m, fewer, computes⟩ := computes.at_read turn
        refine ⟨⟨m, .running (goes_on { d with stdin := more } _ m rfl rfl rfl rfl (fun _ _ => rfl)
          computes), Or.inr ⟨rfl, by omega⟩⟩, sizes⟩
      · rename_i content
        cases step
        rw [Flow.source, content] at computes
        obtain ⟨m, fewer, computes⟩ := computes.at_end turn
        rw [← content] at computes
        exact ⟨⟨m, .running (goes_on d _ m rfl rfl rfl rfl (fun _ _ => rfl) computes),
          Or.inr ⟨rfl, by omega⟩⟩, sizes⟩
    | succ j =>
      have stdin := running.stdin
      rw [feed] at stdin
      simp only [stdin] at step
      split at step
      · rename_i b more content
        obtain ⟨core, moved, rfl⟩ := Option.map_eq_some_iff.mp step
        rw [Flow.source, content] at computes
        obtain ⟨m, fewer, computes⟩ := computes.at_read turn
        have filled : 0 < d.core.pipes j := by
          rw [sizes, content]
          exact Nat.succ_pos _
        have drained : core =
            { d.core with pipes := Function.update d.core.pipes j (d.core.pipes j - 1) } := by
          simp only [programRead, running.runs, stdin, if_pos filled, Option.some.injEq] at moved
          exact moved.symm
        subst drained
        refine ⟨⟨m, .running (goes_on { d with
            core := { d.core with pipes := Function.update d.core.pipes j (d.core.pipes j - 1) }
            contents := Function.update d.contents j more } _ m rfl rfl rfl rfl ?_ ?_),
          Or.inl moved⟩, ?_⟩
        · intro l less
          exact Function.update_of_ne (by omega) _ _
        · change Computes progs.turn m _ (Function.update d.contents j more j) rest
          rw [Function.update_self]
          exact computes
        · intro l
          have size : d.core.pipes j - 1 = more.length := by
            rw [sizes, content, List.length_cons, Nat.add_sub_cancel]
          change Function.update d.core.pipes j (d.core.pipes j - 1) l = _
          rw [size]
          exact update_length _ _ sizes j more l
      · rename_i content
        rw [if_neg (alone.writer j rfl)] at step
        cases step
        rw [Flow.source, content] at computes
        obtain ⟨m, fewer, computes⟩ := computes.at_end turn
        rw [← content] at computes
        exact ⟨⟨m, .running (goes_on d _ m rfl rfl rfl rfl (fun _ _ => rfl) computes),
          Or.inr ⟨rfl, by omega⟩⟩, sizes⟩
  · cases step

/-- The program writes to the next stage, or to the stdout of the shell. -/
theorem Running.step_write (std : StandardOpen w) (phase : Phase w stages True d.core)
    (sizes : ∀ j, d.core.pipes j = (d.contents j).length) {i : Nat}
    (step : flowNext mem progs w (.write i) d = some e) :
    Carried progs w stages texts n (.write i) d e := by
  have alone := phase.runs_alone running.execs running.runs
  simp only [flowNext, flowWrite] at step
  split at step
  · rename_i b q next
    obtain ⟨rfl, turn⟩ := running.turn next
    obtain ⟨core, moved, rfl⟩ := Option.map_eq_some_iff.mp step
    obtain ⟨m, later, fewer, rfl, computes⟩ := running.computes.at_write turn
    let runner : Process E := { d.core.procs i with pc := .running later.length }
    -- what does not depend on where the byte goes
    have goes_on : ∀ (u : Flow E B P), u.core.execs = d.core.execs →
        u.core.procs = Function.update d.core.procs i runner → u.program = d.program →
        u.source k = d.source k → u.sink stages.length k = d.sink stages.length k ++ [b] →
        (∀ j, k < j → u.contents j = d.contents j) →
        (k + 1 ≠ stages.length → u.stdout = d.stdout) →
        Running progs w stages texts k i q later m (u.put i (some q)) := by
      intro u execs procs program source sink contents stdout
      have own : u.core.procs i = runner := by rw [procs, Function.update_self]
      refine ⟨?_, Function.update_self .., ?_, ?_, ?_, ?_, ?_, ?_, ?_, ?_, ?_⟩
      · exact (congrArg List.length execs).trans running.execs
      · intro j other
        refine (Function.update_of_ne other _ _).trans ?_
        rw [program]
        exact running.others j other
      · exact congrArg Process.pc own
      · intro j m other
        change (u.core.procs j).pc ≠ _
        rw [procs, Function.update_of_ne other]
        exact running.idle j m other
      · change lookup (u.core.procs i).fds 0 = _
        rw [own]
        exact running.stdin
      · change lookup (u.core.procs i).fds 1 = _
        rw [own]
        exact running.stdout
      · change Computes progs.turn m q (u.source k) later
        rw [source]
        exact computes
      · change u.sink stages.length k ++ later = _
        rw [sink, List.append_assoc, List.singleton_append]
        exact running.written
      · exact fun j less => (contents j less).trans (running.later j less)
      · exact fun more => (stdout more).trans (running.silent more)
    by_cases last : k + 1 = stages.length
    · obtain ⟨entry, opened⟩ := Option.ne_none_iff_exists'.mp (std 1 (by omega))
      have stdout := running.stdout
      rw [if_pos last, opened, Option.map_some] at stdout
      have written : core = d.core.set i runner := by
        simp only [programWrite, running.runs, List.length_cons, stdout, Option.some.injEq] at moved
        exact moved.symm
      subst written
      simp only [stdout]
      refine ⟨⟨m, .running (goes_on { d with
        core := d.core.set i runner, stdout := d.stdout ++ [b] } rfl rfl rfl ?_ ?_ ?_ ?_),
        Or.inl moved⟩, sizes⟩
      · cases k with
        | zero => rfl
        | succ j => rfl
      · rw [Flow.sink, Flow.sink, if_pos last, if_pos last]
      · exact fun _ _ => rfl
      · exact fun more => absurd last more
    · have inner : k + 1 < stages.length := by
        obtain ⟨count, bound, executed⟩ := phase.executed
        have := executed.length
        have := running.execs
        omega
      have reader := alone.reader inner
      have stdout := running.stdout
      rw [if_neg last] at stdout
      have written : core = { d.core with
          pipes := Function.update d.core.pipes k (d.core.pipes k + 1) }.set i runner := by
        simp only [programWrite, running.runs, List.length_cons, stdout, if_pos reader] at moved
        split at moved
        · exact (Option.some.inj moved).symm
        · cases moved
      subst written
      simp only [stdout, if_pos reader]
      refine ⟨⟨m, .running (goes_on { d with
        core := { d.core with
          pipes := Function.update d.core.pipes k (d.core.pipes k + 1) }.set i runner
        contents := Function.update d.contents k (d.contents k ++ [b]) } rfl rfl rfl ?_ ?_ ?_ ?_),
        Or.inl moved⟩, ?_⟩
      · cases k with
        | zero => rfl
        | succ j => exact Function.update_of_ne (by omega) _ _
      · rw [Flow.sink, Flow.sink, if_neg last, if_neg last]
        exact Function.update_self ..
      · exact fun j less => Function.update_of_ne (by omega) _ _
      · exact fun _ => rfl
      · intro j
        have size : d.core.pipes k + 1 = (d.contents k ++ [b]).length := by
          rw [sizes, List.length_append, List.length_singleton]
        change Function.update d.core.pipes k (d.core.pipes k + 1) j = _
        rw [size]
        exact update_length _ _ sizes k _ j
  · cases step

end

theorem FlowAt.step (ok : Pipelined w stages) (legible : Legible mem stages)
    (computed : Computed progs w stages texts)
    (flow : FlowAt progs w stages texts n d) {act : Act} (succeeds : ∀ pid, act ≠ .fails pid)
    (step : flowNext mem progs w act d = some e) :
    ∃ m, FlowAt progs w stages texts m e ∧
      (Onward w stages True d.core e.core ∨ e.core = d.core ∧ m < n) := by
  obtain ⟨phase, carries, sizes⟩ := flow
  have phase' : Phase w stages True e.core := by
    rcases flowNext_core step with moved | same
    · exact (phase.step ok (fun _ => succeeds) moved).phase
    · exact same ▸ phase
  have carried : Carried progs w stages texts n act d e := by
    cases carries with
    | between between => exact between.step legible computed phase sizes succeeds phase' step
    | running running =>
      cases act with
      | fails pid => exact absurd rfl (succeeds pid)
      | run i => exact running.step_run phase sizes step
      | write i => exact running.step_write ok.std phase sizes step
      | read i => exact running.step_read ok.std phase sizes step
      | exit i => exact running.step_exit sizes step
  obtain ⟨⟨m, carries', moved⟩, sizes'⟩ := carried
  refine ⟨m, ⟨phase', carries', sizes'⟩, ?_⟩
  rcases moved with moved | fewer
  · exact Or.inl (phase.step ok (fun _ => succeeds) moved)
  · exact Or.inr fewer

omit [DecidableEq E] in
theorem FlowAt.initial (ok : Pipelined w stages) :
    FlowAt progs w stages texts 0 (Flow.initial w (pipeline stages) (texts 0)) := by
  have several := ok.several
  refine ⟨.start ok, .between (k := 0) ⟨rfl, fun _ => rfl, ?_, fun _ => rfl, fun _ _ => rfl, ?_⟩,
    fun _ => rfl⟩
  · intro i m
    change ((State.initial w (pipeline stages)).procs i).pc ≠ _
    simp only [State.initial]
    split
    · simp
    · simp [Process.dead]
  · exact (if_neg (by omega)).symm

theorem flowAt_of_reachable (ok : Pipelined w stages) (legible : Legible mem stages)
    (computed : Computed progs w stages texts)
    (reach : (pipelineFlow mem progs w (pipeline stages) (texts 0)).Reachable d) :
    ∃ n, FlowAt progs w stages texts n d := by
  refine reach.invariant (I := fun d => ∃ n, FlowAt progs w stages texts n d) ?_ ?_
  · rintro r rfl
    exact ⟨0, .initial ok⟩
  · rintro act r t ⟨n, flow⟩ ⟨succeeds, step⟩
    obtain ⟨m, flow', -⟩ := flow.step ok legible computed succeeds step
    exact ⟨m, flow'⟩

/-! ## The end -/

/-- A program that runs can go on. -/
theorem Running.moves (ok : Pipelined w stages) (computed : Computed progs w stages texts)
    (phase : Phase w stages True d.core) (sizes : ∀ j, d.core.pipes j = (d.contents j).length)
    {k pid : Nat} {p : P} {rest : List B}
    (running : Running progs w stages texts k pid p rest n d) :
    ∃ act e, (∀ i, act ≠ .fails i) ∧ flowNext mem progs w act d = some e := by
  have alone := phase.runs_alone running.execs running.runs
  have next : (d.program pid).map progs.turn = some (progs.turn p) := by
    rw [running.program, Option.map_some]
  cases turn : progs.turn p with
  | exit =>
    obtain rfl := running.computes.at_exit turn
    refine ⟨.exit pid, ?_⟩
    exact ⟨_, by simp, by
      simp only [flowNext, flowExit, next, turn, programExit, running.runs, List.length_nil,
        Option.map_some]
      exact rfl⟩
  | read got =>
    refine ⟨.read pid, ?_⟩
    cases k with
    | zero =>
      obtain ⟨entry, opened⟩ := Option.ne_none_iff_exists'.mp (ok.std 0 (by omega))
      have stdin := running.stdin
      rw [feed, opened, Option.map_some] at stdin
      cases content : d.stdin with
      | nil =>
        exact ⟨_, by simp, by
          simp only [flowNext, flowRead, next, turn, stdin, content]
          exact rfl⟩
      | cons b rest =>
        exact ⟨_, by simp, by
          simp only [flowNext, flowRead, next, turn, stdin, content]
          exact rfl⟩
    | succ j =>
      have stdin := running.stdin
      rw [feed] at stdin
      cases content : d.contents j with
      | nil =>
        exact ⟨_, by simp, by
          simp only [flowNext, flowRead, next, turn, stdin, content, if_neg (alone.writer j rfl)]
          exact rfl⟩
      | cons b rest =>
        have filled : 0 < d.core.pipes j := by
          rw [sizes, content]
          exact Nat.succ_pos _
        exact ⟨_, by simp, by
          simp only [flowNext, flowRead, next, turn, stdin, content, programRead, running.runs,
            if_pos filled, Option.map_some]
          exact rfl⟩
  | write b q =>
    obtain ⟨m, later, -, rfl, -⟩ := running.computes.at_write turn
    refine ⟨.write pid, ?_⟩
    by_cases last : k + 1 = stages.length
    · obtain ⟨entry, opened⟩ := Option.ne_none_iff_exists'.mp (ok.std 1 (by omega))
      have stdout := running.stdout
      rw [if_pos last, opened, Option.map_some] at stdout
      exact ⟨_, by simp, by
        simp only [flowNext, flowWrite, next, turn, programWrite, running.runs, List.length_cons,
          stdout, Option.map_some]
        exact rfl⟩
    · have inner : k + 1 < stages.length := by
        obtain ⟨count, bound, executed⟩ := phase.executed
        have := executed.length
        have := running.execs
        omega
      have stdout := running.stdout
      rw [if_neg last] at stdout
      have space : d.core.pipes k < w.capacity := by
        have fits := computed.fits k inner
        have written := running.written
        rw [Flow.sink, if_neg last] at written
        rw [← written, List.length_append, List.length_cons] at fits
        rw [sizes]
        omega
      exact ⟨_, by simp, by
        simp only [flowNext, flowWrite, next, turn, programWrite, running.runs, List.length_cons,
          stdout, if_pos (alone.reader inner), if_pos space, Option.map_some]
        exact rfl⟩

/-- Everything has been exec'd, and the stdout has the last text. -/
def Finished (stages : List (List Word)) (texts : Nat → List B) (d : Flow E B P) : Prop :=
  d.core.procs 0 = .dead ∧ d.stdout = texts stages.length

theorem FlowAt.moves (ok : Pipelined w stages) (computed : Computed progs w stages texts)
    (flow : FlowAt progs w stages texts n d) (unfinished : ¬ Finished stages texts d) :
    ∃ act e, (pipelineFlow mem progs w (pipeline stages) (texts 0)).step act d e := by
  obtain ⟨phase, carries, sizes⟩ := flow
  cases carries with
  | running running => exact running.moves ok computed phase sizes
  | @between k between =>
    have fits : ∀ k, k + 1 < stages.length → w.output (k + 1) ≤ w.capacity := by
      intro k inner
      rw [computed.size, if_neg (Nat.succ_ne_zero k)]
      exact computed.fits k inner
    by_cases dead : d.core.procs 0 = .dead
    · have all := (phase.of_dead dead).1.length
      rw [between.execs] at all
      refine absurd ⟨dead, ?_⟩ unfinished
      rw [between.stdout, if_pos all, all]
    · obtain ⟨act, t, succeeds, moved⟩ := phase.progress dead (phase.not_waits fits)
      generalize own : act.pid = pid
      rcases run_or_fails own (between.idle pid) moved with rfl | rfl
      · have moved : statement w d.core pid = some t := moved
        exact ⟨.run pid, _, by simp, by
          change flowRun mem progs w d pid = some _
          rw [flowRun, moved, Option.map_some]⟩
      · exact absurd rfl (succeeds pid)

/-- The stages that are left to call, what is left at this level, and the turns of the program
that runs. -/
def Flow.left (stages : List (List Word)) (w : World E) (d : Flow E B P) : Nat × Nat :=
  (stages.length - d.core.nextPipe, d.core.rank w)

omit [DecidableEq E] in
theorem Onward.left (onward : Onward w stages True d.core e.core) :
    Prod.Lex (· < ·) (· < ·) (e.left stages w) (d.left stages w) := by
  have bound := onward.phase.pipes_le
  rcases onward.closer trivial with more | ⟨same, less⟩
  · exact Prod.Lex.left _ _ (by omega)
  · rw [Flow.left, Flow.left, same]
    exact Prod.Lex.right _ less

end

private def catTac : List (List Word) := [["cat"], ["tac"]]

/-- "tac" turns its input round, every other command copies it. -/
private def copyOrReverse : Programs Nat (Batch Nat) where
  load words := .reading (if words = ["tac"] then List.reverse else id) []
  turn := Batch.turn

private def catTacTexts : Nat → List Nat
  | 0 | 1 => [3, 1, 2]
  | _ => [2, 1, 3]

/-- The next chunk is one of 32 bytes. -/
private def glibcMemory : glibc.Contents where
  word s := ByteBuffers.cstr ((s ++ [0]).take (glibc.usable s.length) ++ [33, 0])
  reads _ := ⟨[33, 0], rfl⟩
  unset := none

private def pipesOfThree : World Nat where
  entry := standardStreams
  capacity := 3
  output _ := 3

end Shell
