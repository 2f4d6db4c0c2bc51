import Mathlib.Data.List.Count
import Mathlib.Data.List.Nodup
import Mathlib.Data.List.Perm.Subperm
import NetworkSystemProgramming.Shell.Levels

/-!
# Commands that cannot be executed

Behind the `execvp` of the right side of `pipe_and_exec` comes the branch of the child,
which execs the left side. Only the last stage gets there, so that its predecessor is
the one stage that can run twice.
-/

namespace Shell

open DescriptorTables StepSystems StepSystem

variable {E : Type}

/-- The vector of the `execvp` that comes next. -/
def Pc.execArgv : Pc → Option (List Cell)
  | .execRight f => some f.split.right.cells
  | .execLeft f => some f.split.left.cells
  | _ => none

/-- `execvp` fails for the commands that cannot be executed, and nothing else fails. -/
def ExecPattern (can : List Word → Bool) (act : Act) (s : State E) : Prop :=
  match act with
  | .run pid => ∀ argv ∈ (s.procs pid).pc.execArgv, can (leadingWords argv) = true
  | .fails pid => ∃ argv ∈ (s.procs pid).pc.execArgv, can (leadingWords argv) = false
  | _ => True

instance (can : List Word → Bool) (act : Act) (s : State E) :
    Decidable (ExecPattern can act s) := by
  unfold ExecPattern
  split <;> infer_instance

/-- The stage that a process is there for. -/
def ownStage (stages : List (List Word)) (pid : Nat) : Option (List Word) :=
  if pid = 0 then stages.getLast? else stages[pid - 1]?

/-- No stage has run more often than it stands in the pipeline, and no process has run
another stage than its own. -/
structure RunsOnce (stages : List (List Word)) (execs : List (Exec E)) : Prop where
  once : ∀ words, (execs.map fun e => leadingWords e.argv).count words ≤ stages.count words
  own : ∀ e ∈ execs, ownStage stages e.pid = some (leadingWords e.argv)

/-- The process runs a program or has ended. -/
def Done (pc : Pc) : Prop := pc = .exited ∨ ∃ output, pc = .running output

/-- The branch of the child. -/
inductive LeftSide (f : Frame) : Pc → Prop
  | closeRead : LeftSide f (.childCloseRead f)
  | dupWrite : LeftSide f (.childDupWrite f)
  | closeWrite : LeftSide f (.childCloseWrite f)
  | exec : LeftSide f (.execLeft f)

/-- The branch of the parent up to its recursive call. -/
inductive RightSide (f : Frame) : Pc → Prop
  | closeWrite (child) : RightSide f (.closeWrite f child)
  | dupRead (child) : RightSide f (.dupRead f child)
  | wait (child) : RightSide f (.wait f child)
  | closeRead : RightSide f (.closeRead f)

/-- Where process 0 is, with its callers and the next pid. -/
inductive MainAt (can : List Word → Bool) (stages : List (List Word)) (nextPid : Nat) :
    Pc → List Frame → Prop
  | call {k stack} (level : k < stages.length)
      (caller : ∀ f ∈ stack.head?, ∃ j, k = j + 1 ∧ SplitAt stages j f) (pid : nextPid = k + 1) :
      MainAt can stages nextPid (.call (pipeline (stages.drop k))) stack
  | fork {k f stack} (splitAt : SplitAt stages k f) (pid : nextPid = k + 1) :
      MainAt can stages nextPid (.fork f) stack
  | right {k f pc stack} (splitAt : SplitAt stages k f) (pid : nextPid = k + 2)
      (side : RightSide f pc) : MainAt can stages nextPid pc stack
  | execRight {k f stack} (splitAt : SplitAt stages k f) (last : k + 2 = stages.length) :
      MainAt can stages nextPid (.execRight f) stack
  | fallen {k f pc stack} (splitAt : SplitAt stages k f) (last : k + 2 = stages.length)
      (failed : can (leadingWords f.split.right.cells) = false) (side : LeftSide f pc) :
      MainAt can stages nextPid pc stack
  | done {pc stack} (done : Done pc) : MainAt can stages nextPid pc stack

/-- The process of the left side of level `k`. -/
inductive LeftAt (stages : List (List Word)) (nextPid k : Nat) : Pc → Prop
  | side {f pc} (born : k + 1 < nextPid) (splitAt : SplitAt stages k f) (side : LeftSide f pc) :
      LeftAt stages nextPid k pc
  | done {pc} (done : Done pc) : LeftAt stages nextPid k pc

/-- Process `k + 1` is the left side of level `k`. -/
def InPlace (can : List Word → Bool) (stages : List (List Word)) (nextPid pid : Nat)
    (p : Process E) : Prop :=
  match pid with
  | 0 => MainAt can stages nextPid p.pc p.stack
  | k + 1 => LeftAt stages nextPid k p.pc

/-- A process that has exec'd its stage runs it or has ended. -/
structure Tidy (can : List Word → Bool) (stages : List (List Word)) (s : State E) : Prop where
  started : 0 < s.nextPid
  inPlace : ∀ pid, InPlace can stages s.nextPid pid (s.procs pid)
  execs : ∀ e ∈ s.execs, e.pid < s.nextPid ∧ Done (s.procs e.pid).pc ∧
    e.pid < stages.length ∧ ownStage stages e.pid = some (leadingWords e.argv)
  once : (s.execs.map Exec.pid).Nodup

section
variable {w : World E} {can : List Word → Bool} {stages : List (List Word)} {s t : State E}
  {nextPid pid : Nat}

theorem Done.inPlace {p : Process E} (done : Done p.pc) : InPlace can stages nextPid pid p := by
  cases pid with
  | zero => exact MainAt.done done
  | succ k => exact LeftAt.done done

theorem RightSide.not_done {f : Frame} {pc : Pc} (side : RightSide f pc) : ¬ Done pc := by
  rintro (rfl | ⟨output, rfl⟩) <;> cases side

theorem LeftSide.not_done {f : Frame} {pc : Pc} (side : LeftSide f pc) : ¬ Done pc := by
  rintro (rfl | ⟨output, rfl⟩) <;> cases side

theorem LeftAt.grow {k later : Nat} {pc : Pc} (leftAt : LeftAt stages nextPid k pc)
    (le : nextPid ≤ later) : LeftAt stages later k pc := by
  cases leftAt with
  | side born splitAt side => exact .side (Nat.lt_of_lt_of_le born le) splitAt side
  | done done => exact .done done

/-- One process goes on to another place. -/
theorem Tidy.set (tidy : Tidy can stages s) {u : State E} (nextPid : u.nextPid = s.nextPid)
    (execs : u.execs = s.execs) (procs : u.procs = s.procs) {p : Process E}
    (busy : ¬ Done (s.procs pid).pc) (inPlace : InPlace can stages s.nextPid pid p) :
    Tidy can stages (u.set pid p) := by
  constructor
  · exact nextPid ▸ tidy.started
  · intro other
    rw [set_nextPid, nextPid]
    by_cases same : other = pid
    · subst same
      rwa [set_self]
    · rw [set_other u p same, procs]
      exact tidy.inPlace other
  · intro e member
    rw [show (u.set pid p).execs = s.execs from execs] at member
    obtain ⟨born, done, own⟩ := tidy.execs e member
    have other : e.pid ≠ pid := fun same => busy (same ▸ done)
    rw [set_nextPid, nextPid, set_other u p other, procs]
    exact ⟨born, done, own⟩
  · rw [show (u.set pid p).execs = s.execs from execs]
    exact tidy.once

/-- One process execs its own stage. -/
theorem Tidy.exec (tidy : Tidy can stages s) {argv : List Cell} (busy : ¬ Done (s.procs pid).pc)
    (born : pid < s.nextPid)
    (own : pid < stages.length ∧ ownStage stages pid = some (leadingWords argv)) :
    Tidy can stages (s.exec w pid argv) := by
  have others : ∀ e ∈ s.execs, e.pid ≠ pid := by
    intro e member same
    exact busy (same ▸ (tidy.execs e member).2.1)
  have running : Done (.running (w.output pid)) := Or.inr ⟨_, rfl⟩
  constructor
  · exact tidy.started
  · intro other
    by_cases same : other = pid
    · subst same
      rw [State.exec, set_self]
      exact Done.inPlace running
    · rw [State.exec, set_other _ _ same]
      exact tidy.inPlace other
  · intro e member
    rcases List.mem_append.mp member with before | now
    · obtain ⟨born, done, own⟩ := tidy.execs e before
      rw [State.exec, set_other _ _ (others e before)]
      exact ⟨born, done, own⟩
    · obtain rfl := List.mem_singleton.mp now
      rw [State.exec, set_self]
      exact ⟨born, running, own⟩
  · have pids : (s.exec w pid argv).execs.map Exec.pid = s.execs.map Exec.pid ++ [pid] := by
      simp [State.exec, State.set]
    rw [pids, List.nodup_append]
    refine ⟨tidy.once, by simp, ?_⟩
    intro a member b last
    obtain rfl := List.mem_singleton.mp last
    obtain ⟨e, found, rfl⟩ := List.mem_map.mp member
    exact others e found

theorem SplitAt.own_left {k : Nat} {f : Frame} (splitAt : SplitAt stages k f) :
    k + 1 < stages.length ∧
      ownStage stages (k + 1) = some (leadingWords f.split.left.cells) := by
  refine ⟨splitAt.words.2.2.2, ?_⟩
  rw [ownStage, if_neg (Nat.succ_ne_zero k)]
  exact splitAt.words.1

theorem SplitAt.own_right {k : Nat} {f : Frame} (splitAt : SplitAt stages k f)
    (last : k + 2 = stages.length) :
    0 < stages.length ∧ ownStage stages 0 = some (leadingWords f.split.right.cells) := by
  refine ⟨by omega, ?_⟩
  rw [ownStage, if_pos rfl, List.getLast?_eq_getElem?, ← splitAt.words.2.1, ← last]
  rfl

/-- The last two stages. -/
theorem SplitAt.last_two {k : Nat} {f : Frame} (splitAt : SplitAt stages k f)
    (last : k + 2 = stages.length) :
    ∃ front, stages = front ++
      [leadingWords f.split.left.cells, leadingWords f.split.right.cells] := by
  obtain ⟨left, right, more, rest, split⟩ := splitAt
  have length := congrArg List.length rest
  rw [List.length_drop, List.length_cons, List.length_cons] at length
  obtain rfl : more = [] := List.length_eq_zero_iff.mp (by omega)
  refine ⟨stages.take k, ?_⟩
  rw [split, leadingWords_leftArgv, leadingWords_rightArgv, ← rest, List.take_append_drop]

/-- The last stage can be executed, or the one before it cannot. -/
def LastTwo (can : List Word → Bool) (stages : List (List Word)) : Prop :=
  ∀ front left right, stages = front ++ [left, right] → can right = true ∨ can left = false

/-- The branch of the child comes to its `execvp`. -/
theorem LeftSide.next_statement {f : Frame} {u : State E} (side : LeftSide f (s.procs pid).pc)
    (h : statement w s pid = some u) :
    (∃ p, LeftSide f p.pc ∧ u = s.set pid p) ∨
      (s.procs pid).pc = .execLeft f ∧ u = s.exec w pid f.split.left.cells := by
  generalize at_pc : (s.procs pid).pc = pc at side
  cases side with
  | closeRead =>
    simp only [statement, at_pc, Option.some.injEq] at h
    exact Or.inl ⟨_, .dupWrite, h.symm⟩
  | dupWrite =>
    simp only [statement, at_pc, Option.some.injEq] at h
    exact Or.inl ⟨_, .closeWrite, h.symm⟩
  | closeWrite =>
    simp only [statement, at_pc, Option.some.injEq] at h
    exact Or.inl ⟨_, .exec, h.symm⟩
  | exec =>
    simp only [statement, at_pc, Option.some.injEq] at h
    exact Or.inr ⟨rfl, h.symm⟩

/-- The branch of the parent comes to its recursive call. -/
theorem RightSide.next_statement {f : Frame} {u : State E} (side : RightSide f (s.procs pid).pc)
    (h : statement w s pid = some u) :
    ∃ p, u = s.set pid p ∧
      (RightSide f p.pc ∨ p.pc = .call f.split.rest ∧ p.stack = f :: (s.procs pid).stack) := by
  generalize at_pc : (s.procs pid).pc = pc at side
  cases side with
  | closeWrite child =>
    simp only [statement, at_pc, Option.some.injEq] at h
    exact ⟨_, h.symm, Or.inl (.dupRead child)⟩
  | dupRead child =>
    simp only [statement, at_pc, Option.some.injEq] at h
    exact ⟨_, h.symm, Or.inl (.wait child)⟩
  | wait child =>
    simp only [statement, at_pc] at h
    obtain ⟨-, same⟩ := Option.ite_none_right_eq_some.mp h
    exact ⟨_, (Option.some.inj same).symm, Or.inl .closeRead⟩
  | closeRead =>
    simp only [statement, at_pc, Option.some.injEq] at h
    exact ⟨_, h.symm, Or.inr ⟨rfl, rfl⟩⟩

theorem Tidy.step_call (tidy : Tidy can stages s) (stage : ∀ s ∈ stages, Stage s) {k : Nat}
    (level : k < stages.length) (main : (s.procs 0).pc = .call (pipeline (stages.drop k)))
    (caller : ∀ f ∈ (s.procs 0).stack.head?, ∃ j, k = j + 1 ∧ SplitAt stages j f)
    (pid : s.nextPid = k + 1) :
    Tidy can stages (callStep s 0 (s.procs 0) (pipeline (stages.drop k))) := by
  have busy : ¬ Done (s.procs 0).pc := by
    rw [main]
    rintro (stop | ⟨_, stop⟩) <;> cases stop
  let piped : State E :=
    { s with nextPipe := s.nextPipe + 1, pipes := Function.update s.pipes s.nextPipe 0 }
  have goesOn : ∀ p, InPlace can stages s.nextPid 0 p → Tidy can stages (piped.set 0 p) :=
    fun p inPlace => tidy.set (u := piped) rfl rfl rfl busy inPlace
  rcases level_splits stage level with
    ⟨last, index⟩ | ⟨more, left, right, tail, rest, positive, index, split⟩
  · have present : ¬ (0 : Int) = -1 := by decide
    simp only [callStep, index, State.exit, if_neg present, if_true]
    cases callers : (s.procs 0).stack with
    | nil => exact goesOn _ (Done.inPlace (Or.inl rfl))
    | cons f stack =>
      obtain ⟨j, rfl, splitAt⟩ := caller f (by rw [callers]; rfl)
      exact goesOn _ (MainAt.execRight splitAt last)
  · have middle : (left.length : Int) ≠ 0 := by omega
    have legal : (left.length : Int) ≠ -1 := by omega
    simp only [callStep, index, if_neg middle, if_neg legal, Int.toNat_natCast, split]
    exact goesOn _ (MainAt.fork ⟨left, right, tail, rest, rfl⟩ pid)

/-- The new process takes the left side of the level. -/
theorem Tidy.step_fork (tidy : Tidy can stages s) {k : Nat} {f : Frame}
    (splitAt : SplitAt stages k f) (pid : s.nextPid = k + 1) {p q : Process E}
    (main : (s.procs 0).pc = .fork f) (right : RightSide f p.pc) (left : LeftSide f q.pc) :
    Tidy can stages (({ s with nextPid := s.nextPid + 1 }.set 0 p).set s.nextPid q) := by
  have other : s.nextPid ≠ 0 := by omega
  constructor
  · exact Nat.succ_pos _
  · intro i
    rcases i with _ | j
    · rw [set_other _ q other.symm, set_self]
      exact MainAt.right splitAt (by rw [set_nextPid, set_nextPid, pid]) right
    · by_cases new : j + 1 = s.nextPid
      · rw [new, set_self, pid]
        exact LeftAt.side (Nat.lt_succ_self _) splitAt left
      · rw [set_other _ q new, set_other _ p (Nat.succ_ne_zero j)]
        have before : LeftAt stages s.nextPid j (s.procs (j + 1)).pc := tidy.inPlace (j + 1)
        exact before.grow (Nat.le_succ _)
  · intro e member
    obtain ⟨born, done, own⟩ := tidy.execs e member
    have notMain : e.pid ≠ 0 := by
      intro same
      rw [same, main] at done
      rcases done with stop | ⟨_, stop⟩ <;> cases stop
    rw [set_other _ q (Nat.ne_of_lt born), set_other _ p notMain]
    exact ⟨Nat.lt_succ_of_lt born, done, own⟩
  · exact tidy.once

theorem Tidy.step_main (tidy : Tidy can stages s) (stage : ∀ s ∈ stages, Stage s)
    (lastTwo : LastTwo can stages) {u : State E} (pattern : ExecPattern can (.run 0) s)
    (h : statement w s 0 = some u) : Tidy can stages u := by
  have main : MainAt can stages s.nextPid (s.procs 0).pc (s.procs 0).stack := tidy.inPlace 0
  generalize at_pc : (s.procs 0).pc = pc at main
  generalize callers : (s.procs 0).stack = stack at main
  cases main with
  | @call k _ level caller pid =>
    simp only [statement, at_pc, Option.some.injEq] at h
    exact h ▸ tidy.step_call stage level at_pc (callers ▸ caller) pid
  | @fork k f _ splitAt pid =>
    simp only [statement, at_pc, Option.some.injEq] at h
    exact h ▸ tidy.step_fork splitAt pid at_pc (.closeWrite s.nextPid) .closeRead
  | @right k f _ _ splitAt pid side =>
    have busy : ¬ Done (s.procs 0).pc := at_pc ▸ side.not_done
    obtain ⟨p, rfl, side' | ⟨call, stack⟩⟩ := (at_pc ▸ side).next_statement h
    · exact tidy.set rfl rfl rfl busy (MainAt.right splitAt pid side')
    · obtain ⟨-, -, tail, more⟩ := splitAt.words
      have next : MainAt can stages s.nextPid p.pc p.stack := by
        rw [call, tail, stack]
        refine .call more ?_ pid
        rintro _ ⟨⟩
        exact ⟨k, rfl, splitAt⟩
      exact tidy.set rfl rfl rfl busy next
  | @execRight k f _ splitAt last =>
    simp only [statement, at_pc, Option.some.injEq] at h
    refine h ▸ tidy.exec ?_ tidy.started (splitAt.own_right last)
    rw [at_pc]
    rintro (stop | ⟨_, stop⟩) <;> cases stop
  | @fallen k f _ _ splitAt last failed side =>
    rcases (at_pc ▸ side).next_statement h with ⟨p, side', rfl⟩ | ⟨exec, -⟩
    · exact tidy.set rfl rfl rfl (at_pc ▸ side.not_done) (MainAt.fallen splitAt last failed side')
    · -- the left side would run a second time here
      obtain ⟨front, two⟩ := splitAt.last_two last
      have runs : can (leadingWords f.split.left.cells) = true := pattern _ (by rw [exec]; rfl)
      rcases lastTwo front _ _ two with right | left
      · exact absurd (failed.symm.trans right) Bool.false_ne_true
      · exact absurd (left.symm.trans runs) Bool.false_ne_true
  | done done =>
    rcases done with rfl | ⟨output, rfl⟩ <;> simp [statement, at_pc] at h

theorem Tidy.step_left (tidy : Tidy can stages s) {k : Nat} {u : State E}
    (h : statement w s (k + 1) = some u) : Tidy can stages u := by
  have leftAt : LeftAt stages s.nextPid k (s.procs (k + 1)).pc := tidy.inPlace (k + 1)
  generalize at_pc : (s.procs (k + 1)).pc = pc at leftAt
  cases leftAt with
  | side born splitAt side =>
    have busy : ¬ Done (s.procs (k + 1)).pc := at_pc ▸ side.not_done
    rcases (at_pc ▸ side).next_statement h with ⟨p, side', rfl⟩ | ⟨-, rfl⟩
    · exact tidy.set rfl rfl rfl busy (LeftAt.side born splitAt side')
    · exact tidy.exec busy born splitAt.own_left
  | done done =>
    rcases done with rfl | ⟨output, rfl⟩ <;> simp [statement, at_pc] at h

/-- A failed `execvp` of the left side ends the process; one of the right side leads into
the branch of the child. -/
theorem Tidy.step_fails (tidy : Tidy can stages s) {u : State E}
    (pattern : ExecPattern can (.fails pid) s) (h : failure s pid = some u) :
    Tidy can stages u := by
  obtain ⟨argv, next, failed⟩ := pattern
  cases at_pc : (s.procs pid).pc with
  | execRight f =>
    obtain rfl : f.split.right.cells = argv := by simpa [at_pc, Pc.execArgv] using next
    have busy : ¬ Done (s.procs pid).pc := by
      rw [at_pc]
      rintro (stop | ⟨_, stop⟩) <;> cases stop
    simp only [failure, at_pc, Option.some.injEq] at h
    refine h ▸ tidy.set rfl rfl rfl busy ?_
    cases pid with
    | zero =>
      have main : MainAt can stages s.nextPid (s.procs 0).pc (s.procs 0).stack := tidy.inPlace 0
      rw [at_pc] at main
      cases main with
      | execRight splitAt last => exact MainAt.fallen splitAt last failed .closeRead
      | right _ _ side => cases side
      | fallen _ _ _ side => cases side
      | done done => exact absurd (at_pc ▸ done) busy
    | succ k =>
      have leftAt : LeftAt stages s.nextPid k (s.procs (k + 1)).pc := tidy.inPlace (k + 1)
      rw [at_pc] at leftAt
      cases leftAt with
      | side _ _ side => cases side
      | done done => exact absurd (at_pc ▸ done) busy
  | execLeft f =>
    simp only [failure, at_pc, Option.some.injEq] at h
    refine h ▸ tidy.set rfl rfl rfl ?_ (Done.inPlace (Or.inl rfl))
    rw [at_pc]
    rintro (stop | ⟨_, stop⟩) <;> cases stop
  | _ => simp [at_pc, Pc.execArgv] at next

/-- A program writes, reads and exits and changes nothing else that matters here. -/
theorem program_step [DecidableEq E] {act : Act} (h : next w act s = some t)
    (program : (∀ p, act ≠ .run p) ∧ ∀ p, act ≠ .fails p) :
    t.nextPid = s.nextPid ∧ t.execs = s.execs ∧
      ∀ p, t.procs p = s.procs p ∨ p = act.pid ∧ Done (s.procs p).pc ∧ Done (t.procs p).pc := by
  have goesOn : ∀ {u : State E} {p output q}, u.nextPid = s.nextPid → u.execs = s.execs →
      u.procs = s.procs → (s.procs p).pc = .running output → Done q.pc →
      (u.set p q).nextPid = s.nextPid ∧ (u.set p q).execs = s.execs ∧
        ∀ i, (u.set p q).procs i = s.procs i ∨
          i = p ∧ Done (s.procs i).pc ∧ Done ((u.set p q).procs i).pc := by
    intro u p output q nextPid execs procs runs done
    refine ⟨nextPid, execs, ?_⟩
    intro i
    by_cases same : i = p
    · subst same
      rw [set_self]
      exact Or.inr ⟨rfl, Or.inr ⟨output, runs⟩, done⟩
    · rw [set_other u q same, procs]
      exact Or.inl rfl
  cases act with
  | run p => exact absurd rfl (program.1 p)
  | fails p => exact absurd rfl (program.2 p)
  | write p =>
    simp only [next, programWrite] at h
    split at h
    · rename_i n runs
      split at h
      · split at h
        · split at h
          · cases h
            exact goesOn rfl rfl rfl runs (Or.inr ⟨n, rfl⟩)
          · cases h
        · cases h
          exact goesOn rfl rfl rfl runs (Or.inl rfl)
      · cases h
        exact goesOn rfl rfl rfl runs (Or.inr ⟨n, rfl⟩)
    · cases h
  | read p =>
    simp only [next, programRead] at h
    split at h
    · split at h
      · split at h
        · cases h
          exact ⟨rfl, rfl, fun _ => Or.inl rfl⟩
        · cases h
      · cases h
    · cases h
  | exit p =>
    simp only [next, programExit] at h
    split at h
    · rename_i runs
      cases h
      exact goesOn rfl rfl rfl runs (Or.inl rfl)
    · cases h

/-- Step lemma. -/
theorem Tidy.step [DecidableEq E] (tidy : Tidy can stages s) (stage : ∀ s ∈ stages, Stage s)
    (lastTwo : LastTwo can stages) {act : Act} (pattern : ExecPattern can act s)
    (h : next w act s = some t) : Tidy can stages t := by
  have programs : ((∀ p, act ≠ .run p) ∧ ∀ p, act ≠ .fails p) → Tidy can stages t := by
    intro program
    obtain ⟨nextPid, execs, procs⟩ := program_step h program
    constructor
    · exact nextPid ▸ tidy.started
    · intro p
      rcases procs p with same | ⟨-, -, done⟩
      · rw [same, nextPid]
        exact tidy.inPlace p
      · exact done.inPlace
    · intro e member
      obtain ⟨born, done, own⟩ := tidy.execs e (execs ▸ member)
      refine ⟨nextPid ▸ born, ?_, own⟩
      rcases procs e.pid with same | ⟨-, -, done⟩
      · rwa [same]
      · exact done
    · exact execs ▸ tidy.once
  cases act with
  | run p =>
    cases p with
    | zero => exact tidy.step_main stage lastTwo pattern h
    | succ k => exact tidy.step_left h
  | fails p => exact tidy.step_fails pattern h
  | write p | read p | exit p => exact programs ⟨by simp, by simp⟩

/-- At the start process 0 calls `pipe_and_exec` at level 0. -/
theorem Tidy.start (nonempty : stages ≠ []) :
    Tidy can stages (State.initial w (pipeline stages)) := by
  constructor
  · exact Nat.one_pos
  · intro p
    cases p with
    | zero => exact MainAt.call (List.length_pos_iff.mpr nonempty) (by rintro _ ⟨⟩) rfl
    | succ k => exact LeftAt.done (Or.inl rfl)
  · rintro _ ⟨⟩
  · exact List.nodup_nil

/-- The index of the stage that a process is there for. -/
def ownIndex (stages : List (List Word)) (pid : Nat) : Nat :=
  if pid = 0 then stages.length - 1 else pid - 1

theorem ownStage_eq (stages : List (List Word)) (pid : Nat) :
    ownStage stages pid = stages[ownIndex stages pid]? := by
  rw [ownStage, ownIndex]
  split
  · exact List.getLast?_eq_getElem?
  · rfl

/-- Different processes are there for different stages, when the last one is that of
process 0. -/
theorem ownIndex_inj {a b : Nat} (ha : a < stages.length) (hb : b < stages.length)
    (same : ownIndex stages a = ownIndex stages b) : a = b := by
  simp only [ownIndex] at same
  split at same <;> split at same <;> omega

theorem RunsOnce.of_own {execs : List (Exec E)}
    (own : ∀ e ∈ execs, e.pid < stages.length ∧ ownStage stages e.pid = some (leadingWords e.argv))
    (once : (execs.map Exec.pid).Nodup) : RunsOnce stages execs := by
  refine ⟨?_, fun e member => (own e member).2⟩
  intro words
  have indices : (execs.map fun e => ownIndex stages e.pid).Nodup := by
    have injective : ∀ a ∈ execs.map Exec.pid, ∀ b ∈ execs.map Exec.pid,
        ownIndex stages a = ownIndex stages b → a = b := by
      intro a ha b hb same
      obtain ⟨e, memberE, rfl⟩ := List.mem_map.mp ha
      obtain ⟨f, memberF, rfl⟩ := List.mem_map.mp hb
      exact ownIndex_inj (own e memberE).1 (own f memberF).1 same
    simpa [Function.comp_def] using List.Nodup.map_on injective once
  have inside : (execs.map fun e => ownIndex stages e.pid) ⊆ List.range stages.length := by
    intro i member
    obtain ⟨e, found, rfl⟩ := List.mem_map.mp member
    obtain ⟨small, -⟩ := own e found
    rw [List.mem_range, ownIndex]
    split <;> omega
  obtain ⟨some_of, perm, sub⟩ := List.subperm_of_subset indices inside
  have stagesOf := List.Subperm.count_le
    ⟨some_of.map (stages[·]?), perm.map _, sub.map (stages[·]?)⟩ (some words)
  have ran : (execs.map fun e => ownIndex stages e.pid).map (stages[·]?) =
      (execs.map fun e => leadingWords e.argv).map some := by
    rw [List.map_map, List.map_map]
    apply List.map_congr_left
    intro e member
    exact (ownStage_eq stages e.pid).symm.trans (own e member).2
  have all : (List.range stages.length).map (stages[·]?) = stages.map some := by
    apply List.ext_getElem
    · simp
    · intro i _ _
      simp
  have injective : Function.Injective (some : List Word → Option (List Word)) :=
    fun _ _ same => Option.some.inj same
  rwa [ran, all, List.count_map_of_injective _ _ injective,
    List.count_map_of_injective _ _ injective] at stagesOf

theorem Tidy.runsOnce (tidy : Tidy can stages s) : RunsOnce stages s.execs :=
  .of_own (fun e member => (tidy.execs e member).2.2) tidy.once

end

/-! ## A run to the last stage -/

section
variable [DecidableEq E] (w : World E) (can : List Word → Bool) (argv : List Word)
  {stages : List (List Word)} {s : State E}

/-- The runs of a pipeline some of whose commands cannot be executed. -/
def patternRuns : StepSystem (State E) Act :=
  (pipeAndExec w argv).restrict (ExecPattern can)

theorem quiet_step {t : State E} {pid : Nat}
    (quiet : (s.procs pid).pc.execArgv = none) (h : statement w s pid = some t) :
    (patternRuns w can argv).step (.run pid) s t := by
  refine ⟨?_, h⟩
  intro vector next
  rw [quiet] at next
  cases next

/-- The branch of the child up to its `execvp`. -/
theorem left_side_runs {pid : Nat} {f : Frame} {fds : Table (End E)}
    {stack : List Frame} (here : s.procs pid = ⟨.childCloseRead f, fds, stack⟩) :
    ∃ t fds', (patternRuns w can argv).Run s t ∧ t.nextPid = s.nextPid ∧ t.execs = s.execs ∧
      t.procs = Function.update s.procs pid ⟨.execLeft f, fds', stack⟩ := by
  let p1 : Process E := (s.procs pid).close f.pfd.1 (.childDupWrite f)
  let p2 : Process E := p1.dup2 f.pfd.2 1 (.childCloseWrite f)
  let p3 : Process E := p2.close f.pfd.2 (.execLeft f)
  have step1 : (patternRuns w can argv).step (.run pid) s (s.set pid p1) :=
    quiet_step w can argv (by rw [here]; rfl) (by simp [statement, here, p1])
  have step2 : (patternRuns w can argv).step (.run pid) (s.set pid p1)
      ((s.set pid p1).set pid p2) :=
    quiet_step w can argv (by rw [set_self]; rfl) (by simp [statement, p1, p2, Process.close])
  have step3 : (patternRuns w can argv).step (.run pid) ((s.set pid p1).set pid p2)
      (((s.set pid p1).set pid p2).set pid p3) :=
    quiet_step w can argv (by rw [set_self]; rfl)
      (by simp [statement, p1, p2, p3, Process.close, Process.dup2])
  refine ⟨_, p3.fds, ((Run.refl s).snoc step1 |>.snoc step2 |>.snoc step3), rfl, rfl, ?_⟩
  simp [State.set, p1, p2, p3, here, Process.close, Process.dup2]

/-- A child comes to its end, whether its command can be executed or not. -/
theorem left_side_ends {pid : Nat} {f : Frame} {fds : Table (End E)}
    {stack : List Frame} (silent : w.output pid = 0)
    (here : s.procs pid = ⟨.childCloseRead f, fds, stack⟩) :
    ∃ t, (patternRuns w can argv).Run s t ∧ t.nextPid = s.nextPid ∧
      t.procs = Function.update s.procs pid .dead := by
  obtain ⟨r, fds', run, nextPid, -, procs⟩ := left_side_runs w can argv here
  have there : r.procs pid = ⟨.execLeft f, fds', stack⟩ := by rw [procs, Function.update_self]
  cases able : can (leadingWords f.split.left.cells) with
  | false =>
    have fails : (patternRuns w can argv).step (.fails pid) r (r.exit pid) := by
      refine ⟨⟨_, by rw [there]; rfl, able⟩, ?_⟩
      change failure r pid = _
      simp [failure, there]
    refine ⟨_, run.snoc fails, nextPid, ?_⟩
    simp [State.exit, State.set, procs]
  | true =>
    have execs : (patternRuns w can argv).step (.run pid) r (r.exec w pid f.split.left.cells) := by
      constructor
      · intro vector next
        rw [there] at next
        cases next
        exact able
      · change statement w r pid = _
        simp [statement, there]
    have exits : (patternRuns w can argv).step (.exit pid) (r.exec w pid f.split.left.cells)
        ((r.exec w pid f.split.left.cells).exit pid) := by
      refine ⟨trivial, ?_⟩
      change programExit _ pid = _
      simp [programExit, State.exec, silent]
    refine ⟨_, (run.snoc execs).snoc exits, nextPid, ?_⟩
    simp [State.exit, State.exec, State.set, procs]

/-- The branch of the parent, once the child has ended. -/
theorem right_side_runs {child : Nat} {f : Frame} {fds : Table (End E)}
    {stack : List Frame} (here : s.procs 0 = ⟨.closeWrite f child, fds, stack⟩) (other : child ≠ 0)
    (ended : s.procs child = .dead) :
    ∃ t fds', (patternRuns w can argv).Run s t ∧ t.nextPid = s.nextPid ∧
      t.procs 0 = ⟨.call f.split.rest, fds', f :: stack⟩ := by
  let p1 : Process E := (s.procs 0).close f.pfd.2 (.dupRead f child)
  let p2 : Process E := p1.dup2 f.pfd.1 0 (.wait f child)
  let p3 : Process E := { p2 with pc := .closeRead f }
  let p4 : Process E := { p3.close f.pfd.1 (.call f.split.rest) with stack := f :: p3.stack }
  let s3 : State E := ((s.set 0 p1).set 0 p2).set 0 p3
  have waits : p2.pc = .wait f child := rfl
  have dead : ((s.set 0 p1).set 0 p2).procs child = .dead := by
    rw [set_other _ _ other, set_other _ _ other, ended]
  have step1 : (patternRuns w can argv).step (.run 0) s (s.set 0 p1) :=
    quiet_step w can argv (by rw [here]; rfl) (by simp [statement, here, p1])
  have step2 : (patternRuns w can argv).step (.run 0) (s.set 0 p1) ((s.set 0 p1).set 0 p2) :=
    quiet_step w can argv (by rw [set_self]; rfl) (by simp [statement, p1, p2, Process.close])
  have step3 : (patternRuns w can argv).step (.run 0) ((s.set 0 p1).set 0 p2) s3 :=
    quiet_step w can argv (by rw [set_self]; rfl)
      (by simp only [statement, set_self, waits, dead]; exact if_pos rfl)
  have step4 : (patternRuns w can argv).step (.run 0) s3 (s3.set 0 p4) :=
    quiet_step w can argv (by rw [set_self]; rfl)
      (by simp [statement, s3, p3, p4, p2, Process.dup2])
  refine ⟨s3.set 0 p4, p4.fds, Run.snoc (((Run.refl s).snoc step1).snoc step2 |>.snoc step3) step4,
    rfl, ?_⟩
  rw [set_self]
  simp [p1, p2, p3, p4, here, Process.close, Process.dup2]

/-- One level of the recursion when every command ends without output. -/
theorem level_runs (silent : ∀ pid, w.output pid = 0)
    (stage : ∀ s ∈ stages, Stage s) {k : Nat} (level : k + 1 < stages.length)
    {fds : Table (End E)} {stack : List Frame}
    (here : s.procs 0 = ⟨.call (pipeline (stages.drop k)), fds, stack⟩) (pid : s.nextPid = k + 1) :
    ∃ t f fds', (patternRuns w can argv).Run s t ∧ t.nextPid = k + 2 ∧ SplitAt stages k f ∧
      t.procs 0 = ⟨.call (pipeline (stages.drop (k + 1))), fds', f :: stack⟩ := by
  rcases level_splits stage (Nat.lt_of_succ_lt level) with
    ⟨last, -⟩ | ⟨-, left, right, more, rest, positive, index, split⟩
  · omega
  have middle : (left.length : Int) ≠ 0 := by omega
  have legal : (left.length : Int) ≠ -1 := by omega
  let made := allocPair fds (.read s.nextPipe) (.write s.nextPipe)
  let f : Frame := ⟨made.2, ⟨leftArgv left, rightArgv right, pipeline (right :: more)⟩⟩
  have splitAt : SplitAt stages k f := ⟨left, right, more, rest, rfl⟩
  let s1 : State E := State.set
    { s with nextPipe := s.nextPipe + 1, pipes := Function.update s.pipes s.nextPipe 0 } 0
    ⟨.fork f, made.1, stack⟩
  let s2 : State E := ({ s1 with nextPid := s1.nextPid + 1 }.set 0
    ⟨.closeWrite f (k + 1), made.1, stack⟩).set (k + 1) ⟨.childCloseRead f, made.1, stack⟩
  have step1 : (patternRuns w can argv).step (.run 0) s s1 := by
    refine quiet_step w can _ (by rw [here]; rfl) ?_
    simp only [statement, here, callStep, index, if_neg middle, if_neg legal, Int.toNat_natCast,
      split]
    rfl
  have step2 : (patternRuns w can argv).step (.run 0) s1 s2 := by
    refine quiet_step w can _ (by rw [set_self]; rfl) ?_
    simp [statement, s1, s2, pid]
  have child : s2.procs (k + 1) = ⟨.childCloseRead f, made.1, stack⟩ := set_self _ _ _
  have parent : s2.procs 0 = ⟨.closeWrite f (k + 1), made.1, stack⟩ := by
    rw [set_other _ _ (Nat.succ_ne_zero k).symm, set_self]
  obtain ⟨r, ends, nextPid, procs⟩ := left_side_ends w can argv (silent _) child
  have ended : r.procs (k + 1) = .dead := by rw [procs, Function.update_self]
  have waits : r.procs 0 = ⟨.closeWrite f (k + 1), made.1, stack⟩ := by
    rw [procs, Function.update_of_ne (Nat.succ_ne_zero k).symm, parent]
  obtain ⟨t, fds', returns, nextPid', call⟩ :=
    right_side_runs w can argv waits (Nat.succ_ne_zero k) ended
  refine ⟨t, f, fds', ((Run.refl s).snoc step1 |>.snoc step2).trans (ends.trans returns), ?_,
    splitAt, ?_⟩
  · rw [nextPid', nextPid]
    simp [s2, s1, pid]
  · rw [call, splitAt.words.2.2.1]

/-- Process 0 comes to every level. -/
theorem levels_run (silent : ∀ pid, w.output pid = 0) (stage : ∀ s ∈ stages, Stage s) {k : Nat}
    (level : k + 1 < stages.length) :
    ∃ t f fds stack, (patternRuns w can (pipeline stages)).Reachable t ∧ t.nextPid = k + 2 ∧
      SplitAt stages k f ∧
      t.procs 0 = ⟨.call (pipeline (stages.drop (k + 1))), fds, f :: stack⟩ := by
  induction k with
  | zero =>
    obtain ⟨t, f, fds, run, pid, splitAt, call⟩ :=
      level_runs w can (pipeline stages) (s := State.initial w (pipeline stages)) silent stage
        level rfl rfl
    exact ⟨t, f, fds, [], (Reachable.initial rfl).run run, pid, splitAt, call⟩
  | succ k ih =>
    obtain ⟨r, g, fds, stack, reach, pid, -, here⟩ := ih (Nat.lt_of_succ_lt level)
    obtain ⟨t, f, fds', run, pid', splitAt, call⟩ :=
      level_runs w can (pipeline stages) silent stage level here pid
    exact ⟨t, f, fds', g :: stack, reach.run run, pid', splitAt, call⟩

/-- When the last command cannot be executed, its process execs the stage before. -/
theorem left_side_again (silent : ∀ pid, w.output pid = 0) (stage : ∀ s ∈ stages, Stage s)
    {front : List (List Word)} {left right : List Word}
    (split : stages = front ++ [left, right]) (failed : can right = false)
    (able : can left = true) :
    ∃ t, (patternRuns w can (pipeline stages)).Reachable t ∧
      ∃ e ∈ t.execs, e.pid = 0 ∧ leadingWords e.argv = left := by
  have length : stages.length = front.length + 2 := by simp [split]
  obtain ⟨s, f, fds, stack, reach, -, splitAt, here⟩ :=
    levels_run w can silent stage (k := front.length) (by omega)
  obtain ⟨l, r, more, rest, words⟩ := splitAt
  obtain ⟨rfl, rfl, rfl⟩ : left = l ∧ right = r ∧ [] = more := by simpa [split] using rest
  have index : pipePresent (pipeline (stages.drop (front.length + 1))) = 0 := by
    rcases level_splits stage (k := front.length + 1) (by omega) with ⟨-, index⟩ | ⟨more, -⟩
    · exact index
    · omega
  let made := allocPair fds (.read s.nextPipe) (.write s.nextPipe)
  let s1 : State E := State.set
    { s with nextPipe := s.nextPipe + 1, pipes := Function.update s.pipes s.nextPipe 0 } 0
    ⟨.execRight f, made.1, stack⟩
  let s2 : State E := s1.set 0 ⟨.childCloseRead f, made.1, stack⟩
  have returns : (patternRuns w can (pipeline stages)).step (.run 0) s s1 := by
    refine quiet_step w can _ (by rw [here]; rfl) ?_
    simp only [statement, here, callStep, index]
    rfl
  have fails : (patternRuns w can (pipeline stages)).step (.fails 0) s1 s2 := by
    refine ⟨⟨_, by rw [set_self]; rfl, ?_⟩, ?_⟩
    · rw [words, leadingWords_rightArgv]
      exact failed
    · change failure s1 0 = _
      simp [failure, s1, s2]
  obtain ⟨t, fds', run, -, -, procs⟩ :=
    left_side_runs w can (pipeline stages) (set_self s1 0 _)
  have there : t.procs 0 = ⟨.execLeft f, fds', stack⟩ := by rw [procs, Function.update_self]
  have execs : (patternRuns w can (pipeline stages)).step (.run 0) t
      (t.exec w 0 f.split.left.cells) := by
    constructor
    · intro vector next
      rw [there] at next
      cases next
      rw [words, leadingWords_leftArgv]
      exact able
    · change statement w t 0 = _
      simp [statement, there]
  refine ⟨_, (((reach.next returns).next fails).run run).next execs, _,
    List.mem_append_right _ (List.mem_singleton_self _), rfl, ?_⟩
  rw [words, leadingWords_leftArgv]

/-- Every stage runs at most once, and in its own process, whatever the outputs and the
open descriptors are, if and only if the last command can be executed or the one before
it cannot. -/
theorem stages_run_once_iff (can : List Word → Bool) (nonempty : stages ≠ [])
    (stage : ∀ s ∈ stages, Stage s) :
    (∀ (w : World E) s, (patternRuns w can (pipeline stages)).Reachable s →
        RunsOnce stages s.execs) ↔ LastTwo can stages := by
  constructor
  · intro once front left right split
    by_contra neither
    obtain ⟨failed, able⟩ : can right = false ∧ can left = true := by simpa using neither
    obtain ⟨t, reach, e, member, main, words⟩ :=
      left_side_again (⟨[], 0, fun _ => 0⟩ : World E) can (fun _ => rfl) stage split failed able
    have own := (once _ t reach).own e member
    obtain rfl : right = left := by simpa [main, ownStage, words, split] using own
    exact absurd (failed.symm.trans able) Bool.false_ne_true
  · intro lastTwo w s reach
    refine (reach.invariant (I := Tidy can stages) ?_ ?_).runsOnce
    · rintro r rfl
      exact .start nonempty
    · rintro act r t tidy ⟨pattern, h⟩
      exact tidy.step stage lastTwo pattern h

end

private def listing : List Word := ["ls"]

private def badCommand : List (List Word) := [listing, ["nosuch"]]

private def terminalWorld : World Nat := ⟨standardStreams, 4, fun _ => 0⟩

/-- When both commands can be executed: each has run, in its own process. -/
theorem able_stages_run_once : ∃ s : State Nat,
    (patternRuns terminalWorld (fun _ => true) (pipeline badCommand)).Reachable s ∧
      s.execs.map (fun e => leadingWords e.argv) = badCommand ∧ RunsOnce badCommand s.execs := by
  have run : (follow (guarded (ExecPattern fun _ => true) (next terminalWorld))
      [.run 0, .run 0, .run 1, .run 1, .run 1, .run 1, .exit 1, .run 0, .run 0, .run 0, .run 0,
        .run 0, .run 0] (State.initial terminalWorld (pipeline badCommand))).map
        (fun s => s.execs.map fun e => leadingWords e.argv) = some badCommand := by
    decide +kernel
  obtain ⟨s, followed, ran⟩ := Option.map_eq_some_iff.mp run
  have start : (patternRuns terminalWorld (fun _ => true) (pipeline badCommand)).Reachable
      (State.initial terminalWorld (pipeline badCommand)) := Reachable.initial rfl
  have reach := start.run (follow_guarded_run followed)
  have lastTwo : LastTwo (fun _ => true) badCommand := fun _ _ _ _ => Or.inl rfl
  refine ⟨s, reach, ran, ?_⟩
  exact (stages_run_once_iff _ (by simp [badCommand])
    (by unfold Stage; decide +kernel)).mpr lastTwo terminalWorld s reach

/-- `ls | nosuch`: process 0 falls into the branch of the child and lists again. -/
private def secondListing : List Act :=
  [.run 0, .run 0, .run 1, .run 1, .run 1, .run 1, .exit 1, .run 0, .run 0, .run 0, .run 0, .run 0,
    .fails 0, .run 0, .run 0, .run 0, .run 0]

theorem left_side_runs_twice :
    ¬ ∀ (stages : List (List Word)) (can : List Word → Bool), stages ≠ [] →
      (∀ s ∈ stages, Stage s) → ∀ (w : World Nat) s,
      (patternRuns w can (pipeline stages)).Reachable s → RunsOnce stages s.execs := by
  intro claim
  let can : List Word → Bool := fun argv => argv = listing
  have run : (follow (guarded (ExecPattern can) (next terminalWorld)) secondListing
      (State.initial terminalWorld (pipeline badCommand))).map
        (fun s => s.execs.map fun e => leadingWords e.argv) = some [listing, listing] := by
    decide +kernel
  obtain ⟨s, followed, ran⟩ := Option.map_eq_some_iff.mp run
  have start : (patternRuns terminalWorld can (pipeline badCommand)).Reachable
      (State.initial terminalWorld (pipeline badCommand)) := Reachable.initial rfl
  have right := claim badCommand can (by simp [badCommand]) (by unfold Stage; decide +kernel)
    terminalWorld s (start.run (follow_guarded_run followed))
  have twice := right.once listing
  rw [ran] at twice
  exact absurd twice (by decide)

end Shell
