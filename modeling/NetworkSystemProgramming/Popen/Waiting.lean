import NetworkSystemProgramming.Popen.Ends

/-!
# What `my_pclose` waits for

`my_pclose` waits for the child and closes nothing. A child that reads up to the end of
file never exits, and one that writes exits only when its output fits.
-/

namespace Popen

open DescriptorTables Pipes StepSystems StepSystem

variable {E : Type} {capacity : Nat} {s t : State E}

/-- The child is blocked at its end: the pipe is empty, or full. -/
def Blocked (capacity : Nat) (s : State E) (c : Child E) (pipe : Nat) : Prop :=
  match c.mode with
  | .r => 0 < c.output ∧ capacity ≤ s.pipes pipe
  | .w => s.pipes pipe = 0

/-- The parent waits for a child that is blocked at the pipe that the parent holds open. -/
def Deadlocked (capacity : Nat) (s : State E) : Prop :=
  ∃ pid pipe, s.main = .wait pid ∧ (s.children pid).pc = .running ∧
    lookup (s.children pid).fds (s.children pid).mode.stdFd =
      some ((s.children pid).mode.given pipe) ∧
    Blocked capacity s (s.children pid) pipe ∧ Holds s.fds ((s.children pid).mode.kept pipe)

/-- What the child has still to write fits in the pipe with this end. -/
def EndFits (capacity : Nat) (s : State E) (pid : Nat) : End E → Prop
  | .read pipe => s.pipes pipe + (s.children pid).output ≤ capacity
  | _ => False

/-- A call of `my_pclose` is for a stream of mode "r" whose child has no more to write than
fits. -/
def PcloseFits (capacity : Nat) : Act → State E → Prop
  | .pclose fd, s => ∃ x ∈ lookup s.fds fd, EndFits capacity s (s.fdtopid fd) x
  | _, _ => True

instance (s : State E) (pid : Nat) : (x : End E) → Decidable (EndFits capacity s pid x)
  | .read pipe =>
    inferInstanceAs (Decidable (s.pipes pipe + (s.children pid).output ≤ capacity))
  | .entry _ | .write _ => .isFalse id

instance (s : State E) : (act : Act) → Decidable (PcloseFits capacity act s)
  | .pclose fd =>
    inferInstanceAs (Decidable (∃ x ∈ lookup s.fds fd, EndFits capacity s (s.fdtopid fd) x))
  | .popen _ _ | .run | .write _ _ | .read _ _ | .prepare _ | .childRead _ _ | .childEof _
  | .childWrite _ _ | .childExit _ => .isTrue trivial

/-! ## While the outputs fit -/

/-- What the child that the parent waits for has still to write fits in its pipe. -/
def WaitFits (capacity : Nat) (s : State E) : Prop :=
  ∀ pid, s.main = .wait pid → (s.children pid).mode = .r ∧
    s.pipes pid + (s.children pid).output ≤ capacity

theorem WaitFits.mono (fits : WaitFits capacity s) (main : t.main = s.main)
    (mode : ∀ pid, (t.children pid).mode = (s.children pid).mode)
    (less : ∀ pid, t.pipes pid + (t.children pid).output ≤
      s.pipes pid + (s.children pid).output) : WaitFits capacity t := by
  intro pid wait
  obtain ⟨reads, room⟩ := fits pid (main ▸ wait)
  exact ⟨(mode pid).trans reads, Nat.le_trans (less pid) room⟩

/-- A step of a child that leaves its mode, its output and the pipes as they are. -/
theorem WaitFits.setChild (fits : WaitFits capacity s) {pid : Nat} {c : Child E}
    (mode : c.mode = (s.children pid).mode) (output : c.output = (s.children pid).output) :
    WaitFits capacity (s.setChild pid c) := by
  refine fits.mono rfl (mode_setChild mode) ?_
  intro other
  by_cases same : other = pid
  · rw [same, setChild_self, output]
    exact Nat.le_refl _
  · rw [setChild_other _ _ same]
    exact Nat.le_refl _

theorem WaitFits.prepare (fits : WaitFits capacity s) {pid : Nat}
    (h : Popen.prepare s pid = some t) : WaitFits capacity t := by
  simp only [Popen.prepare] at h
  split at h
  · cases h
    exact fits.setChild rfl rfl
  · split at h
    · cases h
      exact fits.setChild rfl rfl
    · cases h
      exact fits.setChild rfl rfl
  · cases h
    exact fits.setChild rfl rfl
  · cases h
  · cases h

theorem WaitFits.childRead (fits : WaitFits capacity s) {pid n : Nat}
    (h : Popen.childRead s pid n = some t) : WaitFits capacity t := by
  simp only [Popen.childRead] at h
  split at h
  · split at h
    · rename_i pipe _ _ _ _
      cases h
      refine fits.mono rfl (fun _ => rfl) ?_
      intro other
      refine Nat.add_le_add_right ?_ _
      by_cases same : other = pipe
      · rw [same, setPipe_self]
        exact Nat.sub_le _ _
      · exact Nat.le_of_eq (setPipe_other _ _ same)
    · cases h
  · cases h

theorem not_wait_of_ready (main : t.main = .ready) : WaitFits capacity t := by
  intro pid wait
  rw [main] at wait
  cases wait

section
variable [DecidableEq E]

theorem WaitFits.childWrite (inv : Inv capacity s) (fits : WaitFits capacity s) {pid n : Nat}
    (h : Popen.childWrite capacity s pid n = some t) : WaitFits capacity t := by
  obtain ⟨-, -, -, enough, -, rfl⟩ := childWrite_cases inv h
  refine fits.mono rfl (mode_setChild rfl) ?_
  intro other
  by_cases same : other = pid
  · rw [same, setChild_self]
    change (s.setPipe pid _).pipes pid + _ ≤ _
    rw [setPipe_self]
    simp only
    omega
  · rw [setChild_other _ _ same]
    change (s.setPipe pid _).pipes other + _ ≤ _
    rw [setPipe_other _ _ same]
    exact Nat.le_refl _

theorem WaitFits.next (inv : Inv capacity s) (fits : WaitFits capacity s) {act : Act}
    (allowed : PcloseFits capacity act s) (h : Popen.next capacity act s = some t) :
    WaitFits capacity t := by
  cases act with
  | popen mode output =>
    simp only [Popen.next, popen] at h
    split at h
    · cases h
      rintro pid ⟨⟩
    · cases h
  | run =>
    simp only [Popen.next, statement] at h
    split at h
    · cases h
    · cases h
      rintro pid ⟨⟩
    · cases h
      rintro pid ⟨⟩
    · cases h
      rintro pid ⟨⟩
    · split at h
      · cases h
        exact not_wait_of_ready rfl
      · cases h
  | pclose fd =>
    obtain ⟨main, stream, rfl⟩ := inv.pclose_cases h
    rintro pid ⟨⟩
    obtain ⟨forked, opened⟩ := inv.streams fd stream
    obtain ⟨x, here, room⟩ := allowed
    obtain rfl := Option.some.inj (opened.symm.trans here)
    cases mode : (s.children (s.fdtopid fd)).mode with
    | r =>
      rw [mode] at room
      exact ⟨rfl, room⟩
    | w =>
      rw [mode] at room
      exact absurd room id
  | write fd n =>
    simp only [Popen.next, parentWrite] at h
    split at h
    · rename_i ready opened
      split at h
      · cases h
        exact not_wait_of_ready ready
      · cases h
    · cases h
  | read fd n =>
    simp only [Popen.next, parentRead] at h
    split at h
    · rename_i ready opened
      split at h
      · cases h
        exact not_wait_of_ready ready
      · cases h
    · cases h
  | prepare pid => exact fits.prepare h
  | childRead pid n => exact fits.childRead h
  | childEof pid =>
    rw [Popen.next, inv.no_eof] at h
    cases h
  | childWrite pid n => exact WaitFits.childWrite inv fits h
  | childExit pid =>
    simp only [Popen.next, childExit] at h
    split at h
    · cases h
      exact fits.setChild rfl rfl
    · cases h

/-- In every run that calls `my_pclose` only on streams of mode "r" whose child has no more
to write than fits in the pipe, the parent never waits for a child that it holds up. -/
theorem fitting_pcloses_no_deadlock {entry : Table E} (standard : FirstOpen 2 entry)
    (reach : ((commands capacity entry).restrict (PcloseFits capacity)).Reachable s) :
    ¬ Deadlocked capacity s := by
  have fits : WaitFits capacity s := by
    refine reach.invariant_of (J := Inv capacity) (I := WaitFits capacity) ?_ ?_ ?_
    · exact fun r reached => inv_of_reachable standard (restrict_reachable reached)
    · rintro r rfl
      exact not_wait_of_ready rfl
    · rintro act r t inv fits ⟨allowed, h⟩
      exact WaitFits.next inv fits allowed h
  have inv := inv_of_reachable standard (restrict_reachable reach)
  rintro ⟨pid, pipe, wait, running, opened, blocked, -⟩
  obtain ⟨mode, room⟩ := fits pid wait
  obtain rfl := inv.own_pipe running opened
  rw [Blocked, mode] at blocked
  omega

/-! ## Any other call -/

/-- Nothing but the statement and the descriptors of a child differs. -/
structure SameButPc (s t : State E) (pid : Nat) : Prop where
  main : t.main = s.main
  fds : t.fds = s.fds
  pipes : t.pipes = s.pipes
  mode : (t.children pid).mode = (s.children pid).mode
  output : (t.children pid).output = (s.children pid).output

def ChildPc.before : ChildPc → Nat
  | .closeKeep => 3
  | .dup => 2
  | .closeOther => 1
  | .running | .exited => 0

omit [DecidableEq E] in
theorem prepare_step (inv : Inv capacity s) {pid n : Nat}
    (before : (s.children pid).pc.before = n + 1) :
    ∃ t, prepare s pid = some t ∧ (t.children pid).pc.before = n ∧
      (t.children pid).pc ≠ .exited ∧ SameButPc s t pid := by
  have same {c : Child E} (mode : c.mode = (s.children pid).mode)
      (output : c.output = (s.children pid).output) : SameButPc s (s.setChild pid c) pid :=
    ⟨rfl, rfl, rfl, by rw [setChild_self, mode], by rw [setChild_self, output]⟩
  simp only [prepare]
  cases at_pc : (s.children pid).pc with
  | closeKeep =>
    obtain rfl : n = 2 := by simpa [at_pc, ChildPc.before] using before
    refine ⟨_, rfl, ?_, ?_, same rfl rfl⟩ <;> simp [ChildPc.before]
  | dup =>
    obtain rfl : n = 1 := by simpa [at_pc, ChildPc.before] using before
    have wired := inv.wired_at at_pc (by simp)
    rw [Wired, at_pc] at wired
    simp only [dup2_of_open wired.1]
    refine ⟨_, rfl, ?_, ?_, same rfl rfl⟩ <;> simp [ChildPc.before]
  | closeOther =>
    obtain rfl : n = 0 := by simpa [at_pc, ChildPc.before] using before
    refine ⟨_, rfl, ?_, ?_, same rfl rfl⟩ <;> simp [ChildPc.before]
  | running | exited => simp [at_pc, ChildPc.before] at before

/-- A child that has not exited comes to its command. -/
theorem prepared (entry : Table E) (inv : Inv capacity s) {pid : Nat}
    (alive : (s.children pid).pc ≠ .exited) :
    ∃ t, (commands capacity entry).Run s t ∧ (t.children pid).pc = .running ∧
      SameButPc s t pid := by
  induction n : (s.children pid).pc.before generalizing s with
  | zero =>
    refine ⟨s, Run.refl s, ?_, ⟨rfl, rfl, rfl, rfl, rfl⟩⟩
    cases at_pc : (s.children pid).pc with
    | running => rfl
    | exited => exact absurd at_pc alive
    | closeKeep | dup | closeOther => simp [at_pc, ChildPc.before] at n
  | succ n ih =>
    obtain ⟨u, step, before, alive', first⟩ := prepare_step inv n
    obtain ⟨t, run, running, rest⟩ := ih (inv.prepare step) alive' before
    have moved : (commands capacity entry).step (.prepare pid) s u := step
    exact ⟨t, Run.cons moved run, running, rest.main.trans first.main, rest.fds.trans first.fds,
      rest.pipes.trans first.pipes, rest.mode.trans first.mode, rest.output.trans first.output⟩

omit [DecidableEq E] in
theorem Inv.deadlocked (inv : Inv capacity s) {pid : Nat} (waits : s.main = .wait pid)
    (running : (s.children pid).pc = .running)
    (blocked : Blocked capacity s (s.children pid) pid) : Deadlocked capacity s := by
  have wired := inv.wired_at running (by simp)
  rw [Wired, running] at wired
  exact ⟨pid, pid, waits, running, wired, blocked, inv.kept pid (inv.forked running (by simp))⟩

/-- A running child of mode "w" reads its pipe empty. -/
theorem reader_deadlocks (entry : Table E) (inv : Inv capacity s) {pid : Nat}
    (waits : s.main = .wait pid) (running : (s.children pid).pc = .running)
    (mode : (s.children pid).mode = .w) :
    ∃ t, (commands capacity entry).Run s t ∧ Deadlocked capacity t := by
  by_cases empty : s.pipes pid = 0
  · refine ⟨s, Run.refl s, inv.deadlocked waits running ?_⟩
    rw [Blocked, mode]
    exact empty
  · have wired := inv.wired_at running (by simp)
    simp only [Wired, running, mode, Mode.stdFd, Mode.given] at wired
    have read : (commands capacity entry).step (.childRead pid (s.pipes pid)) s
        (s.setPipe pid 0) := by
      change childRead s pid (s.pipes pid) = _
      simp only [childRead, running, mode, wired]
      rw [if_pos ⟨Nat.pos_of_ne_zero empty, Nat.le_refl _⟩, Nat.sub_self]
    refine ⟨_, (Run.refl s).snoc read, (inv.childRead read).deadlocked waits running ?_⟩
    change Blocked _ _ (s.children pid) pid
    rw [Blocked, mode]
    exact setPipe_self s pid 0

/-- A running child of mode "r" fills its pipe. -/
theorem writer_deadlocks (entry : Table E) (inv : Inv capacity s) {pid : Nat}
    (waits : s.main = .wait pid) (running : (s.children pid).pc = .running)
    (mode : (s.children pid).mode = .r)
    (more : capacity < s.pipes pid + (s.children pid).output) :
    ∃ t, (commands capacity entry).Run s t ∧ Deadlocked capacity t := by
  by_cases full : capacity ≤ s.pipes pid
  · refine ⟨s, Run.refl s, inv.deadlocked waits running ?_⟩
    have room := inv.room pid
    rw [Blocked, mode]
    exact ⟨by omega, full⟩
  · have wired := inv.wired_at running (by simp)
    simp only [Wired, running, mode, Mode.stdFd, Mode.given] at wired
    have held := inv.held (inv.forked running (by simp))
    rw [mode] at held
    change Held s.tables s.nextPid (.read pid) at held
    let n := capacity - s.pipes pid
    let c : Child E := ⟨.r, (s.children pid).pfd, .running, (s.children pid).fds,
      (s.children pid).output - n⟩
    have filled : s.pipes pid + n = capacity := by omega
    have write : (commands capacity entry).step (.childWrite pid n) s
        ((s.setPipe pid capacity).setChild pid c) := by
      change childWrite capacity s pid n = _
      simp only [childWrite, running, mode, wired]
      rw [if_pos held, if_pos ⟨by omega, by omega, Nat.le_of_eq filled⟩, filled]
    refine ⟨_, (Run.refl s).snoc write, (inv.childWrite write).deadlocked waits ?_ ?_⟩
    · rw [setChild_self]
    · rw [setChild_self]
      refine ⟨?_, Nat.le_of_eq (setPipe_self s pid capacity).symm⟩
      change 0 < (s.children pid).output - n
      omega

/-- After any other call a deadlock can be reached. -/
theorem unfitting_pclose_deadlocks {entry : Table E} (inv : Inv capacity s) {fd : Nat}
    (main : s.main = .ready) (stream : fd ∈ s.streams)
    (unfit : ¬ PcloseFits capacity (.pclose fd) s) :
    ∃ t, (commands capacity entry).Run s t ∧ Deadlocked capacity t := by
  obtain ⟨forked, opened⟩ := inv.streams fd stream
  let pid := s.fdtopid fd
  let s1 : State E := { s with main := .wait pid }
  have call : pclose s fd = some s1 := by
    rw [pclose, if_pos ⟨main, stream⟩, if_neg (Nat.ne_of_gt forked.1)]
  have inv1 : Inv capacity s1 := inv.pclose call
  have more : (s.children pid).mode = .r → capacity < s.pipes pid + (s.children pid).output := by
    intro mode
    rw [mode] at opened
    exact Nat.lt_of_not_le fun room => unfit ⟨_, opened, room⟩
  have alive : (s1.children pid).pc ≠ .exited := by
    intro exited
    have done := inv.wired pid forked
    rw [Wired, show (s.children pid).pc = .exited from exited] at done
    have full := more done.1
    rw [done.2] at full
    exact Nat.not_lt.mpr (inv.room pid) full
  obtain ⟨s2, run, running, same⟩ := prepared entry inv1 alive
  have calls : (commands capacity entry).step (.pclose fd) s s1 := call
  have waits : s2.main = .wait pid := same.main
  have inv2 : Inv capacity s2 := inv_of_run inv1 run
  have first : (commands capacity entry).Run s s2 := Run.cons calls run
  cases mode : (s.children pid).mode with
  | w =>
    obtain ⟨t, rest, dead⟩ := reader_deadlocks entry inv2 waits running
      (same.mode.trans mode)
    exact ⟨t, first.trans rest, dead⟩
  | r =>
    have left : capacity < s2.pipes pid + (s2.children pid).output := by
      rw [same.pipes, same.output]
      exact more mode
    obtain ⟨t, rest, dead⟩ := writer_deadlocks entry inv2 waits running
      (same.mode.trans mode) left
    exact ⟨t, first.trans rest, dead⟩

end

/-- The child of the stream has two bytes to write, and the pipe has room for four. -/
theorem two_bytes_fit : ∃ s : State Nat, ((commands 4 standardStreams).restrict
    (PcloseFits 4)).Reachable s ∧ s.main = .wait 1 ∧ ¬ Deadlocked 4 s := by
  have run : (follow (guarded (PcloseFits 4) (next 4)) [.popen .r 2, .run, .run, .run, .pclose 3]
      (State.initial standardStreams)).map State.main = some (.wait 1) := by decide +kernel
  obtain ⟨s, followed, waits⟩ := Option.map_eq_some_iff.mp run
  have reach : ((commands 4 standardStreams).restrict (PcloseFits 4)).Reachable s :=
    Reachable.run (Reachable.initial rfl) (follow_guarded_run followed)
  exact ⟨s, reach, waits, fitting_pcloses_no_deadlock (by decide) reach⟩

/-- A stream of mode "w" is opened and closed at once. -/
theorem closed_writer_deadlocks :
    ¬ ∀ (capacity : Nat) (entry : Table Nat), 0 < capacity → FirstOpen 2 entry →
      ∀ s, (commands capacity entry).Reachable s → ¬ Deadlocked capacity s := by
  intro claim
  have run : (follow (next 4) [.popen .w 0, .run, .run, .run, .pclose 4, .prepare 1, .prepare 1,
      .prepare 1] (State.initial standardStreams)).map (fun s => ((s.main, (s.children 1).pc,
        (s.children 1).mode), [lookup (s.children 1).fds 0, lookup s.fds 4], s.pipes 1)) =
      some ((.wait 1, .running, .w), [some (.read 1), some (.write 1)], 0) := by
    decide +kernel
  obtain ⟨s, followed, facts⟩ := Option.map_eq_some_iff.mp run
  simp only [Prod.mk.injEq, List.cons.injEq, and_true] at facts
  obtain ⟨⟨waits, running, mode⟩, ⟨stdin, held⟩, empty⟩ := facts
  have reach : (commands 4 standardStreams).Reachable s :=
    Reachable.run (Reachable.initial rfl) (follow_run followed)
  refine claim 4 standardStreams (by decide) (by decide) s reach ⟨1, 1, waits, running, ?_, ?_, ?_⟩
  · rw [mode]
    exact stdin
  · rw [Blocked, mode]
    exact empty
  · rw [mode]
    exact ⟨4, held⟩

end Popen
