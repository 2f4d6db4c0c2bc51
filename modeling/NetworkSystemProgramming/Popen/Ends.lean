import Mathlib.Tactic.Common
import NetworkSystemProgramming.Popen.System

/-!
# Who holds which end

Each child has an end of its pipe for stdin or stdout. The parent never closes the other
end, so no child of mode "w" sees the end of file and none of mode "r" gets SIGPIPE.
-/

namespace Popen

open DescriptorTables Pipes StepSystems StepSystem

variable {E : Type} {capacity : Nat} {s t : State E}

/-- The end of the pipe that the parent keeps, and the one of the child. -/
def Mode.kept (mode : Mode) (pipe : Nat) : End E :=
  match mode with
  | .r => .read pipe
  | .w => .write pipe

def Mode.given (mode : Mode) (pipe : Nat) : End E :=
  match mode with
  | .r => .write pipe
  | .w => .read pipe

/-- The end of the child on its way to `stdFd`. -/
def Wired (c : Child E) (pid : Nat) : Prop :=
  match c.pc with
  | .closeKeep =>
    lookup c.fds (c.mode.otherFd c.pfd) = some (c.mode.given pid) ∧
      c.mode.otherFd c.pfd ≠ c.mode.keepFd c.pfd ∧ c.mode.otherFd c.pfd ≠ c.mode.stdFd
  | .dup =>
    lookup c.fds (c.mode.otherFd c.pfd) = some (c.mode.given pid) ∧
      c.mode.otherFd c.pfd ≠ c.mode.stdFd
  | .closeOther =>
    lookup c.fds c.mode.stdFd = some (c.mode.given pid) ∧ c.mode.otherFd c.pfd ≠ c.mode.stdFd
  | .running => lookup c.fds c.mode.stdFd = some (c.mode.given pid)
  | .exited => c.mode = .r ∧ c.output = 0

/-- A child that was forked. -/
def State.Forked (s : State E) (pid : Nat) : Prop := 0 < pid ∧ pid < s.nextPid

/-- What the parent has in hand in `my_popen`. -/
def MainWired (s : State E) : Prop :=
  match s.main with
  | .ready => s.nextPipe = s.nextPid
  | .fork mode pfd _ =>
    s.nextPipe = s.nextPid + 1 ∧ lookup s.fds (mode.keepFd pfd) = some (mode.kept s.nextPid) ∧
      lookup s.fds (mode.otherFd pfd) = some (mode.given s.nextPid)
  | .closeOther mode pfd pid =>
    s.nextPipe = s.nextPid ∧ s.Forked pid ∧ (s.children pid).mode = mode ∧
      lookup s.fds (mode.keepFd pfd) = some (mode.kept pid) ∧
      lookup s.fds (mode.otherFd pfd) = some (mode.given pid)
  | .record mode pfd pid =>
    s.nextPipe = s.nextPid ∧ s.Forked pid ∧ (s.children pid).mode = mode ∧
      lookup s.fds (mode.keepFd pfd) = some (mode.kept pid)
  | .wait pid => s.nextPipe = s.nextPid ∧ s.Forked pid

structure Inv (capacity : Nat) (s : State E) : Prop where
  main : MainWired s
  standard : ∀ mode : Mode, ∃ e, lookup s.fds mode.stdFd = some (.entry e)
  kept : ∀ pid, s.Forked pid → Holds s.fds ((s.children pid).mode.kept pid)
  streams : ∀ fd ∈ s.streams, s.Forked (s.fdtopid fd) ∧
    lookup s.fds fd = some ((s.children (s.fdtopid fd)).mode.kept (s.fdtopid fd))
  wired : ∀ pid, s.Forked pid → Wired (s.children pid) pid
  others : ∀ pid, ¬ s.Forked pid → (s.children pid).pc = .exited
  room : ∀ pipe, s.pipes pipe ≤ capacity
  positive : 0 < s.nextPid

theorem kept_ne_given {m m' : Mode} {p q : Nat} (same : p = q → m = m') :
    (m.kept p : End E) ≠ m'.given q := by
  cases m <;> cases m' <;> simp only [Mode.kept, Mode.given, ne_eq, reduceCtorEq, not_false_eq_true,
    End.read.injEq, End.write.injEq]
  all_goals
    intro h
    cases same h

theorem given_inj {m : Mode} {p q : Nat} (same : (m.given p : End E) = m.given q) : p = q := by
  cases m <;> cases same <;> rfl

section Steps
variable {pid : Nat} {c : Child E}

theorem mode_setChild (mode : c.mode = (s.children pid).mode) (other : Nat) :
    ((s.setChild pid c).children other).mode = (s.children other).mode := by
  by_cases same : other = pid
  · rw [same, setChild_self, mode]
  · rw [setChild_other _ _ same]

/-- A step of a child. -/
theorem Inv.setChild (inv : Inv capacity s) (forked : s.Forked pid)
    (mode : c.mode = (s.children pid).mode) (wired : Wired c pid) :
    Inv capacity (s.setChild pid c) := by
  have modes := mode_setChild mode
  constructor
  · have main := inv.main
    unfold MainWired at main ⊢
    simp only [modes]
    exact main
  · exact inv.standard
  · intro other hother
    rw [modes]
    exact inv.kept other hother
  · intro fd hfd
    change s.Forked (s.fdtopid fd) ∧ _
    rw [modes]
    exact inv.streams fd hfd
  · intro other hother
    by_cases same : other = pid
    · rw [same, setChild_self]
      exact wired
    · rw [setChild_other _ _ same]
      exact inv.wired other hother
  · intro other hother
    have ne : other ≠ pid := fun same => hother (same ▸ forked)
    rw [setChild_other _ _ ne]
    exact inv.others other hother
  · exact inv.room
  · exact inv.positive

theorem Inv.setPipe (inv : Inv capacity s) (pipe : Nat) {n : Nat} (fits : n ≤ capacity) :
    Inv capacity (s.setPipe pipe n) := by
  refine ⟨inv.main, inv.standard, inv.kept, inv.streams, inv.wired, inv.others, ?_, inv.positive⟩
  intro other
  by_cases same : other = pipe
  · rw [same, setPipe_self]
    exact fits
  · rw [setPipe_other _ _ same]
    exact inv.room other

theorem Inv.popen (inv : Inv capacity s) {mode : Mode} {output : Nat}
    (h : Popen.popen s mode output = some t) : Inv capacity t := by
  have main := inv.main
  unfold MainWired at main
  simp only [Popen.popen] at h
  split at h
  · rename_i ready
    rw [ready] at main
    obtain ⟨new1, new2, old⟩ := allocPair_open s.fds (End.read s.nextPipe) (.write s.nextPipe)
    cases h
    constructor
    · change s.nextPipe + 1 = s.nextPid + 1 ∧ _
      rw [main] at new1 new2 ⊢
      refine ⟨rfl, ?_, ?_⟩ <;> cases mode
      · exact new1
      · exact new2
      · exact new2
      · exact new1
    · intro mode'
      obtain ⟨e, opened⟩ := inv.standard mode'
      exact ⟨e, (old _ _ opened).1⟩
    · intro pid forked
      obtain ⟨fd, opened⟩ := inv.kept pid forked
      exact ⟨fd, (old _ _ opened).1⟩
    · intro fd hfd
      exact ⟨(inv.streams fd hfd).1, (old _ _ (inv.streams fd hfd).2).1⟩
    · exact inv.wired
    · exact inv.others
    · exact (inv.setPipe s.nextPipe (Nat.zero_le capacity)).room
    · exact inv.positive
  · cases h

/-- `fork`: the child starts with the descriptors of the parent. -/
theorem Inv.fork (inv : Inv capacity s) {mode : Mode} {pfd : Nat × Nat} {output : Nat}
    (main : s.main = .fork mode pfd output) :
    Inv capacity ({ s with main := .closeOther mode pfd s.nextPid, nextPid := s.nextPid + 1
      }.setChild s.nextPid ⟨mode, pfd, .closeKeep, s.fds, output⟩) := by
  have own := inv.main
  rw [MainWired, main] at own
  obtain ⟨count, kept, given⟩ := own
  have older {pid : Nat} (forked : pid < s.nextPid + 1) (ne : pid ≠ s.nextPid) :
      pid < s.nextPid := by omega
  constructor
  · change _ ∧ (_ ∧ _) ∧ _
    rw [setChild_self]
    exact ⟨count, ⟨inv.positive, Nat.lt_succ_self _⟩, rfl, kept, given⟩
  · exact inv.standard
  · intro pid forked
    by_cases new : pid = s.nextPid
    · rw [new, setChild_self]
      exact ⟨_, kept⟩
    · rw [setChild_other _ _ new]
      exact inv.kept pid ⟨forked.1, older forked.2 new⟩
  · intro fd hfd
    obtain ⟨forked, opened⟩ := inv.streams fd hfd
    have ne : s.fdtopid fd ≠ s.nextPid := Nat.ne_of_lt forked.2
    refine ⟨⟨forked.1, Nat.lt_succ_of_lt forked.2⟩, ?_⟩
    change lookup s.fds fd =
      some (((State.setChild _ _ _).children (s.fdtopid fd)).mode.kept (s.fdtopid fd))
    rw [setChild_other _ _ ne]
    exact opened
  · intro pid forked
    by_cases new : pid = s.nextPid
    · obtain ⟨e, std⟩ := inv.standard mode
      rw [new, setChild_self]
      refine ⟨given, fd_ne given kept ?_, fd_ne given std ?_⟩
      · exact (kept_ne_given fun _ => rfl).symm
      · cases mode <;> simp [Mode.given]
    · rw [setChild_other _ _ new]
      exact inv.wired pid ⟨forked.1, older forked.2 new⟩
  · intro pid unforked
    have ne : pid ≠ s.nextPid := by
      rintro rfl
      exact unforked ⟨inv.positive, Nat.lt_succ_self _⟩
    rw [setChild_other _ _ ne]
    exact inv.others pid fun forked => unforked ⟨forked.1, Nat.lt_succ_of_lt forked.2⟩
  · exact inv.room
  · exact Nat.succ_pos _

/-- The parent closes the end that it gave to the child. -/
theorem Inv.closeOther (inv : Inv capacity s) {mode : Mode} {pfd : Nat × Nat}
    (main : s.main = .closeOther mode pfd pid) :
    Inv capacity { s with
      main := .record mode pfd pid
      fds := close s.fds (mode.otherFd pfd) } := by
  have own := inv.main
  rw [MainWired, main] at own
  obtain ⟨count, forked, same, kept, given⟩ := own
  have stays {m : Mode} {p fd : Nat} (of : p = pid → m = mode)
      (opened : lookup s.fds fd = some (m.kept p)) :
      lookup (close s.fds (mode.otherFd pfd)) fd = some (m.kept p) := by
    rw [lookup_close_other (fd_ne opened given (kept_ne_given of)), opened]
  constructor
  · exact ⟨count, forked, same, stays (fun _ => rfl) kept⟩
  · intro m
    obtain ⟨e, std⟩ := inv.standard m
    refine ⟨e, ?_⟩
    rw [← std]
    refine lookup_close_other (fd_ne std given ?_)
    cases mode <;> simp [Mode.given]
  · intro other hother
    obtain ⟨fd, opened⟩ := inv.kept other hother
    exact ⟨fd, stays (by rintro rfl; exact same) opened⟩
  · intro fd hfd
    obtain ⟨hforked, opened⟩ := inv.streams fd hfd
    exact ⟨hforked, stays (fun own => own ▸ same) opened⟩
  · exact inv.wired
  · exact inv.others
  · exact inv.room
  · exact inv.positive

theorem Inv.record (inv : Inv capacity s) {mode : Mode} {pfd : Nat × Nat}
    (main : s.main = .record mode pfd pid) :
    Inv capacity { s with
      main := .ready
      fdtopid := Function.update s.fdtopid (mode.keepFd pfd) pid
      streams := mode.keepFd pfd :: s.streams } := by
  have own := inv.main
  rw [MainWired, main] at own
  obtain ⟨count, forked, same, kept⟩ := own
  refine ⟨count, inv.standard, inv.kept, ?_, inv.wired, inv.others, inv.room, inv.positive⟩
  intro fd hfd
  by_cases new : fd = mode.keepFd pfd
  · rw [new]
    simp only [Function.update_self, same]
    exact ⟨forked, kept⟩
  · simp only [Function.update_of_ne new]
    exact inv.streams fd ((List.mem_cons.mp hfd).resolve_left new)

theorem Inv.statement (inv : Inv capacity s) (h : Popen.statement s = some t) :
    Inv capacity t := by
  simp only [Popen.statement] at h
  split at h
  · cases h
  · rename_i main
    cases h
    exact inv.fork main
  · rename_i main
    cases h
    exact inv.closeOther main
  · rename_i main
    cases h
    exact inv.record main
  · rename_i main
    have own := inv.main
    rw [MainWired, main] at own
    split at h
    · cases h
      exact ⟨own.1, inv.standard, inv.kept, inv.streams, inv.wired, inv.others, inv.room,
        inv.positive⟩
    · cases h

/-- `my_pclose` waits for the child of the stream. -/
theorem Inv.pclose_cases (inv : Inv capacity s) {fd : Nat} (h : pclose s fd = some t) :
    s.main = .ready ∧ fd ∈ s.streams ∧ t = { s with main := .wait (s.fdtopid fd) } := by
  rw [pclose] at h
  split at h
  · rename_i call
    have forked := (inv.streams fd call.2).1
    rw [if_neg (Nat.ne_of_gt forked.1)] at h
    cases h
    exact ⟨call.1, call.2, rfl⟩
  · cases h

theorem Inv.pclose (inv : Inv capacity s) {fd : Nat} (h : Popen.pclose s fd = some t) :
    Inv capacity t := by
  obtain ⟨main, stream, rfl⟩ := inv.pclose_cases h
  have own := inv.main
  rw [MainWired, main] at own
  exact ⟨⟨own, (inv.streams fd stream).1⟩, inv.standard, inv.kept, inv.streams, inv.wired,
    inv.others, inv.room, inv.positive⟩

theorem Inv.forked (inv : Inv capacity s) {pc : ChildPc} (at_pc : (s.children pid).pc = pc)
    (active : pc ≠ .exited) : s.Forked pid := by
  by_contra unforked
  exact active (at_pc ▸ inv.others pid unforked)

theorem Inv.wired_at (inv : Inv capacity s) {pc : ChildPc} (at_pc : (s.children pid).pc = pc)
    (active : pc ≠ .exited) : Wired (s.children pid) pid :=
  inv.wired pid (inv.forked at_pc active)

theorem Inv.exit (inv : Inv capacity s) (forked : s.Forked pid)
    (done : (s.children pid).mode = .r ∧ (s.children pid).output = 0) :
    Inv capacity (s.exit pid) := inv.setChild forked rfl done

/-- The pipe at the end that a running child reads or writes is its own. -/
theorem Inv.own_pipe (inv : Inv capacity s) (running : (s.children pid).pc = .running)
    {pipe : Nat} (opened : lookup (s.children pid).fds (s.children pid).mode.stdFd =
      some ((s.children pid).mode.given pipe)) : pipe = pid := by
  have wired := inv.wired_at running (by simp)
  rw [Wired, running] at wired
  exact given_inj (Option.some.inj (opened.symm.trans wired))

/-- The parent keeps the other end open. -/
theorem Inv.held (inv : Inv capacity s) (forked : s.Forked pid) :
    Held s.tables s.nextPid ((s.children pid).mode.kept pid) :=
  ⟨0, inv.positive, inv.kept pid forked⟩

theorem Inv.prepare (inv : Inv capacity s) (h : Popen.prepare s pid = some t) :
    Inv capacity t := by
  simp only [Popen.prepare] at h
  split at h
  · rename_i at_pc
    have wired := inv.wired_at at_pc (by simp)
    rw [Wired, at_pc] at wired
    obtain ⟨given, ne, std⟩ := wired
    cases h
    refine inv.setChild (inv.forked at_pc (by simp)) rfl ⟨?_, std⟩
    exact (lookup_close_other ne).trans given
  · rename_i at_pc
    have wired := inv.wired_at at_pc (by simp)
    rw [Wired, at_pc] at wired
    obtain ⟨given, std⟩ := wired
    rw [dup2_of_open given] at h
    cases h
    refine inv.setChild (inv.forked at_pc (by simp)) rfl ⟨?_, std⟩
    simp only [lookup_assign, Function.update_self]
  · rename_i at_pc
    have wired := inv.wired_at at_pc (by simp)
    rw [Wired, at_pc] at wired
    obtain ⟨given, std⟩ := wired
    cases h
    refine inv.setChild (inv.forked at_pc (by simp)) rfl ?_
    exact (lookup_close_other std.symm).trans given
  · cases h
  · cases h

theorem Inv.parentWrite (inv : Inv capacity s) {fd n : Nat}
    (h : Popen.parentWrite capacity s fd n = some t) : Inv capacity t := by
  simp only [Popen.parentWrite] at h
  split at h
  · split at h
    · rename_i fits
      cases h
      exact inv.setPipe _ fits.2.2
    · cases h
  · cases h

theorem Inv.parentRead (inv : Inv capacity s) {fd n : Nat}
    (h : Popen.parentRead s fd n = some t) : Inv capacity t := by
  simp only [Popen.parentRead] at h
  split at h
  · split at h
    · cases h
      exact inv.setPipe _ (Nat.le_trans (Nat.sub_le _ _) (inv.room _))
    · cases h
  · cases h

theorem Inv.childRead (inv : Inv capacity s) {n : Nat}
    (h : Popen.childRead s pid n = some t) : Inv capacity t := by
  simp only [Popen.childRead] at h
  split at h
  · split at h
    · cases h
      exact inv.setPipe _ (Nat.le_trans (Nat.sub_le _ _) (inv.room _))
    · cases h
  · cases h

theorem Inv.childExit (inv : Inv capacity s) (h : Popen.childExit s pid = some t) :
    Inv capacity t := by
  simp only [Popen.childExit] at h
  split at h
  · rename_i done
    cases h
    exact inv.exit (inv.forked done.1 (by simp)) done.2
  · cases h

section
variable [DecidableEq E]

/-- The end of file never comes. -/
theorem Inv.no_eof (inv : Inv capacity s) : childEof s pid = none := by
  simp only [childEof]
  split
  · rename_i running mode opened
    have own := inv.own_pipe running (by rw [mode]; exact opened)
    have held := inv.held (inv.forked running (by simp))
    rw [mode] at held
    rw [own, if_neg fun eof => eof.2 held]
  · rfl

theorem childWrite_cases (inv : Inv capacity s) {n : Nat}
    (h : childWrite capacity s pid n = some t) :
    (s.children pid).pc = .running ∧ (s.children pid).mode = .r ∧ 0 < n ∧
      n ≤ (s.children pid).output ∧ s.pipes pid + n ≤ capacity ∧
      t = (s.setPipe pid (s.pipes pid + n)).setChild pid
        { s.children pid with output := (s.children pid).output - n } := by
  simp only [childWrite] at h
  split at h
  · rename_i running mode opened
    have own := inv.own_pipe running (by rw [mode]; exact opened)
    have held := inv.held (inv.forked running (by simp))
    rw [mode] at held
    change Held s.tables s.nextPid (.read pid) at held
    rw [own, if_pos held] at h
    split at h
    · rename_i fits
      cases h
      exact ⟨running, mode, fits.1, fits.2.1, fits.2.2, rfl⟩
    · cases h
  · cases h

theorem Inv.childWrite (inv : Inv capacity s) {n : Nat}
    (h : Popen.childWrite capacity s pid n = some t) : Inv capacity t := by
  obtain ⟨running, mode, -, -, fits, rfl⟩ := childWrite_cases inv h
  have wired := inv.wired_at running (by simp)
  refine (inv.setPipe pid fits).setChild (inv.forked running (by simp)) rfl ?_
  simp only [Wired, running] at wired ⊢
  exact wired

theorem Inv.next (inv : Inv capacity s) {act : Act} (h : Popen.next capacity act s = some t) :
    Inv capacity t := by
  cases act with
  | popen mode output => exact inv.popen h
  | run => exact inv.statement h
  | pclose fd => exact inv.pclose h
  | write fd n => exact inv.parentWrite h
  | read fd n => exact inv.parentRead h
  | prepare pid => exact inv.prepare h
  | childRead pid n => exact inv.childRead h
  | childEof pid =>
    rw [Popen.next, inv.no_eof] at h
    cases h
  | childWrite pid n => exact inv.childWrite h
  | childExit pid => exact inv.childExit h

end

theorem Inv.initial {entry : Table E} (standard : FirstOpen 2 entry) :
    Inv capacity (State.initial entry) := by
  have unforked (pid : Nat) : ¬ (State.initial entry).Forked pid := by
    rintro ⟨positive, below⟩
    exact Nat.lt_irrefl 0 (Nat.lt_of_lt_of_le positive (Nat.le_of_lt_succ below))
  constructor
  · rfl
  · intro mode
    have low : mode.stdFd < 2 := by cases mode <;> decide
    obtain ⟨e, he⟩ := Option.ne_none_iff_exists'.mp (standard mode.stdFd low)
    exact ⟨e, by rw [State.initial, lookup_map, he]; rfl⟩
  · exact fun pid forked => absurd forked (unforked pid)
  · simp [State.initial]
  · exact fun pid forked => absurd forked (unforked pid)
  · exact fun _ _ => rfl
  · exact fun _ => Nat.zero_le capacity
  · exact Nat.one_pos

end Steps

theorem inv_of_run [DecidableEq E] {entry : Table E} (inv : Inv capacity s)
    (run : (commands capacity entry).Run s t) : Inv capacity t := by
  induction run with
  | refl => exact inv
  | tail _ step ih =>
    obtain ⟨act, h⟩ := step
    exact ih.next h

theorem inv_of_reachable [DecidableEq E] {entry : Table E} (standard : FirstOpen 2 entry)
    (reach : (commands capacity entry).Reachable s) : Inv capacity s := by
  obtain ⟨r, rfl, run⟩ := reach
  exact inv_of_run (Inv.initial standard) run

end Popen
