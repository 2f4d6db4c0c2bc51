import NetworkSystemProgramming.ChildProcesses
import NetworkSystemProgramming.Shell.Background

/-!
# Which children the shells wait for

The parent in `run_command`, command after command, in both versions. The children are
numbered as they are forked, and end at any time. `stat` is not initialised: what is shown
after a `waitpid` that has stored nothing comes from whatever was there.
-/

namespace Shell

open StepSystems StepSystem ChildProcesses

inductive RunPc where
  | prompt
  | waiting (pid : Nat)
  /-- Before the `waitpid` with WNOHANG. -/
  | polling (pid : Nat)
  | failed
  deriving DecidableEq, Repr

structure Runner where
  pc : RunPc
  commands : List (List Cell)
  family : Family Nat ExitStatus
  /-- The children that have ended so far. -/
  ended : List (Nat × ExitStatus)
  /-- The commands whose `stat` was looked at, with what `waitpid` has stored there. -/
  log : List (Nat × Option ExitStatus)

inductive RunAct where
  | command (argv : List Cell)
  | ends (pid : Nat) (status : ExitStatus)
  | waitpid
  deriving DecidableEq, Repr

def Runner.logged (s : Runner) (pid : Nat) (stored : Option ExitStatus) : Runner :=
  { s with pc := .prompt, log := s.log ++ [(pid, stored)] }

/-- `waitpid` of the parent. Only SP_HW2 looks at its result. -/
def Version.waitpid (v : Version) (s : Runner) (pid : Nat) (nohang : Bool) : Option Runner :=
  match s.family.waitFor pid with
  | (.child _ status, family) => some ({ s with family }.logged pid (some status))
  | (.nobody, _) => if nohang then some (s.logged pid none) else none
  | (.echild, _) =>
    match v with
    | .hw2 => some { s with pc := .failed }
    | .part2 => some (s.logged pid none)

def runnerNext (v : Version) : RunAct → Runner → Option Runner
  | .command argv, s =>
    if s.pc = .prompt then
      let pid := s.commands.length
      some { s with
        pc := match v.parentWaits argv with
          | .blocking => .waiting pid
          | .nohang => .polling pid
          | .skipped => .prompt
        commands := s.commands ++ [argv]
        family := s.family.fork pid }
    else none
  | .ends pid status, s =>
    (s.family.ends pid status).map fun family =>
      { s with family, ended := s.ended ++ [(pid, status)] }
  | .waitpid, s =>
    match s.pc with
    | .waiting pid => v.waitpid s pid false
    | .polling pid => v.waitpid s pid true
    | _ => none

def Runner.initial : Runner := ⟨.prompt, [], .empty, [], []⟩

def runner (v : Version) : StepSystem Runner RunAct := ofNext (· = Runner.initial) (runnerNext v)

/-- What the parent shows. -/
inductive Report where
  | exited (pid code : Nat)
  | signaled (pid sig : Nat)
  /-- From a `stat` that nothing was stored in. -/
  | stale (pid : Nat)
  deriving DecidableEq, Repr

/-- In SP_HW4/part2 the text behind the number comes from `strerror` or `strsignal`, which are
not declared there. What such a call may do to the shell is left out here; a shell that does
not survive it comes to no further prompt. -/
def Version.report (v : Version) : Nat × Option ExitStatus → List Report
  | (pid, none) => [.stale pid]
  | (pid, some (.exited code)) =>
    match v with
    | .hw2 => [.exited pid code]
    | .part2 => if code ≠ 0 then [.exited pid code] else []
  | (pid, some (.signaled sig)) =>
    match v with
    | .hw2 => [.signaled pid sig]
    | .part2 => if sig ≠ 0 then [.signaled pid sig] else []

/-! ## What is known of the commands -/

def Runner.kind (v : Version) (s : Runner) (pid : Nat) : Option Wait :=
  s.commands[pid]?.map v.parentWaits

def Runner.Runs (s : Runner) (pid : Nat) : Prop :=
  pid < s.commands.length ∧ ∀ status, (pid, status) ∉ s.ended

/-- Ended, and not collected yet. -/
def Runner.Left (s : Runner) (pid : Nat) (status : ExitStatus) : Prop :=
  (pid, status) ∈ s.ended ∧ ∀ stored, (pid, some stored) ∉ s.log

/-- The commands that the parent is done with. -/
def Runner.done (s : Runner) : Nat :=
  match s.pc with
  | .waiting pid | .polling pid => pid
  | _ => s.commands.length

structure Runner.Sound (v : Version) (s : Runner) : Prop where
  tracks : s.family.Tracks s.Runs s.Left
  uncollected : ∀ pid status, s.Left pid status → (pid, status) ∈ s.family.zombies
  bounded : ∀ pid status, (pid, status) ∈ s.ended → pid < s.commands.length
  single : ∀ pid status status', (pid, status) ∈ s.ended → (pid, status') ∈ s.ended →
    status = status'
  collected : ∀ pid status, (pid, some status) ∈ s.log → (pid, status) ∈ s.ended
  order : s.log.map Prod.fst = (List.range s.done).filter fun p => s.kind v p ≠ some .skipped
  stale : ∀ pid, (pid, none) ∈ s.log → s.kind v pid = some .nohang
  place : match s.pc with
    | .waiting pid => pid + 1 = s.commands.length ∧ s.kind v pid = some .blocking
    | .polling pid => pid + 1 = s.commands.length ∧ s.kind v pid = some .nohang
    | .prompt => True
    | .failed => False

theorem Runner.Sound.start (v : Version) : Runner.initial.Sound v where
  tracks := Family.Tracks.empty (fun _ runs => absurd runs.1 (Nat.not_lt_zero _))
    fun _ _ left => absurd left.1 List.not_mem_nil
  uncollected _ _ left := absurd left.1 List.not_mem_nil
  bounded _ _ member := absurd member List.not_mem_nil
  single _ _ _ member := absurd member List.not_mem_nil
  collected _ _ member := absurd member List.not_mem_nil
  order := rfl
  stale _ member := absurd member List.not_mem_nil
  place := trivial

section
variable {v : Version} {s t : Runner}

theorem Runner.kind_append (argv : List Cell) {pid : Nat} (less : pid < s.commands.length)
    (commands : t.commands = s.commands ++ [argv]) : t.kind v pid = s.kind v pid := by
  rw [Runner.kind, commands, List.getElem?_append_left less, Runner.kind]

theorem Runner.kind_last (argv : List Cell) (commands : t.commands = s.commands ++ [argv]) :
    t.kind v s.commands.length = some (v.parentWaits argv) := by
  rw [Runner.kind, commands, List.getElem?_concat_length, Option.map_some]

/-- Below the number of commands an index has been logged unless the parent skipped it. -/
theorem Runner.Sound.mem_log (sound : s.Sound v) {pid : Nat} :
    (∃ stored, (pid, stored) ∈ s.log) ↔ pid < s.done ∧ s.kind v pid ≠ some .skipped := by
  have order := sound.order
  have member : pid ∈ s.log.map Prod.fst ↔ pid < s.done ∧ s.kind v pid ≠ some .skipped := by
    rw [order]
    simp
  rw [← member, List.mem_map]
  constructor
  · rintro ⟨stored, among⟩
    exact ⟨_, among, rfl⟩
  · rintro ⟨⟨_, stored⟩, among, rfl⟩
    exact ⟨stored, among⟩

/-- What a `stat` holds is looked at once. -/
theorem Runner.Sound.logged_once (sound : s.Sound v) {pid : Nat} {stored : ExitStatus}
    (first : (pid, none) ∈ s.log) : (pid, some stored) ∉ s.log := by
  intro second
  have distinct : (s.log.map Prod.fst).Nodup := by
    rw [sound.order]
    exact List.nodup_range.filter _
  have same := List.inj_on_of_nodup_map distinct first second rfl
  cases same

theorem Runner.Sound.command (sound : s.Sound v) (place : s.pc = .prompt) (argv : List Cell)
    (t_eq : runnerNext v (.command argv) s = some t) : t.Sound v := by
  obtain ⟨-, same⟩ := Option.ite_none_right_eq_some.mp t_eq
  have commands : t.commands = s.commands ++ [argv] := by rw [← Option.some.inj same]
  have family : t.family = s.family.fork s.commands.length := by rw [← Option.some.inj same]
  have ended : t.ended = s.ended := by rw [← Option.some.inj same]
  have log : t.log = s.log := by rw [← Option.some.inj same]
  have pc : t.pc = match v.parentWaits argv with
      | .blocking => .waiting s.commands.length
      | .nohang => .polling s.commands.length
      | .skipped => .prompt := by rw [← Option.some.inj same]
  have before : s.done = s.commands.length := by rw [Runner.done, place]
  have grown : t.commands.length = s.commands.length + 1 := by rw [commands, List.length_append]; rfl
  have last := Runner.kind_last (v := v) argv commands
  have older : (List.range s.commands.length).filter (fun p => t.kind v p ≠ some .skipped) =
      s.log.map Prod.fst := by
    rw [sound.order, before]
    apply List.filter_congr
    intro p member
    rw [Runner.kind_append argv (List.mem_range.mp member) commands]
  constructor
  · rw [family]
    have fresh : ¬ s.Runs s.commands.length := fun runs => absurd runs.1 (Nat.lt_irrefl _)
    have never : ∀ status, ¬ s.Left s.commands.length status :=
      fun status left => absurd (sound.bounded _ _ left.1) (Nat.lt_irrefl _)
    refine (sound.tracks.fork fresh never).congr ?_ ?_
    · intro p
      simp only [Runner.Runs, grown, ended]
      constructor
      · rintro ⟨less, alive⟩
        rcases Nat.lt_succ_iff_lt_or_eq.mp less with less | rfl
        · exact Or.inl ⟨less, alive⟩
        · exact Or.inr rfl
      · rintro (⟨less, alive⟩ | rfl)
        · exact ⟨Nat.lt_succ_of_lt less, alive⟩
        · exact ⟨Nat.lt_succ_self _, fun status member =>
            absurd (sound.bounded _ _ member) (Nat.lt_irrefl _)⟩
    · intro p status
      simp only [Runner.Left, ended, log]
  · intro p status left
    rw [family]
    simp only [Runner.Left, ended, log] at left
    exact sound.uncollected p status left
  · intro p status member
    rw [ended] at member
    have less := sound.bounded p status member
    omega
  · rw [ended]
    exact sound.single
  · rw [ended, log]
    exact sound.collected
  · rw [log, ← older, Runner.done, pc]
    cases kind : v.parentWaits argv with
    | blocking | nohang => rfl
    | skipped =>
      rw [kind] at last
      rw [grown, List.range_succ, List.filter_append]
      simp [last]
  · intro p member
    rw [log] at member
    have less := (sound.mem_log.mp ⟨_, member⟩).1
    rw [before] at less
    rw [Runner.kind_append argv less commands]
    exact sound.stale p member
  · rw [pc]
    cases kind : v.parentWaits argv with
    | blocking | nohang =>
      rw [kind] at last
      exact ⟨grown.symm, last⟩
    | skipped => trivial

theorem Runner.Sound.ends (sound : s.Sound v) {pid : Nat} {status : ExitStatus}
    (t_eq : runnerNext v (.ends pid status) s = some t) : t.Sound v := by
  obtain ⟨family, ended, rfl⟩ := Option.map_eq_some_iff.mp t_eq
  obtain ⟨member, -⟩ := ends_cases ended
  have alive := (sound.tracks.running pid).mp member
  obtain ⟨g, ended', zombies, tracks⟩ := sound.tracks.ends alive status
  obtain rfl : g = family := Option.some.inj (ended'.symm.trans ended)
  have unlogged : ∀ stored, (pid, some stored) ∉ s.log :=
    fun stored among => alive.2 stored (sound.collected pid stored among)
  constructor
  · refine tracks.congr ?_ ?_
    · intro p
      simp only [Runner.Runs, List.mem_append, List.mem_singleton, Prod.mk.injEq, not_or]
      constructor
      · rintro ⟨less, runs⟩
        exact ⟨⟨less, fun st => (runs st).1⟩, fun same => (runs status).2 ⟨same, rfl⟩⟩
      · rintro ⟨⟨less, runs⟩, other⟩
        exact ⟨less, fun st => ⟨runs st, fun same => other same.1⟩⟩
    · intro p st
      simp only [Runner.Left, List.mem_append, List.mem_singleton, Prod.mk.injEq]
      constructor
      · rintro ⟨before | new, open_⟩
        · exact Or.inl ⟨before, open_⟩
        · exact Or.inr new
      · rintro (⟨before, open_⟩ | ⟨rfl, rfl⟩)
        · exact ⟨Or.inl before, open_⟩
        · exact ⟨Or.inr ⟨rfl, rfl⟩, unlogged⟩
  · rintro p st ⟨among, open_⟩
    change (p, st) ∈ g.zombies
    rw [zombies, List.mem_append]
    rcases List.mem_append.mp among with before | new
    · exact Or.inl (sound.uncollected p st ⟨before, open_⟩)
    · exact Or.inr new
  · intro p st among
    rcases List.mem_append.mp among with before | new
    · exact sound.bounded p st before
    · obtain ⟨rfl, -⟩ := Prod.mk.inj (List.mem_singleton.mp new)
      exact alive.1
  · intro p st st' first second
    rcases List.mem_append.mp first with before | new
    · rcases List.mem_append.mp second with before' | new'
      · exact sound.single p st st' before before'
      · obtain ⟨rfl, -⟩ := Prod.mk.inj (List.mem_singleton.mp new')
        exact absurd before (alive.2 st)
    · obtain ⟨rfl, rfl⟩ := Prod.mk.inj (List.mem_singleton.mp new)
      rcases List.mem_append.mp second with before' | new'
      · exact absurd before' (alive.2 st')
      · exact (Prod.mk.inj (List.mem_singleton.mp new')).2.symm
  · intro p st among
    exact List.mem_append_left _ (sound.collected p st among)
  · exact sound.order
  · exact sound.stale
  · exact sound.place

/-- `waitpid` has returned for the last command. -/
theorem Runner.Sound.logged (sound : s.Sound v) {pid : Nat} {stored : Option ExitStatus}
    {family : Family Nat ExitStatus} (at_pid : s.done = pid)
    (last : pid + 1 = s.commands.length) (kind : s.kind v pid ≠ some .skipped)
    (collected : ∀ status, stored = some status → (pid, status) ∈ s.ended)
    (stale : stored = none → s.kind v pid = some .nohang)
    (tracks : family.Tracks s.Runs fun p st => s.Left p st ∧ (stored ≠ none → p ≠ pid))
    (uncollected : ∀ p st, s.Left p st → (stored ≠ none → p ≠ pid) → (p, st) ∈ family.zombies) :
    Runner.Sound v ({ s with family }.logged pid stored) := by
  have left : ∀ p st, Runner.Left ({ s with family }.logged pid stored) p st ↔
      s.Left p st ∧ (stored ≠ none → p ≠ pid) := by
    intro p st
    simp only [Runner.Left, Runner.logged, List.mem_append, List.mem_singleton, Prod.mk.injEq,
      not_or]
    constructor
    · rintro ⟨ended, open_⟩
      refine ⟨⟨ended, fun st' => (open_ st').1⟩, ?_⟩
      rintro some_ rfl
      obtain ⟨st', rfl⟩ := Option.ne_none_iff_exists'.mp some_
      exact (open_ st').2 ⟨rfl, rfl⟩
    · rintro ⟨⟨ended, open_⟩, other⟩
      refine ⟨ended, fun st' => ⟨open_ st', ?_⟩⟩
      rintro ⟨rfl, rfl⟩
      exact other (by simp) rfl
  constructor
  · exact tracks.congr (fun p => Iff.rfl) left
  · intro p st open_
    obtain ⟨before, other⟩ := (left p st).mp open_
    exact uncollected p st before other
  · exact sound.bounded
  · exact sound.single
  · intro p st among
    rcases List.mem_append.mp among with before | new
    · exact sound.collected p st before
    · obtain ⟨rfl, same⟩ := Prod.mk.inj (List.mem_singleton.mp new)
      exact collected st same.symm
  · change (s.log ++ [(pid, stored)]).map Prod.fst = (List.range s.commands.length).filter _
    rw [List.map_append, sound.order, at_pid, ← last, List.range_succ, List.filter_append]
    simp only [List.map_cons, List.map_nil]
    congr 1
    refine (List.filter_eq_self.mpr ?_).symm
    intro p member
    obtain rfl := List.mem_singleton.mp member
    have kept : Runner.kind v ({ s with family }.logged p stored) p ≠ some .skipped := kind
    simpa using kept
  · intro p among
    rcases List.mem_append.mp among with before | new
    · exact sound.stale p before
    · obtain ⟨rfl, same⟩ := Prod.mk.inj (List.mem_singleton.mp new)
      exact stale same.symm
  · trivial

theorem Runner.Sound.waitpid (sound : s.Sound v) {pid : Nat} (nohang : Bool)
    (at_pid : s.done = pid) (last : pid + 1 = s.commands.length)
    (kind : s.kind v pid = some (if nohang then .nohang else .blocking))
    (t_eq : v.waitpid s pid nohang = some t) : t.Sound v := by
  have looked : s.kind v pid ≠ some .skipped := by
    rw [kind]
    cases nohang <;> simp
  have unlogged : ∀ stored, (pid, stored) ∉ s.log := by
    intro stored among
    have less := (sound.mem_log.mp ⟨stored, among⟩).1
    rw [at_pid] at less
    exact Nat.lt_irrefl _ less
  rcases sound.tracks.waitFor pid with
    ⟨status, family, waited, left, -, zombies, tracks⟩ | ⟨absent, ⟨-, waited⟩ | ⟨gone, waited⟩⟩
  · simp only [Version.waitpid, waited, Option.some.injEq] at t_eq
    subst t_eq
    refine sound.logged at_pid last looked ?_ (by simp) ?_ ?_
    · rintro st same
      cases same
      exact left.1
    · exact tracks.congr (fun p => Iff.rfl) fun p st => by simp
    · intro p st open_ other
      exact (zombies (p, st)).mpr ⟨sound.uncollected p st open_, other (by simp)⟩
  · simp only [Version.waitpid, waited] at t_eq
    cases nohang with
    | false => cases t_eq
    | true =>
      cases t_eq
      exact sound.logged at_pid last looked (by simp) (fun _ => kind)
        (sound.tracks.congr (fun p => Iff.rfl) fun p st => by simp)
        fun p st open_ _ => sound.uncollected p st open_
  · -- a command that is waited for runs, or has ended and is still to be collected
    exfalso
    have ended : ∃ status, (pid, status) ∈ s.ended := by
      by_contra never
      exact gone ⟨by omega, fun status member => never ⟨status, member⟩⟩
    obtain ⟨status, member⟩ := ended
    exact absent status (sound.uncollected pid status ⟨member, fun stored => unlogged _⟩)

theorem Runner.Sound.step {act : RunAct} (sound : s.Sound v)
    (step : runnerNext v act s = some t) : t.Sound v := by
  have place := sound.place
  cases act with
  | command argv =>
    obtain ⟨here, -⟩ := Option.ite_none_right_eq_some.mp step
    exact sound.command here argv step
  | ends pid status => exact sound.ends step
  | waitpid =>
    simp only [runnerNext] at step
    split at step
    · rename_i pid here
      rw [here] at place
      exact sound.waitpid false (by rw [Runner.done, here]) place.1 place.2 step
    · rename_i pid here
      rw [here] at place
      exact sound.waitpid true (by rw [Runner.done, here]) place.1 place.2 step
    · cases step

end

theorem reachable_runner {v : Version} {s : Runner} (reach : (runner v).Reachable s) :
    s.Sound v := by
  refine reach.invariant ?_ ?_
  · rintro r rfl
    exact .start v
  · intro act r t sound step
    exact sound.step step

/-- No `waitpid` fails. A status that is shown is the one that the command has ended with,
and the command is collected then. At the prompt the kernel still keeps exactly the commands
in the background that SP_HW4/part2 does not wait for, and those that still ran when SP_HW2
polled them. -/
theorem prompt_leaves_background {v : Version} {s : Runner} (reach : (runner v).Reachable s) :
    s.pc ≠ .failed ∧
    (∀ pid status, (pid, some status) ∈ s.log → (pid, status) ∈ s.ended ∧ pid ∉ s.family.pids) ∧
    (s.pc = .prompt →
      s.log.map Prod.fst =
        (List.range s.commands.length).filter (fun p => s.kind v p ≠ some .skipped) ∧
      ∀ pid, pid ∈ s.family.pids ↔ s.kind v pid = some .skipped ∨ (pid, none) ∈ s.log) := by
  have sound := reachable_runner reach
  have uncollected : ∀ pid, pid ∈ s.family.pids →
      pid < s.commands.length ∧ ∀ stored, (pid, some stored) ∉ s.log := by
    intro pid member
    rcases List.mem_append.mp member with runs | ended
    · obtain ⟨less, alive⟩ := (sound.tracks.running pid).mp runs
      exact ⟨less, fun stored among => alive stored (sound.collected pid stored among)⟩
    · obtain ⟨⟨_, status⟩, among, rfl⟩ := List.mem_map.mp ended
      obtain ⟨ended, open_⟩ := sound.tracks.ended _ status among
      exact ⟨sound.bounded _ status ended, open_⟩
  refine ⟨?_, ?_, ?_⟩
  · intro failed
    have place := sound.place
    rw [failed] at place
    exact place
  · intro pid status among
    exact ⟨sound.collected pid status among, fun member => (uncollected pid member).2 status among⟩
  · intro prompt
    have all : s.done = s.commands.length := by rw [Runner.done, prompt]
    refine ⟨all ▸ sound.order, fun pid => ?_⟩
    constructor
    · intro member
      obtain ⟨less, open_⟩ := uncollected pid member
      by_cases skipped : s.kind v pid = some .skipped
      · exact Or.inl skipped
      · obtain ⟨stored, among⟩ := sound.mem_log.mpr ⟨all.symm ▸ less, skipped⟩
        cases stored with
        | none => exact Or.inr among
        | some stored => exact absurd among (open_ stored)
    · intro remains
      have kept : pid < s.commands.length ∧ ∀ stored, (pid, some stored) ∉ s.log := by
        rcases remains with skipped | among
        · have less : pid < s.commands.length := by
            obtain ⟨argv, here, -⟩ := Option.map_eq_some_iff.mp skipped
            exact (List.getElem?_eq_some_iff.mp here).1
          exact ⟨less, fun stored among => (sound.mem_log.mp ⟨_, among⟩).2 skipped⟩
        · have less := (sound.mem_log.mp ⟨none, among⟩).1
          refine ⟨all ▸ less, fun stored again => ?_⟩
          exact sound.logged_once among again
      obtain ⟨less, open_⟩ := kept
      by_cases ended : ∃ status, (pid, status) ∈ s.ended
      · obtain ⟨status, ended⟩ := ended
        exact List.mem_append_right _
          (List.mem_map.mpr ⟨_, sound.uncollected pid status ⟨ended, open_⟩, rfl⟩)
      · exact List.mem_append_left _ ((sound.tracks.running pid).mpr
          ⟨less, fun status member => ended ⟨status, member⟩⟩)

/-- A command in the background that is polled while it runs, and one in the foreground. -/
def polledTooEarly : List RunAct :=
  [.command [.str "sleep", .str ampersand, .null], .waitpid, .ends 0 (.exited 0),
    .command [.str "ls", .null], .ends 1 (.exited 2), .waitpid]

theorem polled_child_stays_zombie :
    ∃ s : Runner, s.family.zombies = [(0, .exited 0)] ∧
      s.log.flatMap Version.hw2.report = [.stale 0, .exited 1 2] ∧
      (0 ∈ s.family.pids ↔ s.kind .hw2 0 = some .skipped ∨ (0, none) ∈ s.log) := by
  have run : ∃ s, follow (runnerNext .hw2) polledTooEarly Runner.initial = some s ∧
      s.pc = .prompt ∧ s.family.zombies = [(0, .exited 0)] ∧
      s.log.flatMap Version.hw2.report = [.stale 0, .exited 1 2] := by
    refine ⟨_, rfl, ?_⟩
    decide
  obtain ⟨s, run, prompt, zombies, reports⟩ := run
  have reach : (runner .hw2).Reachable s := (Reachable.initial rfl).run (follow_run run)
  exact ⟨s, zombies, reports, ((prompt_leaves_background reach).2.2 prompt).2 0⟩

end Shell
