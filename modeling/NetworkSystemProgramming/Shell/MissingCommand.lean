import NetworkSystemProgramming.Shell.FailedExec

/-!
# Pipelines with an empty stage

`pipe_present` returns -1 for a "|" at either end, and `pipe_and_exec` reports it. But
`run_command` calls `pipe_and_exec` for a positive index only, and a stage is exec'd
before the rest of the vector is looked at.
-/

namespace Shell

open DescriptorTables StepSystems StepSystem

variable {E : Type}

/-- A "|" with an empty stage on either side. -/
def Malformed (argv : List Word) : Prop :=
  argv.head? = some bar ∨ argv.getLast? = some bar ∨ [bar, bar] <:+: argv

/-- `myArgv`, as `parse` leaves it. -/
def tokenVector (argv : List Word) : Block :=
  ⟨argv.length + 1, argv.map Cell.str ++ [Cell.null]⟩

/-- The frame that the `execvp` of the whole vector is modelled with. -/
def wholeFrame (myArgv : List Word) : Frame := ⟨(0, 0), ⟨tokenVector myArgv, malloc 0, []⟩⟩

/-- The child of `run_command` behind the redirections: it calls `pipe_and_exec`, or it
stands at `execvp(myArgv[0],myArgv)`, behind which it exits as a left side does. -/
def State.child (w : World E) (myArgv : List Word) : State E :=
  if 0 < pipePresent myArgv then State.initial w myArgv
  else (State.initial w myArgv).set 0
    ⟨.execLeft (wholeFrame myArgv), w.entry.map (Option.map .entry), []⟩

/-- What can be seen of a step. -/
inductive Event where
  /-- "Missing command next to pipe in commandline." -/
  | missingCommand (pid : Nat)
  | execvp (pid : Nat) (argv : List Cell)
  deriving DecidableEq

def calls (pid : Nat) (pc : Pc) : List Event := pc.execArgv.toList.map (Event.execvp pid)

def events (act : Act) (s : State E) : List Event :=
  match act with
  | .run pid =>
    match (s.procs pid).pc with
    | .call argv => if pipePresent argv = -1 then [.missingCommand pid] else []
    | pc => calls pid pc
  | .fails pid => calls pid (s.procs pid).pc
  | _ => []

/-- The error is reported and nothing is exec'd. -/
structure Rejected (s : State E × List Event) : Prop where
  nothing : ∀ pid argv, Event.execvp pid argv ∉ s.2
  reported : (s.1.procs 0).pc = .exited → Event.missingCommand 0 ∈ s.2

section
variable [DecidableEq E] (w : World E) (can : List Word → Bool) {argv : List Word}

/-- The processes of a child of `run_command`, with what they call. -/
def childRuns (argv : List Word) : StepSystem (State E × List Event) Act :=
  ((ofNext (· = State.child w argv) (next w)).restrict (ExecPattern can)).logged events

theorem leadingWords_tokenVector (argv : List Word) :
    leadingWords (tokenVector argv).cells = argv := leadingWords_append argv rfl

theorem pipe_mem (malformed : Malformed argv) : bar ∈ argv := by
  rcases malformed with head | last | adjacent
  · exact List.mem_of_mem_head? head
  · exact List.mem_of_getLast? last
  · exact adjacent.subset (by simp)

/-- The illegal positions are told from a "|" further inside only. -/
theorem pipePresent_of_mem (mem : bar ∈ argv) :
    pipePresent argv = -1 ∨
      ∃ left rest, left ≠ [] ∧ bar ∉ left ∧ argv = left ++ bar :: rest ∧
        pipePresent argv = left.length := by
  obtain ⟨left, rest, rfl, noPipe⟩ := List.eq_append_cons_of_mem mem
  by_cases ends : (left ++ bar :: rest).head? = some bar ∨
      (left ++ bar :: rest).getLast? = some bar
  · left
    rw [pipePresent, if_pos ends]
  · right
    have nonempty : left ≠ [] := by
      rintro rfl
      exact ends (Or.inl rfl)
    have middle : left.length ≠ (left ++ bar :: rest).length := by simp
    refine ⟨left, rest, nonempty, noPipe, rfl, ?_⟩
    rw [pipePresent, findIdx_pipe noPipe rest, if_neg ends, if_neg middle]

/-- A process that stands at its `execvp` calls it, whether it succeeds or not. -/
theorem execvp_called {s : State E} {log : List Event} {pid : Nat} {f : Frame}
    (at_exec : (s.procs pid).pc = .execLeft f)
    (reach : (childRuns w can argv).Reachable (s, log)) :
    ∃ t, (childRuns w can argv).Reachable
      (t, log ++ [.execvp pid f.split.left.cells]) := by
  cases able : can (leadingWords f.split.left.cells) with
  | true =>
    refine ⟨s.exec w pid f.split.left.cells, reach.next (l := .run pid) ⟨⟨?_, ?_⟩, ?_⟩⟩
    · intro vector next
      rw [at_exec] at next
      cases next
      exact able
    · change statement w s pid = _
      simp [statement, at_exec]
    · simp [events, at_exec, calls, Pc.execArgv]
  | false =>
    refine ⟨s.exit pid, reach.next (l := .fails pid) ⟨⟨?_, ?_⟩, ?_⟩⟩
    · exact ⟨_, by rw [at_exec]; rfl, able⟩
    · change failure s pid = _
      simp [failure, at_exec]
    · simp [events, at_exec, calls, Pc.execArgv]

/-- At a "|" further inside, the left stage comes to its `execvp` before the rest of the
vector is looked at. -/
theorem left_stage_reached {left rest : List Word} (nonempty : left ≠ [])
    (split : argv = left ++ bar :: rest) (index : pipePresent argv = left.length) :
    ∃ s log f, (childRuns w can argv).Reachable (s, log) ∧ (s.procs 1).pc = .execLeft f ∧
      leadingWords f.split.left.cells = left := by
  have positive := List.length_pos_iff.mpr nonempty
  have middle : (left.length : Int) ≠ 0 := by omega
  have legal : (left.length : Int) ≠ -1 := by omega
  have calls : State.child w argv = State.initial w argv := by
    rw [State.child, if_pos (by omega)]
  let s0 : State E := State.initial w argv
  let made := allocPair (s0.procs 0).fds (.read s0.nextPipe) (.write s0.nextPipe)
  let f : Frame := ⟨made.2, splitPipe argv left.length⟩
  let s1 : State E := State.set
    { s0 with nextPipe := s0.nextPipe + 1, pipes := Function.update s0.pipes s0.nextPipe 0 } 0
    ⟨.fork f, made.1, []⟩
  let s2 : State E := ({ s1 with nextPid := s1.nextPid + 1 }.set 0
    ⟨.closeWrite f 1, made.1, []⟩).set 1 ⟨.childCloseRead f, made.1, []⟩
  have called : (patternRuns w can argv).step (.run 0) s0 s1 := by
    refine quiet_step w can argv rfl ?_
    simp only [statement, s0, State.initial, if_true, callStep, index, if_neg middle, if_neg legal,
      Int.toNat_natCast]
    rfl
  have forked : (patternRuns w can argv).step (.run 0) s1 s2 := by
    refine quiet_step w can argv (by rw [set_self]; rfl) ?_
    simp [statement, s1, s2, s0, State.initial]
  obtain ⟨t, fds, run, -, -, procs⟩ := left_side_runs w can argv (set_self _ 1 _ : s2.procs 1 = _)
  have start : (childRuns w can argv).Reachable (s0, []) :=
    Reachable.initial ⟨calls.symm, rfl⟩
  obtain ⟨log, logged⟩ : ∃ log, (childRuns w can argv).Run (s0, []) (t, [] ++ log) :=
    logged_run (((Run.refl s0).snoc called |>.snoc forked).trans run) []
  refine ⟨t, _, f, start.run logged, ?_, ?_⟩
  · rw [procs, Function.update_self]
  · have words : argv.take left.length = left := by rw [split, List.take_left]
    change leadingWords (leftArgv (argv.take left.length)).cells = left
    rw [words, leadingWords_leftArgv]

/-- Whatever can be executed: for every malformed vector `execvp` is called, with the
first token as the command. -/
theorem malformed_calls_execvp (malformed : Malformed argv) :
    ∃ s, (childRuns w can argv).Reachable s ∧ ¬ Rejected s ∧
      ∃ pid vector, Event.execvp pid vector ∈ s.2 ∧ (leadingWords vector).head? = argv.head? := by
  have reached : ∃ s log pid f, (childRuns w can argv).Reachable (s, log) ∧
      (s.procs pid).pc = .execLeft f ∧
      (leadingWords f.split.left.cells).head? = argv.head? := by
    rcases pipePresent_of_mem (pipe_mem malformed) with
      illegal | ⟨left, rest, nonempty, -, split, index⟩
    · have start : (childRuns w can argv).Reachable (State.child w argv, []) :=
        Reachable.initial ⟨rfl, rfl⟩
      refine ⟨_, _, 0, wholeFrame argv, start, ?_, ?_⟩
      · rw [State.child, if_neg (by omega), set_self]
      · rw [wholeFrame, leadingWords_tokenVector]
    · obtain ⟨s, log, f, reach, at_exec, words⟩ := left_stage_reached w can nonempty split index
      refine ⟨s, log, 1, f, reach, at_exec, ?_⟩
      rw [words, split, List.head?_append_of_ne_nil _ nonempty]
  obtain ⟨s, log, pid, f, reach, at_exec, command⟩ := reached
  obtain ⟨t, called⟩ := execvp_called w can at_exec reach
  have member : Event.execvp pid f.split.left.cells ∈ log ++ [.execvp pid f.split.left.cells] := by
    simp
  exact ⟨_, called, fun rejected => rejected.nothing _ _ member, pid, _, member, command⟩

/-- The child stands at the `execvp` of the whole vector or is behind it. -/
def Direct (argv : List Word) (s : State E) (log : List Event) : Prop :=
  s.Alone ∧ ((s.procs 0).pc = .execLeft (wholeFrame argv) ∧ log = [] ∨
    Done (s.procs 0).pc ∧ log = [.execvp 0 (tokenVector argv).cells])

theorem Direct.step {s t : State E} {log : List Event} {act : Act} (direct : Direct argv s log)
    (h : next w act s = some t) : Direct argv t (log ++ events act s) := by
  obtain ⟨alone, at_exec | ⟨done, rfl⟩⟩ := direct
  · obtain ⟨at_exec, rfl⟩ := at_exec
    rcases run_or_fails (only_main alone h) (by simp [at_exec]) h with rfl | rfl
    · simp only [next, statement, at_exec, Option.some.injEq] at h
      subst h
      refine ⟨State.Alone.set alone _, Or.inr ⟨?_, ?_⟩⟩
      · rw [State.exec, set_self]
        exact Or.inr ⟨_, rfl⟩
      · simp [events, at_exec, calls, Pc.execArgv, wholeFrame]
    · simp only [next, failure, at_exec, Option.some.injEq] at h
      subst h
      refine ⟨State.Alone.set alone _, Or.inr ⟨?_, ?_⟩⟩
      · rw [State.exit, set_self]
        exact Or.inl rfl
      · simp [events, at_exec, calls, Pc.execArgv, wholeFrame]
  · have main := only_main alone h
    have program : (∀ p, act ≠ .run p) ∧ ∀ p, act ≠ .fails p := by
      constructor
      · rintro p rfl
        obtain rfl : p = 0 := main
        rcases done with stop | ⟨_, stop⟩ <;> simp [next, statement, stop] at h
      · rintro p rfl
        obtain rfl : p = 0 := main
        rcases done with stop | ⟨_, stop⟩ <;> simp [next, failure, stop] at h
    obtain ⟨-, -, procs⟩ := program_step h program
    have silent : events act s = [] := by
      cases act with
      | run p => exact absurd rfl (program.1 p)
      | fails p => exact absurd rfl (program.2 p)
      | write | read | exit => rfl
    rw [silent, List.append_nil]
    refine ⟨?_, Or.inr ⟨?_, rfl⟩⟩
    · intro pid other
      rcases procs pid with same | ⟨own, -⟩
      · rw [same]
        exact alone pid other
      · exact absurd (own.trans main) other
    · rcases procs 0 with same | ⟨-, -, done'⟩
      · rwa [same]
      · exact done'

/-- A "|" at either end is never reported: in every run the child execs the whole vector. -/
theorem illegal_position_execs (illegal : pipePresent argv = -1)
    {s : State E × List Event} (reach : (childRuns w can argv).Reachable s) :
    Direct argv s.1 s.2 := by
  refine reach.invariant (I := fun s => Direct argv s.1 s.2) ?_ ?_
  · rintro ⟨r, log⟩ ⟨rfl, rfl⟩
    have whole : State.child w argv = (State.initial w argv).set 0
        ⟨.execLeft (wholeFrame argv), w.entry.map (Option.map .entry), []⟩ := by
      rw [State.child, if_neg (by omega)]
    have alone : (State.initial w argv).Alone := fun pid other => if_neg other
    simp only [whole]
    refine ⟨alone.set _, Or.inl ⟨?_, rfl⟩⟩
    rw [set_self]
  · rintro act ⟨r, log⟩ ⟨t, log'⟩ direct ⟨⟨-, h⟩, rfl⟩
    exact direct.step w h

end

private def trailingBar : List Word := ["ls", bar]

private def noOutput : World Nat := ⟨standardStreams, 4, fun _ => 0⟩

theorem trailing_bar_calls_execvp :
    ∃ s, (childRuns noOutput (fun _ => true) trailingBar).Reachable s ∧ ¬ Rejected s ∧
      ∃ pid vector, Event.execvp pid vector ∈ s.2 ∧
        (leadingWords vector).head? = trailingBar.head? :=
  malformed_calls_execvp noOutput (fun _ => true) (Or.inr (Or.inl rfl))

theorem malformed_not_rejected :
    ¬ ∀ (w : World Nat) (can : List Word → Bool) (argv : List Word), Malformed argv →
      ∀ s, (childRuns w can argv).Reachable s → Rejected s := by
  intro claim
  have run : (follow (recording (guarded (ExecPattern fun _ => true) (next noOutput)) events)
      [.run 0] (State.child noOutput trailingBar, [])).map Prod.snd =
        some [.execvp 0 [.str "ls", .str bar, .null]] := by
    decide +kernel
  obtain ⟨s, followed, log⟩ := Option.map_eq_some_iff.mp run
  have start : (childRuns noOutput (fun _ => true) trailingBar).Reachable
      (State.child noOutput trailingBar, []) := Reachable.initial ⟨rfl, rfl⟩
  have rejected := claim noOutput (fun _ => true) trailingBar (Or.inr (Or.inl rfl)) s
    (start.run (follow_recording_run (fun _ _ _ h => Option.ite_none_right_eq_some.mp h) followed))
  refine rejected.nothing 0 [.str "ls", .str bar, .null] ?_
  rw [log]
  exact List.mem_singleton_self _

end Shell
