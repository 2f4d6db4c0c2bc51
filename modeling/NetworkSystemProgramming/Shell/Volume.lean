import NetworkSystemProgramming.Shell.Levels

/-!
# Outputs and the capacity of a pipe

The parent waits for the left side before it becomes the reader of its output, so
nothing is read from a pipe while the left side writes. A pipeline comes to its end if
and only if the output of every stage but the last fits in a pipe.
-/

namespace Shell

open DescriptorTables StepSystems StepSystem

variable {E : Type} {w : World E} {stages : List (List Word)} {strict : Prop} {s : State E}

/-- A program is blocked on its full pipe, while the process that has the read end for its
stdin waits for that program to end. -/
def WaitsForWriter (w : World E) (s : State E) : Prop :=
  ∃ reader writer f output pipe, (s.procs reader).pc = .wait f writer ∧
    (s.procs writer).pc = .running (output + 1) ∧
    lookup (s.procs writer).fds 1 = some (.write pipe) ∧ w.capacity ≤ s.pipes pipe ∧
    lookup (s.procs reader).fds 0 = some (.read pipe)

theorem State.Alone.not_waits (alone : s.Alone) (main : ∀ f pid, (s.procs 0).pc ≠ .wait f pid) :
    ¬ WaitsForWriter w s := by
  rintro ⟨reader, writer, f, -, -, waits, -⟩
  by_cases zero : reader = 0
  · exact main f writer (zero ▸ waits)
  · rw [alone reader zero] at waits
    cases waits

/-- While every output fits, no writer is blocked. -/
theorem Phase.not_waits (phase : Phase w stages strict s)
    (fits : ∀ k, k + 1 < stages.length → w.output (k + 1) ≤ w.capacity) :
    ¬ WaitsForWriter w s := by
  cases phase with
  | calling k fds stack level main table stackAt alone =>
    exact alone.not_waits (by simp [main])
  | forking k f fds stack main table frame alone => exact alone.not_waits (by simp [main])
  | waiting k f parent child frame others =>
    obtain ⟨-, -, -, inside⟩ := frame.words
    have bound := fits k inside
    rintro ⟨reader, writer, g, output, pipe, waits, runs, stdout, full, -⟩
    have same : writer = k + 1 := by
      by_cases zero : reader = 0
      · rw [zero] at waits
        generalize s.procs 0 = p at parent waits
        cases parent with
        | wait table =>
          cases waits
          rfl
        | _ => cases waits
      · by_cases self : reader = k + 1
        · rw [self] at waits
          generalize s.procs (k + 1) = c at child waits
          cases child <;> cases waits
        · rw [others reader zero self] at waits
          cases waits
    rw [same] at runs stdout
    generalize s.procs (k + 1) = c at child runs stdout
    cases child with
    | running table written room =>
      cases runs
      change lookup _ 1 = _ at stdout
      rw [table, leftBase, Function.update_self] at stdout
      cases stdout
      omega
    | _ => cases runs
  | waited k f fds stack main table frame alone => exact alone.not_waits (by simp [main])
  | returned k f fds stack pfd last main table free frame alone =>
    exact alone.not_waits (by simp [main])
  | last k output fds stack pfd last main table free alone => exact alone.not_waits (by simp [main])
  | fallen lax main alone =>
    apply alone.not_waits
    intro f pid waits
    rw [waits] at main
    cases main
  | finished main alone => exact alone.not_waits (by simp [main, Process.dead])

/-- Once process 0 has ended, all stages have been exec'd and their outputs have fitted. -/
theorem Phase.of_dead (phase : Phase w stages True s) (dead : s.procs 0 = .dead) :
    Executed w stages stages.length s.execs ∧ Fits w (stages.length - 1) := by
  cases phase with
  | finished main alone pipe executed fits => exact ⟨executed trivial, fits trivial⟩
  | waiting j f parent =>
    rw [dead] at parent
    cases parent
  | fallen lax => exact absurd trivial lax
  | calling j fds stack level main => cases main.symm.trans dead
  | forking j f fds stack main => cases main.symm.trans dead
  | waited j f fds stack main => cases main.symm.trans dead
  | returned j f fds stack pfd last main => cases main.symm.trans dead
  | last j output fds stack pfd last main => cases main.symm.trans dead

section
variable [DecidableEq E]

theorem step_of_ne_none (act : Act) (succeeds : ∀ pid, act ≠ .fails pid)
    (moves : next w act s ≠ none) :
    ∃ act t, ((pipeAndExec w (pipeline stages)).restrict Succeeds).step act s t := by
  obtain ⟨t, h⟩ := Option.ne_none_iff_exists'.mp moves
  exact ⟨act, t, succeeds, h⟩

/-- Until process 0 has ended somebody can take a step, if no writer is blocked. -/
theorem Phase.progress (phase : Phase w stages True s) (running : s.procs 0 ≠ .dead)
    (free : ¬ WaitsForWriter w s) :
    ∃ act t, ((pipeAndExec w (pipeline stages)).restrict Succeeds).step act s t := by
  have runs : ∀ pid, next w (.run pid) s ≠ none →
      ∃ act t, ((pipeAndExec w (pipeline stages)).restrict Succeeds).step act s t :=
    fun pid => step_of_ne_none (.run pid) (by simp)
  cases phase with
  | calling k fds stack level main => exact runs 0 (by simp [next, statement, main])
  | forking k f fds stack main => exact runs 0 (by simp [next, statement, main])
  | waiting k f parent child frame others pid =>
    generalize main : s.procs 0 = p at parent
    generalize here : s.procs (k + 1) = c at child
    cases parent with
    | closeWrite => exact runs 0 (by simp [next, statement, main])
    | dupRead => exact runs 0 (by simp [next, statement, main])
    | @wait fds stack table =>
      cases child with
      | closeRead => exact runs (k + 1) (by simp [next, statement, here])
      | dupWrite => exact runs (k + 1) (by simp [next, statement, here])
      | closeWrite => exact runs (k + 1) (by simp [next, statement, here])
      | execLeft => exact runs (k + 1) (by simp [next, statement, here])
      | @running output childFds childStack childTable =>
        have stdout : lookup childFds 1 = some (.write k) := by
          rw [childTable, leftBase, Function.update_self]
        have stdin : lookup fds 0 = some (.read k) := by
          have := frame.free.readBig
          rw [table, Function.update_of_ne (by omega), base, Function.update_self, feed]
        cases output with
        | zero =>
          apply step_of_ne_none (.exit (k + 1)) (by simp)
          simp [next, programExit, here]
        | succ output =>
          have space : s.pipes k < w.capacity := by
            by_contra full
            refine free ⟨0, k + 1, f, output, k, ?_, ?_, ?_, by omega, ?_⟩
            · rw [main]
            · rw [here]
            · rw [here]
              exact stdout
            · rw [main]
              exact stdin
          have reader : s.HasReader k := by
            refine ⟨0, by omega, 0, ?_⟩
            rw [main]
            exact stdin
          apply step_of_ne_none (.write (k + 1)) (by simp)
          simp [next, programWrite, here, stdout, reader, space]
      | ended => exact runs 0 (by simp [next, statement, main, here, Process.dead])
  | waited k f fds stack main => exact runs 0 (by simp [next, statement, main])
  | returned k f fds stack pfd last main => exact runs 0 (by simp [next, statement, main])
  | last k output fds stack pfd last main table free' =>
    cases output with
    | zero =>
      apply step_of_ne_none (.exit 0) (by simp)
      simp [next, programExit, main]
    | succ output =>
      have stdout : lookup fds 1 = (lookup w.entry 1).map .entry := by
        rw [table, piped_small free' (by omega), base_one]
      apply step_of_ne_none (.write 0) (by simp)
      cases entry : lookup w.entry 1 <;> simp [next, programWrite, main, stdout, entry]
  | fallen lax => exact absurd trivial lax
  | finished main => exact absurd main running

omit [DecidableEq E] in
theorem Phase.pipes_le (phase : Phase w stages True s) : s.nextPipe ≤ stages.length := by
  cases phase with
  | calling k fds stack level main table stackAt alone pid pipe => omega
  | forking k f fds stack main table frame alone pid pipe =>
    have := frame.words.2.2.2
    omega
  | waiting k f parent child frame others pid pipe =>
    have := frame.words.2.2.2
    omega
  | waited k f fds stack main table frame alone pid pipe =>
    have := frame.words.2.2.2
    omega
  | returned k f fds stack pfd last main table free frame alone pipe => omega
  | last k output fds stack pfd last main table free alone pipe => omega
  | fallen lax => exact absurd trivial lax
  | finished main alone pipe => omega

/-- Process 0 comes to its end, unless a writer is blocked for ever. -/
theorem ends_or_waits (ok : Pipelined w stages) :
    Inevitable ((pipeAndExec w (pipeline stages)).restrict Succeeds)
      (fun s => s.procs 0 = .dead ∨ WaitsForWriter w s) (State.initial w (pipeline stages)) := by
  let measure : State E → Nat × Nat := fun s => (stages.length - s.nextPipe, s.rank w)
  refine Inevitable.of_measure (Phase w stages True) (Prod.lex Nat.lt_wfRel Nat.lt_wfRel).wf
    measure ?_ ?_ _ (.start ok)
  · intro s phase more
    obtain ⟨running, free⟩ := not_or.mp more
    exact phase.progress running free
  · rintro act s t phase ⟨succeeds, step⟩
    have onward := phase.step ok (fun _ => succeeds) step
    refine ⟨onward.phase, ?_⟩
    have bound := onward.phase.pipes_le
    rcases onward.closer trivial with more | ⟨same, less⟩
    · exact Prod.Lex.left _ _ (by change _ < _; omega)
    · have first : (measure t).1 = (measure s).1 := by
        change stages.length - t.nextPipe = stages.length - s.nextPipe
        rw [same]
      change Prod.Lex _ _ ((measure t).1, t.rank w) ((measure s).1, s.rank w)
      rw [first]
      exact Prod.Lex.right _ less

/-- No writer is ever blocked while its reader waits for it, if and only if the output of
every stage but the last fits in a pipe. Stage `k` runs in process `k + 1`. -/
theorem no_writer_waits_iff_fits (ok : Pipelined w stages) :
    (∀ s, (pipeAndExec w (pipeline stages)).Reachable s → ¬ WaitsForWriter w s) ↔
      ∀ k, k + 1 < stages.length → w.output (k + 1) ≤ w.capacity := by
  constructor
  · intro never k inside
    obtain ⟨t, run, final⟩ := (ends_or_waits ok).run
    have reach := (Reachable.initial (T := (pipeAndExec w (pipeline stages)).restrict Succeeds)
      rfl).run run
    have dead := final.resolve_right (never t (restrict_reachable reach))
    exact ((strict_phase_of_reachable ok reach).of_dead dead).2 k (by omega)
  · intro fits s reach
    exact (phase_of_reachable ok reach).not_waits fits

end

/-! ## Two stages and a pipe of one byte -/

private def twoStages : List (List Word) := [["cat", "log"], ["wc"]]

private def oneBytePipes (output : Nat) : World Nat where
  entry := standardStreams
  capacity := 1
  output _ := output

theorem one_byte_passes : 2 ≤ twoStages.length ∧
    ∀ s, (pipeAndExec (oneBytePipes 1) (pipeline twoStages)).Reachable s →
      ¬ WaitsForWriter (oneBytePipes 1) s := by
  have ok : Pipelined (oneBytePipes 1) twoStages := by
    constructor
    · decide
    · unfold Stage
      decide +kernel
    · unfold StandardOpen
      decide
  exact ⟨by decide, (no_writer_waits_iff_fits ok).mpr (fun _ _ => Nat.le_refl 1)⟩

/-- The second byte of the output is never written. -/
theorem second_byte_waits : ∃ s, (pipeAndExec (oneBytePipes 2) (pipeline twoStages)).Reachable s ∧
    WaitsForWriter (oneBytePipes 2) s := by
  let f : Frame := ⟨(3, 4), splitPipe (pipeline twoStages) 2⟩
  have run : (follow (next (oneBytePipes 2)) [.run 0, .run 0, .run 0, .run 0, .run 1, .run 1,
      .run 1, .run 1, .write 1] (State.initial (oneBytePipes 2) (pipeline twoStages))).map
        (fun s => ((s.procs 0).pc, (s.procs 1).pc, s.pipes 0,
          [lookup (s.procs 0).fds 0, lookup (s.procs 1).fds 1])) =
      some (.wait f 1, .running 1, 1, [some (.read 0), some (.write 0)]) := by decide +kernel
  obtain ⟨s, hs, facts⟩ := Option.map_eq_some_iff.mp run
  simp only [Prod.mk.injEq, List.cons.injEq, and_true] at facts
  obtain ⟨waits, runs, content, stdin, stdout⟩ := facts
  refine ⟨s, (Reachable.initial rfl).run (follow_run hs), 0, 1, f, 0, 0, waits, runs, stdout, ?_,
    stdin⟩
  rw [content]
  exact Nat.le_refl 1

end Shell
