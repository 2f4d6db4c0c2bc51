import NetworkSystemProgramming.SharedMemory.Teardown

/-!
# The transfer comes to its end

Every statement of either program takes away from what is left to do: the writer's
statements up to its exit, counted with the input that it still has to read, and the
reader's statements, counted with the blocks that it still has to write out. As some party
can always run, every interleaving ends, with all the input copied and both IPC objects
removed.
-/

namespace SharedMemoryTransfer

open ByteBuffers BinarySems StepSystems

/-- The statements that the writer still executes with `unread` blocks to come. -/
def WriterPc.left (eofSeen : Bool) (unread : Nat) : WriterPc → Nat
  | .reserve => 7 * unread + 10
  | .read => 7 * unread + 9
  | .store _ => if eofSeen then 8 else 7 * unread + 15
  | .checkError => if eofSeen then 7 else 7 * unread + 14
  | .release => if eofSeen then 6 else 7 * unread + 13
  | .testEof => if eofSeen then 5 else 7 * unread + 12
  | .advance => 7 * unread + 11
  | .lastReserve => 4
  | .removeSet => 3
  | .unmap => 2
  | .unlink => 1
  | .finished | .failed => 0

/-- The statements that the reader still executes with `unwritten` blocks to come. -/
def ReaderPc.left (unwritten : Nat) : ReaderPc → Nat
  | .release => 6 * unwritten + 6
  | .advance => 6 * unwritten + 5
  | .reserve => 6 * unwritten + 4
  | .testEof => 6 * unwritten + 3
  | .addBytes | .unmap => 6 * unwritten + 2
  | .write | .lastRelease => 6 * unwritten + 1
  | .finished | .failed => 0

/-- The blocks that are still to be written out. -/
def State.unwritten (s : State) : Nat :=
  s.stdin.length + (s.blocksRead.length - s.blocksWritten.length)

def State.left (s : State) : Nat :=
  s.writer.pc.left s.eofSeen s.stdin.length + s.reader.pc.left s.unwritten

theorem writerStep_left {s t : State} (h : Coherent s) (step : writerStep s = some t) :
    t.left < s.left := by
  have facts := h.writer
  cases hpc : s.writer.pc with
  | reserve | lastReserve =>
    have live := h.live_of (by simp [hpc])
    simp only [writerStep, hpc, reserveSem_andThen live] at step
    obtain ⟨set, -, -, rfl⟩ := step
    simp [State.left, State.unwritten, WriterPc.left, hpc]
  | read =>
    rw [hpc] at facts
    obtain ⟨unseen, same⟩ := facts
    cases hin : s.stdin with
    | nil =>
      simp only [writerStep, hpc, hin, Option.some.injEq] at step
      subst t
      simp [State.left, State.unwritten, WriterPc.left, hpc, hin]
    | cons block rest =>
      simp only [writerStep, hpc, hin, Option.some.injEq] at step
      subst t
      -- the block moves from the input to the blocks read, so the reader's part is the same
      have blocks : rest.length + ((s.blocksRead ++ [block]).length - s.blocksWritten.length) =
          rest.length + 1 + (s.blocksRead.length - s.blocksWritten.length) := by
        rw [same, List.length_append, List.length_singleton]
        omega
      simp only [State.left, State.unwritten, State.writerAt, WriterPc.left, hpc, hin, unseen,
        blocks, List.length_cons, Bool.false_eq_true, if_false]
      omega
  | store n =>
    simp only [writerStep, hpc, Option.some.injEq] at step
    subst t
    cases seen : s.eofSeen with
    | true | false => simp [State.left, State.unwritten, WriterPc.left, hpc, seen]
  | checkError =>
    rw [hpc] at facts
    simp only [writerStep, hpc, Option.some.injEq] at step
    subst t
    rw [if_neg (State.Holds.cnt_ok facts)]
    cases seen : s.eofSeen with
    | true | false => simp [State.left, State.unwritten, WriterPc.left, hpc, seen]
  | release =>
    have live := h.live_of (by simp [hpc])
    simp only [writerStep, hpc, releaseSem_andThen live] at step
    obtain ⟨set, -, rfl⟩ := step
    cases seen : s.eofSeen with
    | true | false => simp [State.left, State.unwritten, WriterPc.left, hpc, seen]
  | testEof =>
    rw [hpc] at facts
    simp only [writerStep, hpc, Option.some.injEq] at step
    subst t
    by_cases ended : s.shmp.cnt = 0
    · simp [State.left, State.unwritten, WriterPc.left, hpc, ended, facts.mpr ended]
    · have unseen : s.eofSeen = false := by
        rw [← Bool.not_eq_true]
        exact fun seen => ended (facts.mp seen)
      simp [State.left, State.unwritten, WriterPc.left, hpc, ended, unseen]
  | advance | removeSet | unmap | unlink =>
    simp only [writerStep, hpc, Option.some.injEq] at step
    subst t
    simp [State.left, State.unwritten, WriterPc.left, hpc]
  | finished | failed => simp [writerStep, hpc] at step

theorem readerStep_left {s t : State} (h : Coherent s) (step : readerStep s = some t) :
    t.left < s.left := by
  have facts := h.reader
  cases hpc : s.reader.pc with
  | reserve =>
    have live := h.live_for_reader (by simp [hpc])
    simp only [readerStep, hpc, reserveSem_andThen live] at step
    obtain ⟨set, -, -, rfl⟩ := step
    simp [State.left, State.unwritten, ReaderPc.left, hpc]
  | release | lastRelease =>
    have live := h.live_for_reader (by simp [hpc])
    simp only [readerStep, hpc, releaseSem_andThen live] at step
    obtain ⟨set, -, rfl⟩ := step
    simp [State.left, State.unwritten, ReaderPc.left, hpc]
  | testEof =>
    simp only [readerStep, hpc, Option.some.injEq] at step
    subst t
    by_cases ended : s.shmp.cnt = 0
    · simp [State.left, State.unwritten, ReaderPc.left, hpc, ended]
    · simp [State.left, State.unwritten, ReaderPc.left, hpc, ended]
  | write =>
    rw [hpc] at facts
    simp only [readerStep, hpc, Option.some.injEq] at step
    subst t
    rcases facts.1 with ⟨-, block, -, read, -, -⟩ | ⟨-, -, unread⟩
    · -- the block written is the one that was read last
      simp only [State.left, State.unwritten, State.readerAt, ReaderPc.left, hpc, read,
        List.length_append, List.length_singleton]
      omega
    · exact absurd unread facts.2
  | addBytes | advance | unmap =>
    simp only [readerStep, hpc, Option.some.injEq] at step
    subst t
    simp [State.left, State.unwritten, ReaderPc.left, hpc]
  | finished | failed => simp [readerStep, hpc] at step

/-- What the cleanup of the writer has removed. -/
structure Removed (s : State) : Prop where
  set : s.writer.pc = .unmap ∨ s.writer.pc = .unlink ∨ s.writer.pc = .finished → s.semid = none
  segment : s.writer.pc = .finished → s.linked = false

theorem step_removed {party : Party} {s t : State} (h : Coherent s) (removed : Removed s)
    (moves : step party s = some t) : Removed t := by
  cases party with
  | reader =>
    obtain ⟨same, linked, before⟩ := readerStep_frame moves
    have early : ¬ (s.writer.pc = .unmap ∨ s.writer.pc = .unlink ∨ s.writer.pc = .finished) :=
      fun late => h.live_for_reader before (removed.set late)
    rw [← same] at early
    exact ⟨fun late => absurd late early, fun done => absurd (Or.inr (Or.inr done)) early⟩
  | writer =>
    cases hpc : s.writer.pc with
    | unlink =>
      have gone := removed.set (Or.inr (Or.inl hpc))
      simp only [step, writerStep, hpc, Option.some.injEq] at moves
      subst t
      exact ⟨fun _ => gone, fun _ => rfl⟩
    | unmap =>
      have gone := removed.set (Or.inl hpc)
      simp only [step, writerStep, hpc, Option.some.injEq] at moves
      subst t
      exact ⟨fun _ => gone, by simp⟩
    | removeSet =>
      simp only [step, writerStep, hpc, Option.some.injEq] at moves
      subst t
      exact ⟨fun _ => rfl, by simp⟩
    | reserve | lastReserve =>
      have live := h.live_of (by simp [hpc])
      simp only [step, writerStep, hpc, reserveSem_andThen live] at moves
      obtain ⟨set, -, -, rfl⟩ := moves
      exact ⟨by simp, by simp⟩
    | release =>
      have live := h.live_of (by simp [hpc])
      simp only [step, writerStep, hpc, releaseSem_andThen live] at moves
      obtain ⟨set, -, rfl⟩ := moves
      exact ⟨by simp, by simp⟩
    | read =>
      cases hin : s.stdin with
      | nil | cons =>
        simp only [step, writerStep, hpc, hin, Option.some.injEq] at moves
        subst t
        exact ⟨by simp, by simp⟩
    | testEof | checkError =>
      simp only [step, writerStep, hpc, Option.some.injEq] at moves
      subst t
      constructor
      · simp only [State.writerAt_writer]
        split <;> simp
      · simp only [State.writerAt_writer]
        split <;> simp
    | store | advance =>
      simp only [step, writerStep, hpc, Option.some.injEq] at moves
      subst t
      exact ⟨by simp, by simp⟩
    | finished | failed => simp [step, writerStep, hpc] at moves

theorem reachable_removed {BUF_SIZE : Nat} {input : List (List Byte)}
    (split : Splitting BUF_SIZE input) {s : State}
    (h : (transfer BUF_SIZE input).Reachable s) : Removed s := by
  refine h.invariant_of (J := Coherent) (fun _ => reachable_coherent split) ?_ ?_
  · rintro r ⟨buf, cnt, -, rfl⟩
    exact ⟨by simp [initial], by simp [initial]⟩
  · exact fun _ _ _ coherent removed moves => step_removed coherent removed moves

/-- In every interleaving both programs come to their exit. Then the standard output of the
reader is the input of the writer, and the semaphore set and the segment are removed. -/
theorem transfer_completes {BUF_SIZE : Nat} {input : List (List Byte)}
    (split : Splitting BUF_SIZE input) {s : State}
    (h : (transfer BUF_SIZE input).Reachable s) :
    StepSystem.Inevitable (transfer BUF_SIZE input) (fun t : State =>
      t.writer.pc = .finished ∧ t.reader.pc = .finished ∧ t.stdout = input.flatten ∧
        t.semid = none ∧ t.linked = false) s := by
  have ends : StepSystem.Inevitable (transfer BUF_SIZE input)
      (fun t : State => t.writer.pc = .finished ∧ t.reader.pc = .finished) s := by
    refine StepSystem.Inevitable.of_measure (fun t => Coherent t ∧ Ending t) Nat.lt_wfRel.wf
      State.left ?_ ?_ s (reachable_ending split h)
    · rintro t ⟨coherent, ending⟩ running
      exact some_party_moves coherent ending running
    · rintro party r t ⟨coherent, ending⟩ moves
      refine ⟨⟨step_coherent coherent moves, step_ending coherent ending moves⟩, ?_⟩
      cases party with
      | writer => exact writerStep_left coherent moves
      | reader => exact readerStep_left coherent moves
  refine ends.mono ?_
  rintro t run ⟨writer, reader⟩
  have reach := h.run run
  have removed := reachable_removed split reach
  obtain ⟨a, handed, coherent, pending, taken, read⟩ :=
    (transfer_refines_handoff split).reachable reach
  have conserved := Handoff.handoff_conserves handed
  rw [← read, pending] at conserved
  have facts := coherent.reader
  rw [reader] at facts
  obtain ⟨ended, same, -⟩ := facts
  have all : t.blocksWritten = input := by
    rw [← same, ← conserved, coherent.eof ended, List.append_nil]
  exact ⟨writer, reader, by rw [State.stdout, all],
    removed.set (Or.inr (Or.inr writer)), removed.segment writer⟩

/-- From the state in which the writer has just read the one block. -/
theorem one_block_completes :
    ∃ s, s.writer.pc = .store 1 ∧
      StepSystem.Inevitable (transfer 4 [[72]]) (fun t : State =>
        t.writer.pc = .finished ∧ t.reader.pc = .finished ∧ t.stdout = [72] ∧
          t.semid = none ∧ t.linked = false) s := by
  have ends : (StepSystem.follow step [.writer, .writer] (initial [0, 0, 0, 0] 0 [[72]])).map
      (fun s => s.writer.pc) = some (.store 1) := by decide
  obtain ⟨s, run, place⟩ := Option.map_eq_some_iff.mp ends
  have start : (transfer 4 [[72]]).start (initial [0, 0, 0, 0] 0 [[72]]) := ⟨_, _, rfl, rfl⟩
  have reach : (transfer 4 [[72]]).Reachable s :=
    (StepSystem.Reachable.initial start).run (StepSystem.follow_run run)
  exact ⟨s, place, transfer_completes (by simp [Splitting]) reach⟩

end SharedMemoryTransfer
