import NetworkSystemProgramming.SharedMemory.Delivery

/-!
# Teardown of the transfer

The shutdown turns of the two programs: after end-of-file the reader makes one
extra release and the writer one extra reserve. Once the reader has made its
extra release no unit lies in `READ_SEM` and the writer is past its last
`releaseSem`, so the one unit left is the one that the writer's cleanup takes.
-/

namespace SharedMemoryTransfer

open ByteBuffers BinarySems StepSystems

/-- From the end-of-file test on, where the writer calls `releaseSem` no more
when that test succeeds. -/
def WriterPc.closing : WriterPc → Prop
  | .testEof | .lastReserve | .removeSet | .unmap | .unlink | .finished => True
  | _ => False

/-- What the reader's extra release leaves behind. -/
structure Closed (s : State) : Prop where
  readEmpty : units s.semid READ_SEM = 0
  writer : s.writer.pc.closing

theorem reader_closes {s t : State} (h : Coherent s) (before : s.reader.pc ≠ .finished)
    (step : readerStep s = some t) (after : t.reader.pc = .finished) : Closed t := by
  have token := h.token
  have live := h.live_for_reader before
  cases hpc : s.reader.pc with
  | lastRelease =>
    have facts := h.reader
    have writer := h.writer
    rw [hpc] at facts token
    simp only [readerStep, hpc, releaseSem_andThen live] at step
    obtain ⟨set, hs, rfl⟩ := step
    simp only [ReaderPc.units, hs] at token
    have empty : units (some set) READ_SEM = 0 := by omega
    constructor
    · simpa using empty
    · change s.writer.pc.closing
      cases wpc : s.writer.pc with
      | reserve | advance =>
        -- both are reached with more input to come, and the reader has seen its end
        simp [wpc, WriterPc.Facts, facts.1] at writer
      | failed => simp [wpc, WriterPc.Facts] at writer
      | testEof | lastReserve => trivial
      | _ => simp only [wpc, WriterPc.units] at token; omega
  | reserve =>
    simp only [readerStep, hpc, reserveSem_andThen live] at step
    obtain ⟨set, -, -, rfl⟩ := step
    cases after
  | release =>
    simp only [readerStep, hpc, releaseSem_andThen live] at step
    obtain ⟨set, -, rfl⟩ := step
    cases after
  | testEof =>
    simp only [readerStep, hpc, Option.some.injEq] at step
    subst t
    simp only [State.readerAt_reader] at after
    split at after
    · cases after
    · cases after
  | addBytes | write | advance | unmap =>
    simp only [readerStep, hpc, Option.some.injEq] at step
    subst t
    cases after
  | finished => exact absurd hpc before
  | failed => simp [readerStep, hpc] at step

theorem writer_stays_closed {s t : State} (h : Coherent s) (closed : Closed s)
    (reader : s.reader.pc = .finished) (step : writerStep s = some t) : Closed t := by
  have writer := h.writer
  have place := closed.writer
  have empty := closed.readEmpty
  cases hpc : s.writer.pc with
  | testEof =>
    have facts := h.reader
    rw [reader] at facts
    simp only [writerStep, hpc, Option.some.injEq] at step
    subst t
    rw [if_pos facts.2.2]
    exact ⟨empty, trivial⟩
  | lastReserve =>
    have live := h.live_of (by simp [hpc])
    simp only [writerStep, hpc, reserveSem_andThen live] at step
    obtain ⟨set, hs, -, rfl⟩ := step
    rw [hs] at empty
    exact ⟨by simpa using empty, trivial⟩
  | removeSet | unmap | unlink =>
    simp only [writerStep, hpc, Option.some.injEq] at step
    subst t
    exact ⟨by first | exact empty | rfl, trivial⟩
  | finished => simp [writerStep, hpc] at step
  | _ => simp [hpc, WriterPc.closing] at place

/-- A writer statement leaves the reader alone, and only its last one unlinks the segment. -/
theorem writerStep_frame {s t : State} (step : writerStep s = some t) :
    t.reader = s.reader ∧ (t.linked = s.linked ∨ t.writer.pc = .finished) ∧
      s.writer.pc ≠ .finished := by
  cases hpc : s.writer.pc with
  | reserve | release | lastReserve =>
    simp only [writerStep, hpc, Semop.andThen] at step
    split at step
    · cases step; exact ⟨rfl, Or.inl rfl, by simp⟩
    · cases step
    · cases step; exact ⟨rfl, Or.inl rfl, by simp⟩
  | read =>
    cases hin : s.stdin with
    | nil =>
      simp only [writerStep, hpc, hin, Option.some.injEq] at step
      subst t
      exact ⟨rfl, Or.inl rfl, by simp⟩
    | cons block rest =>
      simp only [writerStep, hpc, hin, Option.some.injEq] at step
      subst t
      exact ⟨rfl, Or.inl rfl, by simp⟩
  | unlink =>
    simp only [writerStep, hpc, Option.some.injEq] at step
    subst t
    exact ⟨rfl, Or.inr rfl, by simp⟩
  | finished | failed => simp [writerStep, hpc] at step
  | _ =>
    simp only [writerStep, hpc, Option.some.injEq] at step
    subst t
    exact ⟨rfl, Or.inl rfl, by simp⟩

theorem readerStep_frame {s t : State} (step : readerStep s = some t) :
    t.writer = s.writer ∧ t.linked = s.linked ∧ s.reader.pc ≠ .finished := by
  cases hpc : s.reader.pc with
  | reserve | release | lastRelease =>
    simp only [readerStep, hpc, Semop.andThen] at step
    split at step
    · cases step; exact ⟨rfl, rfl, by simp⟩
    · cases step
    · cases step; exact ⟨rfl, rfl, by simp⟩
  | finished | failed => simp [readerStep, hpc] at step
  | _ =>
    simp only [readerStep, hpc, Option.some.injEq] at step
    subst t
    exact ⟨rfl, rfl, by simp⟩

/-- The facts about the end of the transfer that every reachable state has. -/
structure Ending (s : State) : Prop where
  closed : s.reader.pc = .finished → Closed s
  linked : s.linked = false → s.writer.pc = .finished

theorem step_ending {party : Party} {s t : State} (h : Coherent s) (ending : Ending s)
    (moves : step party s = some t) : Ending t := by
  cases party with
  | reader =>
    obtain ⟨same, linked, before⟩ := readerStep_frame moves
    constructor
    · exact reader_closes h before moves
    · rw [same, linked]
      exact ending.linked
  | writer =>
    obtain ⟨same, linked, before⟩ := writerStep_frame moves
    constructor
    · intro after
      rw [same] at after
      exact writer_stays_closed h (ending.closed after) after moves
    · intro gone
      rcases linked with kept | done
      · exact absurd (ending.linked (kept ▸ gone)) before
      · exact done

theorem reachable_ending {BUF_SIZE : Nat} {input : List (List Byte)}
    (split : Splitting BUF_SIZE input) {s : State}
    (h : (transfer BUF_SIZE input).Reachable s) : Coherent s ∧ Ending s := by
  refine h.invariant (I := fun s => Coherent s ∧ Ending s) ?_ ?_
  · rintro r ⟨buf, cnt, -, rfl⟩
    refine ⟨initial_coherent split buf cnt, ?_⟩
    constructor
    · intro finished
      cases finished
    · intro gone
      cases gone
  · rintro party r t ⟨coherent, ending⟩ moves
    exact ⟨step_coherent coherent moves, step_ending coherent ending moves⟩

/-- Before its end the writer waits only for its unit. -/
theorem writer_waits {s : State} (h : Coherent s) (waits : writerStep s = none) :
    s.writer.pc = .finished ∨ s.writer.pc.units = 0 ∧ units s.semid WRITE_SEM = 0 := by
  cases hpc : s.writer.pc with
  | finished => exact Or.inl rfl
  | failed =>
    have facts := h.writer
    simp [hpc, WriterPc.Facts] at facts
  | reserve | lastReserve =>
    have live := h.live_of (by simp [hpc])
    simp only [writerStep, hpc] at waits
    exact Or.inr ⟨rfl, reserveSem_waits live waits⟩
  | release =>
    have live := h.live_of (by simp [hpc])
    simp only [writerStep, hpc] at waits
    exact absurd waits (releaseSem_moves live)
  | read =>
    cases hin : s.stdin with
    | nil => simp [writerStep, hpc, hin] at waits
    | cons block rest => simp [writerStep, hpc, hin] at waits
  | _ => simp [writerStep, hpc] at waits

theorem reader_waits {s : State} (h : Coherent s) (waits : readerStep s = none) :
    s.reader.pc = .finished ∨ s.reader.pc.units = 0 ∧ units s.semid READ_SEM = 0 := by
  cases hpc : s.reader.pc with
  | finished => exact Or.inl rfl
  | failed =>
    have facts := h.reader
    simp [hpc, ReaderPc.Facts] at facts
  | reserve =>
    have live := h.live_for_reader (by simp [hpc])
    simp only [readerStep, hpc] at waits
    exact Or.inr ⟨rfl, reserveSem_waits live waits⟩
  | release | lastRelease =>
    have live := h.live_for_reader (by simp [hpc])
    simp only [readerStep, hpc] at waits
    exact absurd waits (releaseSem_moves live)
  | _ => simp [readerStep, hpc] at waits

/-- The one unit lies where a party that is still running waits for it. -/
theorem some_party_moves {s : State} (h : Coherent s) (ending : Ending s)
    (running : ¬ (s.writer.pc = .finished ∧ s.reader.pc = .finished)) :
    ∃ party t, step party s = some t := by
  by_contra stuck
  simp only [not_exists] at stuck
  have writer := writer_waits h (Option.eq_none_iff_forall_ne_some.mpr (stuck .writer))
  have reader := reader_waits h (Option.eq_none_iff_forall_ne_some.mpr (stuck .reader))
  have token := h.token
  have readerUnits : s.reader.pc.units = 0 ∧ units s.semid READ_SEM = 0 := by
    rcases reader with finished | waiting
    · exact ⟨by rw [finished]; rfl, (ending.closed finished).readEmpty⟩
    · exact waiting
  rcases writer with finished | waiting
  · have facts := h.writer
    rw [finished] at facts
    exact running ⟨finished, facts⟩
  · omega

/-- The cleanup calls of the writer. -/
def WriterPc.removing : WriterPc → Prop
  | .removeSet | .unmap | .unlink | .finished => True
  | _ => False

/-- No reachable state before both ends is stuck; the writer cleans up only after the
reader's last release; the reader works on a set and a segment that are both there;
and no call of either party fails. -/
theorem teardown_after_reader {BUF_SIZE : Nat} {input : List (List Byte)}
    (split : Splitting BUF_SIZE input) {s : State}
    (h : (transfer BUF_SIZE input).Reachable s) :
    (¬ (s.writer.pc = .finished ∧ s.reader.pc = .finished) →
      ¬ StepSystem.Stuck (transfer BUF_SIZE input) s) ∧
    (s.writer.pc.removing ∨ s.semid = none ∨ s.linked = false → s.reader.pc = .finished) ∧
    (∀ t, (transfer BUF_SIZE input).step .reader s t → s.semid ≠ none ∧ s.linked = true) ∧
    s.writer.pc ≠ .failed ∧ s.reader.pc ≠ .failed := by
  obtain ⟨coherent, ending⟩ := reachable_ending split h
  have writer := coherent.writer
  have last : s.writer.pc.removing ∨ s.semid = none ∨ s.linked = false →
      s.reader.pc = .finished := by
    have cleaning : s.writer.pc.removing → s.reader.pc = .finished := by
      intro removing
      cases hpc : s.writer.pc with
      | removeSet | unmap | unlink | finished =>
        rw [hpc] at writer
        exact writer
      | _ => simp [hpc, WriterPc.removing] at removing
    rintro (removing | gone | unlinked)
    · exact cleaning removing
    · apply cleaning
      rcases coherent.live gone with hpc | hpc | hpc
      all_goals rw [hpc]; trivial
    · apply cleaning
      rw [ending.linked unlinked]
      trivial
  refine ⟨?_, last, ?_, ?_, ?_⟩
  · intro running stuck
    obtain ⟨party, t, moves⟩ := some_party_moves coherent ending running
    exact stuck party t moves
  · intro t moves
    have running := (readerStep_frame moves).2.2
    constructor
    · exact coherent.live_for_reader running
    · rw [← Bool.not_eq_false]
      intro unlinked
      exact running (last (Or.inr (Or.inr unlinked)))
  · intro hpc
    rw [hpc] at writer
    exact writer
  · intro hpc
    have reader := coherent.reader
    rw [hpc] at reader
    exact reader

private def oneBlock : List (List Byte) := [[72]]

/-- The reader has written the block and end-of-file is announced to it. -/
private def toLastTurn : List Party :=
  List.replicate 7 Party.writer ++ List.replicate 6 Party.reader ++ List.replicate 6 Party.writer ++
    List.replicate 3 Party.reader

theorem teardown_of_one_block :
    ∃ s, (transfer 4 [[72]]).Reachable s ∧ s.writer.pc = .lastReserve ∧
      s.reader.pc = .lastRelease ∧ ¬ StepSystem.Stuck (transfer 4 [[72]]) s ∧ s.linked = true := by
  have ends : (StepSystem.follow step toLastTurn (initial [0, 0, 0, 0] 0 oneBlock)).map
      (fun s => (s.writer.pc, s.reader.pc)) = some (.lastReserve, .lastRelease) := by decide
  obtain ⟨s, hs, hpc⟩ := Option.map_eq_some_iff.mp ends
  obtain ⟨hw, hr⟩ := Prod.mk.inj hpc
  have start : (transfer 4 oneBlock).start (initial [0, 0, 0, 0] 0 oneBlock) := ⟨_, _, rfl, rfl⟩
  have reach : (transfer 4 oneBlock).Reachable s :=
    (StepSystem.Reachable.initial start).run (StepSystem.follow_run hs)
  have split : Splitting 4 oneBlock := by simp [Splitting, oneBlock]
  obtain ⟨moving, last, _, _, _⟩ := teardown_after_reader split reach
  refine ⟨s, reach, hw, hr, moving (by simp [hw]), ?_⟩
  rw [← Bool.not_eq_false]
  intro unlinked
  have finished := last (Or.inr (Or.inr unlinked))
  rw [hr] at finished
  cases finished

end SharedMemoryTransfer
