import NetworkSystemProgramming.SharedMemory.TurnTaking
import NetworkSystemProgramming.Handoff

/-!
# The transfer copies its input

The two programs refine the handoff of blocks through one slot, so nothing is
lost, repeated or reordered. The counters are followed separately: the writer
adds `cnt` to `bytes` only after it has given the turn away, the reader adds it
before it writes the block out. `bytes` and `xfrs` are unbounded integers here.
-/

namespace SharedMemoryTransfer

open ByteBuffers BinarySems StepSystems

theorem initial_coherent {BUF_SIZE : Nat} {input : List (List Byte)}
    (split : Splitting BUF_SIZE input) (buf : List Byte) (cnt : Int) :
    Coherent (initial buf cnt input) where
  token := rfl
  live := by simp [initial]
  writer := rfl
  reader := trivial
  offered := fun _ => ⟨rfl, by simp [initial]⟩
  filled := fun hp => absurd rfl hp
  eof := by simp [initial]
  rest := fun block hb => List.ne_nil_of_length_pos (split block hb).1

theorem step_coherent {party : Party} {s t : State} (h : Coherent s)
    (step : step party s = some t) : Coherent t := by
  cases party with
  | writer => exact writerStep_coherent h step
  | reader => exact readerStep_coherent h step

theorem reachable_coherent {BUF_SIZE : Nat} {input : List (List Byte)}
    (split : Splitting BUF_SIZE input) {s : State}
    (h : (transfer BUF_SIZE input).Reachable s) : Coherent s := by
  refine h.invariant ?_ (fun _ _ _ => step_coherent)
  rintro r ⟨buf, cnt, _, rfl⟩
  exact initial_coherent split buf cnt

/-- Data bytes the writer has read but not yet added to `bytes`. -/
def State.uncounted (s : State) : Int :=
  match s.writer.pc with
  | .store n => n
  | .checkError | .release | .testEof | .advance => s.shmp.cnt
  | _ => 0

/-- Data bytes the reader has added to `bytes` but not yet written. -/
def State.announced (s : State) : Int :=
  match s.reader.pc with
  | .write => s.shmp.cnt
  | _ => 0

/-- The reader's last block before `xfrs++`. -/
def ReaderPc.unfinished : ReaderPc → Int
  | .release | .advance => 1
  | _ => 0

structure Counted (s : State) : Prop where
  sent : s.writer.bytes + s.uncounted = (s.consumed.length : Int)
  sentBlocks : s.writer.xfrs + (if s.uncounted = 0 then 0 else 1) = (s.blocksRead.length : Int)
  received : s.reader.bytes = (s.stdout.length : Int) + s.announced
  receivedBlocks : s.reader.xfrs + s.reader.pc.unfinished = (s.blocksWritten.length : Int)

theorem writerStep_counted {s t : State} (h : Coherent s) (c : Counted s)
    (step : writerStep s = some t) : Counted t := by
  obtain ⟨sent, sentBlocks, received, receivedBlocks⟩ := c
  have facts := h.writer
  cases hpc : s.writer.pc with
  | reserve =>
    have hl := h.live_of (by simp [hpc])
    simp only [writerStep, hpc, reserveSem_andThen hl] at step
    obtain ⟨set, hs, hpos, rfl⟩ := step
    simp only [State.uncounted, hpc] at sent sentBlocks
    exact ⟨sent, sentBlocks, received, receivedBlocks⟩
  | read =>
    simp only [State.uncounted, hpc] at sent sentBlocks
    cases hin : s.stdin with
    | nil =>
      simp only [writerStep, hpc, hin, Option.some.injEq] at step
      subst t
      exact ⟨sent, sentBlocks, received, receivedBlocks⟩
    | cons block rest =>
      simp only [writerStep, hpc, hin, Option.some.injEq] at step
      subst t
      have nonempty : block ≠ [] := h.rest block (by simp [hin])
      have hlen := List.length_pos_iff.mpr nonempty
      have hne : (block.length : Int) ≠ 0 := by omega
      refine ⟨?_, ?_, received, receivedBlocks⟩
      · simp [State.uncounted, State.consumed] at sent ⊢
        omega
      · simp [State.uncounted, nonempty] at sentBlocks ⊢
        omega
  | store n =>
    have has : s.writer.pc.units = 1 := by rw [hpc]; rfl
    simp only [State.uncounted, hpc] at sent sentBlocks
    simp only [writerStep, hpc, Option.some.injEq] at step
    subst t
    refine ⟨sent, sentBlocks, ?_, receivedBlocks⟩
    rcases h.reader_idle has with hr | hr | hr
    · simpa [State.announced, hr, State.stdout] using received
    · simpa [State.announced, hr, State.stdout] using received
    · simpa [State.announced, hr, State.stdout] using received
  | checkError =>
    rw [hpc] at facts
    simp only [State.uncounted, hpc] at sent sentBlocks
    simp only [writerStep, hpc, Option.some.injEq] at step
    subst t
    rw [if_neg (facts.cnt_ok)]
    exact ⟨sent, sentBlocks, received, receivedBlocks⟩
  | release =>
    have hl := h.live_of (by simp [hpc])
    simp only [State.uncounted, hpc] at sent sentBlocks
    simp only [writerStep, hpc, releaseSem_andThen hl] at step
    obtain ⟨set, hs, rfl⟩ := step
    exact ⟨sent, sentBlocks, received, receivedBlocks⟩
  | testEof =>
    simp only [State.uncounted, hpc] at sent sentBlocks
    simp only [writerStep, hpc, Option.some.injEq] at step
    subst t
    by_cases hz : s.shmp.cnt = 0
    · simp only [hz, if_true] at sent sentBlocks ⊢
      exact ⟨sent, sentBlocks, received, receivedBlocks⟩
    · rw [if_neg hz]
      exact ⟨sent, sentBlocks, received, receivedBlocks⟩
  | advance =>
    rw [hpc] at facts
    simp only [State.uncounted, hpc, if_neg facts.2] at sent sentBlocks
    simp only [writerStep, hpc, Option.some.injEq] at step
    subst t
    refine ⟨?_, ?_, received, receivedBlocks⟩
    · simpa [State.uncounted, State.consumed] using sent
    · simpa [State.uncounted] using sentBlocks
  | lastReserve =>
    have hl := h.live_of (by simp [hpc])
    simp only [writerStep, hpc, reserveSem_andThen hl] at step
    obtain ⟨set, hs, hpos, rfl⟩ := step
    simp only [State.uncounted, hpc] at sent sentBlocks
    exact ⟨sent, sentBlocks, received, receivedBlocks⟩
  | removeSet | unmap | unlink =>
    simp only [State.uncounted, hpc] at sent sentBlocks
    simp only [writerStep, hpc, Option.some.injEq] at step
    subst t
    exact ⟨sent, sentBlocks, received, receivedBlocks⟩
  | finished => simp [writerStep, hpc] at step
  | failed => simp [writerStep, hpc] at step

theorem readerStep_counted {s t : State} (h : Coherent s) (c : Counted s)
    (step : readerStep s = some t) : Counted t := by
  obtain ⟨sent, sentBlocks, received, receivedBlocks⟩ := c
  have facts := h.reader
  cases hpc : s.reader.pc with
  | reserve =>
    have hl := h.live_for_reader (by simp [hpc])
    simp only [readerStep, hpc, reserveSem_andThen hl] at step
    obtain ⟨set, hs, hpos, rfl⟩ := step
    simp only [State.announced, ReaderPc.unfinished, hpc] at received receivedBlocks
    exact ⟨sent, sentBlocks, received, receivedBlocks⟩
  | testEof =>
    simp only [State.announced, ReaderPc.unfinished, hpc] at received receivedBlocks
    simp only [readerStep, hpc, Option.some.injEq] at step
    subst t
    split
    · exact ⟨sent, sentBlocks, received, receivedBlocks⟩
    · exact ⟨sent, sentBlocks, received, receivedBlocks⟩
  | addBytes =>
    simp only [State.announced, ReaderPc.unfinished, hpc] at received receivedBlocks
    simp only [readerStep, hpc, Option.some.injEq] at step
    subst t
    refine ⟨sent, sentBlocks, ?_, receivedBlocks⟩
    simpa [State.announced, State.stdout] using received
  | write =>
    rw [hpc] at facts
    simp only [State.announced, ReaderPc.unfinished, hpc] at received receivedBlocks
    simp only [readerStep, hpc, Option.some.injEq] at step
    subst t
    rcases facts.1 with ⟨_, block, _, _, hn, hbuf⟩ | ⟨_, _, hn⟩
    · refine ⟨sent, sentBlocks, ?_, ?_⟩
      · simp [State.announced, State.stdout, hn, hbuf] at received ⊢
        omega
      · simp [ReaderPc.unfinished] at receivedBlocks ⊢
        omega
    · exact absurd hn facts.2
  | release =>
    have hl := h.live_for_reader (by simp [hpc])
    simp only [State.announced, ReaderPc.unfinished, hpc] at received receivedBlocks
    simp only [readerStep, hpc, releaseSem_andThen hl] at step
    obtain ⟨set, hs, rfl⟩ := step
    exact ⟨sent, sentBlocks, received, receivedBlocks⟩
  | advance =>
    simp only [State.announced, ReaderPc.unfinished, hpc] at received receivedBlocks
    simp only [readerStep, hpc, Option.some.injEq] at step
    subst t
    refine ⟨sent, sentBlocks, received, ?_⟩
    simpa [ReaderPc.unfinished] using receivedBlocks
  | unmap =>
    simp only [State.announced, ReaderPc.unfinished, hpc] at received receivedBlocks
    simp only [readerStep, hpc, Option.some.injEq] at step
    subst t
    exact ⟨sent, sentBlocks, received, receivedBlocks⟩
  | lastRelease =>
    have hl := h.live_for_reader (by simp [hpc])
    simp only [State.announced, ReaderPc.unfinished, hpc] at received receivedBlocks
    simp only [readerStep, hpc, releaseSem_andThen hl] at step
    obtain ⟨set, hs, rfl⟩ := step
    exact ⟨sent, sentBlocks, received, receivedBlocks⟩
  | finished => simp [readerStep, hpc] at step
  | failed => simp [readerStep, hpc] at step

theorem reachable_counted {BUF_SIZE : Nat} {input : List (List Byte)}
    (split : Splitting BUF_SIZE input) {s : State}
    (h : (transfer BUF_SIZE input).Reachable s) : Coherent s ∧ Counted s := by
  refine h.invariant (I := fun s => Coherent s ∧ Counted s) ?_ ?_
  · rintro r ⟨buf, cnt, _, rfl⟩
    exact ⟨initial_coherent split buf cnt, rfl, rfl, rfl, rfl⟩
  · rintro party r t ⟨coherent, counted⟩ step
    cases party with
    | writer => exact ⟨writerStep_coherent coherent step, writerStep_counted coherent counted step⟩
    | reader => exact ⟨readerStep_coherent coherent step, readerStep_counted coherent counted step⟩

/-- The transfer seen as blocks handed through one slot. -/
def Handed (s : State) (a : Handoff.State (List Byte)) : Prop :=
  Coherent s ∧ a.pending = s.stdin ∧ a.taken = s.blocksWritten ∧
    s.blocksRead = a.taken ++ a.slot.toList

/-- What a writer statement does to the histories: a `read` of a block after the
previous one is written out, or nothing. -/
theorem writerStep_histories {s t : State} (h : Coherent s) (step : writerStep s = some t) :
    (t.stdin = s.stdin ∧ t.blocksRead = s.blocksRead ∧ t.blocksWritten = s.blocksWritten) ∨
    ∃ block rest, s.stdin = block :: rest ∧ s.blocksRead = s.blocksWritten ∧ t.stdin = rest ∧
      t.blocksRead = s.blocksRead ++ [block] ∧ t.blocksWritten = s.blocksWritten := by
  have facts := h.writer
  cases hpc : s.writer.pc with
  | read =>
    rw [hpc] at facts
    cases hin : s.stdin with
    | nil =>
      simp only [writerStep, hpc, hin, Option.some.injEq] at step
      subst t
      exact Or.inl ⟨rfl, rfl, rfl⟩
    | cons block rest =>
      simp only [writerStep, hpc, hin, Option.some.injEq] at step
      subst t
      exact Or.inr ⟨block, rest, rfl, facts.2, rfl, rfl, rfl⟩
  | reserve | lastReserve =>
    have hl := h.live_of (by simp [hpc])
    simp only [writerStep, hpc, reserveSem_andThen hl] at step
    obtain ⟨set, _, _, rfl⟩ := step
    exact Or.inl ⟨rfl, rfl, rfl⟩
  | release =>
    have hl := h.live_of (by simp [hpc])
    simp only [writerStep, hpc, releaseSem_andThen hl] at step
    obtain ⟨set, _, rfl⟩ := step
    exact Or.inl ⟨rfl, rfl, rfl⟩
  | finished => simp [writerStep, hpc] at step
  | failed => simp [writerStep, hpc] at step
  | _ =>
    simp only [writerStep, hpc, Option.some.injEq] at step
    subst t
    exact Or.inl ⟨rfl, rfl, rfl⟩

/-- What a reader statement does to the histories: a `write` of the one block that is
read but not written, or nothing. -/
theorem readerStep_histories {s t : State} (h : Coherent s) (step : readerStep s = some t) :
    (t.stdin = s.stdin ∧ t.blocksRead = s.blocksRead ∧ t.blocksWritten = s.blocksWritten) ∨
    ∃ block, s.blocksRead = s.blocksWritten ++ [block] ∧ t.stdin = s.stdin ∧
      t.blocksRead = s.blocksRead ∧ t.blocksWritten = s.blocksWritten ++ [block] := by
  have facts := h.reader
  cases hpc : s.reader.pc with
  | write =>
    rw [hpc] at facts
    simp only [readerStep, hpc, Option.some.injEq] at step
    subst t
    rcases facts.1 with ⟨_, block, _, hread, hn, hbuf⟩ | ⟨_, _, hn⟩
    · exact Or.inr ⟨block, hread, rfl, rfl, by simp [hn, hbuf]⟩
    · exact absurd hn facts.2
  | reserve =>
    have hl := h.live_for_reader (by simp [hpc])
    simp only [readerStep, hpc, reserveSem_andThen hl] at step
    obtain ⟨set, _, _, rfl⟩ := step
    exact Or.inl ⟨rfl, rfl, rfl⟩
  | release | lastRelease =>
    have hl := h.live_for_reader (by simp [hpc])
    simp only [readerStep, hpc, releaseSem_andThen hl] at step
    obtain ⟨set, _, rfl⟩ := step
    exact Or.inl ⟨rfl, rfl, rfl⟩
  | finished => simp [readerStep, hpc] at step
  | failed => simp [readerStep, hpc] at step
  | _ =>
    simp only [readerStep, hpc, Option.some.injEq] at step
    subst t
    exact Or.inl ⟨rfl, rfl, rfl⟩

/-- The two programs refine the handoff of the input blocks through one slot. -/
theorem transfer_refines_handoff {BUF_SIZE : Nat} {input : List (List Byte)}
    (split : Splitting BUF_SIZE input) :
    StepSystem.Simulates (transfer BUF_SIZE input) (Handoff.handoff input) Handed where
  start := by
    rintro s ⟨buf, cnt, _, rfl⟩
    exact ⟨_, rfl, initial_coherent split buf cnt, rfl, rfl, rfl⟩
  step := by
    rintro party s t ⟨pending, slot, taken⟩ ⟨coherent, hp, ht, hr⟩ step
    have coherent' := step_coherent coherent step
    simp only at hp ht hr
    subst hp ht
    cases party with
    | writer =>
      rcases writerStep_histories coherent step with ⟨h1, h2, h3⟩ | ⟨block, rest, hin, he, h1, h2, h3⟩
      · exact ⟨_, .refl _, coherent', h1.symm, h3.symm, by rw [h2, hr]⟩
      · have empty : slot = none := by
          cases slot with
          | none => rfl
          | some b => rw [hr] at he; simp at he
        subst empty
        refine ⟨⟨rest, some block, s.blocksWritten⟩, .snoc (l := .put) (.refl _) ?_,
          coherent', h1.symm, h3.symm, by simp [h2, hr]⟩
        rw [hin]
        rfl
    | reader =>
      rcases readerStep_histories coherent step with ⟨h1, h2, h3⟩ | ⟨block, he, h1, h2, h3⟩
      · exact ⟨_, .refl _, coherent', h1.symm, h3.symm, by rw [h2, hr]⟩
      · have full : slot = some block := by
          cases slot with
          | none => rw [hr] at he; simp at he
          | some b => rw [hr] at he; simpa using he
        subst full
        exact ⟨⟨s.stdin, none, s.blocksWritten ++ [block]⟩, .snoc (l := .take) (.refl _) rfl,
          coherent', h1.symm, h3.symm, by simp [h2, he]⟩

/-- Bytes written are a prefix of bytes read, block by block; the critical sections
exclude each other; and at the end all the input is copied and the counters agree. -/
theorem transfer_copies_input {BUF_SIZE : Nat} {input : List (List Byte)}
    (split : Splitting BUF_SIZE input) {s : State}
    (h : (transfer BUF_SIZE input).Reachable s) :
    s.stdout <+: s.consumed ∧ s.blocksWritten <+: s.blocksRead ∧ s.blocksRead <+: input ∧
    ¬ (s.writer.pc.holding ∧ s.reader.pc.holding) ∧
    (s.writer.pc = .finished → s.reader.pc = .finished →
      s.stdout = input.flatten ∧ s.writer.bytes = s.reader.bytes ∧
      s.writer.xfrs = s.reader.xfrs) := by
  obtain ⟨coherent, counted⟩ := reachable_counted split h
  obtain ⟨a, ha, _, hp, ht, hr⟩ := (transfer_refines_handoff split).reachable h
  have conserved := Handoff.handoff_conserves ha
  rw [← hr, hp] at conserved
  have blocks : s.blocksWritten <+: s.blocksRead := ⟨a.slot.toList, by rw [← ht, hr]⟩
  refine ⟨?_, blocks, ⟨s.stdin, conserved⟩, ?_, ?_⟩
  · obtain ⟨tail, htail⟩ := blocks
    exact ⟨tail.flatten, by simp [State.stdout, State.consumed, ← htail]⟩
  · rintro ⟨hw, hr⟩
    have token := coherent.token
    have wu : s.writer.pc.units = 1 := by
      cases hpc : s.writer.pc <;> simp [hpc, WriterPc.holding, WriterPc.units] at hw ⊢
    have ru : s.reader.pc.units = 1 := by
      cases hpc : s.reader.pc <;> simp [hpc, ReaderPc.holding, ReaderPc.units] at hr ⊢
    omega
  · intro hw hr
    have facts := coherent.reader
    rw [hr] at facts
    obtain ⟨he, same, _⟩ := facts
    have all : s.blocksWritten = input := by
      rw [← same, ← conserved, coherent.eof he, List.append_nil]
    obtain ⟨sent, sentBlocks, received, receivedBlocks⟩ := counted
    simp only [State.uncounted, State.announced, ReaderPc.unfinished, hw, hr, if_true]
      at sent sentBlocks received receivedBlocks
    refine ⟨by rw [State.stdout, all], ?_, ?_⟩
    · simp only [State.consumed, State.stdout, same] at sent received
      omega
    · rw [same] at sentBlocks
      omega

private def twoBlocks : List (List Byte) := [[72], [105, 33]]

/-- Strict alternation of the two programs on two blocks, up to both exits. -/
private def twoBlocksSchedule : List Party :=
  List.replicate 7 Party.writer ++ List.replicate 6 Party.reader ++ List.replicate 7 Party.writer ++
    List.replicate 6 Party.reader ++ List.replicate 6 Party.writer ++ List.replicate 4 Party.reader ++
    List.replicate 4 Party.writer

theorem transfer_copies_two_blocks :
    ∃ s, (transfer 4 [[72], [105, 33]]).Reachable s ∧ s.writer.pc = .finished ∧
      s.stdout = [72, 105, 33] ∧ s.writer.bytes = s.reader.bytes ∧
      s.writer.xfrs = s.reader.xfrs := by
  have ends : (StepSystem.follow step twoBlocksSchedule (initial [0, 0, 0, 0] 0 twoBlocks)).map
      (fun s => (s.writer.pc, s.reader.pc)) = some (.finished, .finished) := by decide
  obtain ⟨s, hs, hpc⟩ := Option.map_eq_some_iff.mp ends
  obtain ⟨hw, hr⟩ := Prod.mk.inj hpc
  have start : (transfer 4 twoBlocks).start (initial [0, 0, 0, 0] 0 twoBlocks) :=
    ⟨_, _, rfl, rfl⟩
  have reach : (transfer 4 twoBlocks).Reachable s :=
    (StepSystem.Reachable.initial start).run (StepSystem.follow_run hs)
  have split : Splitting 4 twoBlocks := by simp [Splitting, twoBlocks]
  obtain ⟨_, _, _, _, atEnd⟩ := transfer_copies_input split reach
  exact ⟨s, reach, hw, atEnd hw hr⟩

end SharedMemoryTransfer
