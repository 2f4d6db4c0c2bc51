import NetworkSystemProgramming.SharedMemory.Transfer
import Mathlib.Tactic.Common

/-!
# The turn-taking invariant of the transfer

One semaphore unit circulates: it lies in `WRITE_SEM`, is held by the writer,
lies in `READ_SEM`, or is held by the reader. Whoever has it knows whether the
segment holds a block that is not yet written out. The facts attached to the
writer's program counter outlive its `releaseSem`, as it reads `cnt` twice more.
-/

namespace SharedMemoryTransfer

open ByteBuffers BinarySems StepSystems

namespace State
variable (s : State)

@[simp] theorem writerAt_writer (pc : WriterPc) :
    (s.writerAt pc).writer = ⟨pc, s.writer.bytes, s.writer.xfrs⟩ := rfl
@[simp] theorem writerAt_reader (pc : WriterPc) : (s.writerAt pc).reader = s.reader := rfl
@[simp] theorem writerAt_semid (pc : WriterPc) : (s.writerAt pc).semid = s.semid := rfl
@[simp] theorem writerAt_shmp (pc : WriterPc) : (s.writerAt pc).shmp = s.shmp := rfl
@[simp] theorem writerAt_stdin (pc : WriterPc) : (s.writerAt pc).stdin = s.stdin := rfl
@[simp] theorem writerAt_blocksRead (pc : WriterPc) :
    (s.writerAt pc).blocksRead = s.blocksRead := rfl
@[simp] theorem writerAt_blocksWritten (pc : WriterPc) :
    (s.writerAt pc).blocksWritten = s.blocksWritten := rfl
@[simp] theorem writerAt_eofSeen (pc : WriterPc) : (s.writerAt pc).eofSeen = s.eofSeen := rfl

@[simp] theorem readerAt_reader (pc : ReaderPc) :
    (s.readerAt pc).reader = ⟨pc, s.reader.bytes, s.reader.xfrs⟩ := rfl
@[simp] theorem readerAt_writer (pc : ReaderPc) : (s.readerAt pc).writer = s.writer := rfl
@[simp] theorem readerAt_semid (pc : ReaderPc) : (s.readerAt pc).semid = s.semid := rfl
@[simp] theorem readerAt_shmp (pc : ReaderPc) : (s.readerAt pc).shmp = s.shmp := rfl
@[simp] theorem readerAt_stdin (pc : ReaderPc) : (s.readerAt pc).stdin = s.stdin := rfl
@[simp] theorem readerAt_blocksRead (pc : ReaderPc) :
    (s.readerAt pc).blocksRead = s.blocksRead := rfl
@[simp] theorem readerAt_blocksWritten (pc : ReaderPc) :
    (s.readerAt pc).blocksWritten = s.blocksWritten := rfl
@[simp] theorem readerAt_eofSeen (pc : ReaderPc) : (s.readerAt pc).eofSeen = s.eofSeen := rfl

/-- The segment holds the block read last but not yet written, or the end mark. -/
def Holds (n : Int) : Prop :=
  (s.eofSeen = false ∧ ∃ block, block ≠ [] ∧ s.blocksRead = s.blocksWritten ++ [block] ∧
    n = block.length ∧ s.shmp.buf.take block.length = block) ∨
  (s.eofSeen = true ∧ s.blocksRead = s.blocksWritten ∧ n = 0)

theorem Holds.cnt_ok {s : State} {n : Int} (h : s.Holds n) : n ≠ -1 := by
  rcases h with ⟨_, block, _, _, hn, _⟩ | ⟨_, _, hn⟩
  · omega
  · omega

end State

/-- Semaphore units that a program counter stands for. -/
def WriterPc.units : WriterPc → Nat
  | .read | .store _ | .checkError | .release => 1
  | .removeSet | .unmap | .unlink | .finished => 1
  | _ => 0

def ReaderPc.units : ReaderPc → Nat
  | .testEof | .addBytes | .write | .release | .unmap | .lastRelease => 1
  | _ => 0

/-- What the writer's place in the program says about the shared data. -/
def WriterPc.Facts (s : State) : WriterPc → Prop
  | .reserve => s.eofSeen = false
  | .read => s.eofSeen = false ∧ s.blocksRead = s.blocksWritten
  | .store n => s.Holds n
  | .checkError | .release => s.Holds s.shmp.cnt
  | .testEof => s.eofSeen = true ↔ s.shmp.cnt = 0
  | .advance => s.eofSeen = false ∧ s.shmp.cnt ≠ 0
  | .lastReserve => s.eofSeen = true
  | .removeSet | .unmap | .unlink | .finished => s.reader.pc = .finished
  | .failed => False

def ReaderPc.Facts (s : State) : ReaderPc → Prop
  | .reserve | .advance => True
  | .testEof => s.Holds s.shmp.cnt
  | .addBytes | .write => s.Holds s.shmp.cnt ∧ s.shmp.cnt ≠ 0
  | .release => s.eofSeen = false ∧ s.blocksRead = s.blocksWritten
  | .unmap | .lastRelease | .finished =>
    s.eofSeen = true ∧ s.blocksRead = s.blocksWritten ∧ s.shmp.cnt = 0
  | .failed => False

/-- One unit circulates; whoever has it knows what the segment holds. -/
structure Coherent (s : State) : Prop where
  token : units s.semid WRITE_SEM + units s.semid READ_SEM +
    s.writer.pc.units + s.reader.pc.units = 1
  live : s.semid = none → s.writer.pc = .unmap ∨ s.writer.pc = .unlink ∨ s.writer.pc = .finished
  writer : s.writer.pc.Facts s
  reader : s.reader.pc.Facts s
  offered : units s.semid WRITE_SEM ≠ 0 →
    s.blocksRead = s.blocksWritten ∧ (s.eofSeen = true → s.reader.pc = .finished)
  filled : units s.semid READ_SEM ≠ 0 → s.Holds s.shmp.cnt
  eof : s.eofSeen = true → s.stdin = []
  rest : ∀ block ∈ s.stdin, block ≠ []

@[simp] theorem read_units_after_write (set : SemSet) (val : Nat) :
    units (some (semctlSetval set WRITE_SEM val)) READ_SEM = units (some set) READ_SEM :=
  units_other set val (by decide)

@[simp] theorem write_units_after_read (set : SemSet) (val : Nat) :
    units (some (semctlSetval set READ_SEM val)) WRITE_SEM = units (some set) WRITE_SEM :=
  units_other set val (by decide)

theorem Coherent.live_of {s : State} (h : Coherent s)
    (early : s.writer.pc ≠ .unmap ∧ s.writer.pc ≠ .unlink ∧ s.writer.pc ≠ .finished) :
    s.semid ≠ none := by
  intro gone
  rcases h.live gone with hpc | hpc | hpc
  · exact early.1 hpc
  · exact early.2.1 hpc
  · exact early.2.2 hpc

/-- While the writer has the unit, the reader waits or has ended. -/
theorem Coherent.reader_idle {s : State} (h : Coherent s) (has : s.writer.pc.units = 1) :
    s.reader.pc = .reserve ∨ s.reader.pc = .advance ∨ s.reader.pc = .finished := by
  have token := h.token
  have facts := h.reader
  cases hpc : s.reader.pc with
  | reserve => exact Or.inl rfl
  | advance => exact Or.inr (Or.inl rfl)
  | finished => exact Or.inr (Or.inr rfl)
  | failed => simp [hpc, ReaderPc.Facts] at facts
  | _ => simp only [hpc, ReaderPc.units] at token; omega

theorem Coherent.no_units {s : State} (h : Coherent s)
    (has : s.writer.pc.units = 1 ∨ s.reader.pc.units = 1) :
    units s.semid WRITE_SEM = 0 ∧ units s.semid READ_SEM = 0 := by
  have token := h.token
  rcases has with has | has
  · constructor <;> omega
  · constructor <;> omega

/-- Reader facts that survive the writer's changes of the segment. -/
theorem Coherent.reader_idle_facts {s t : State} (h : Coherent s)
    (has : s.writer.pc.units = 1) (same : t.reader = s.reader)
    (kept : s.eofSeen = true → t.eofSeen = true ∧ t.shmp.cnt = 0 ∧
      (s.blocksRead = s.blocksWritten → t.blocksRead = t.blocksWritten)) :
    t.reader.pc.Facts t := by
  have facts := h.reader
  rw [same]
  rcases h.reader_idle has with hpc | hpc | hpc
  · rw [hpc]; trivial
  · rw [hpc]; trivial
  · rw [hpc] at facts ⊢
    obtain ⟨he, hcnt, hsame⟩ := kept facts.1
    exact ⟨he, hsame facts.2.1, hcnt⟩

/-- A writer statement that touches only the writer's own data. -/
theorem Coherent.move_writer {s : State} (h : Coherent s) (w : Writer)
    (same : w.pc.units = s.writer.pc.units)
    (live : s.semid = none → w.pc = .unmap ∨ w.pc = .unlink ∨ w.pc = .finished)
    (facts : w.pc.Facts { s with writer := w }) : Coherent { s with writer := w } where
  token := by
    have token := h.token
    simp only [same]
    exact token
  live := live
  writer := facts
  reader := h.reader
  offered := h.offered
  filled := h.filled
  eof := h.eof
  rest := h.rest

/-- A reader statement that touches only the reader's own data. -/
theorem Coherent.move_reader {s : State} (h : Coherent s) (r : Reader)
    (same : r.pc.units = s.reader.pc.units) (open_ : s.reader.pc ≠ .finished)
    (facts : r.pc.Facts { s with reader := r }) : Coherent { s with reader := r } where
  token := by
    have token := h.token
    simp only [same]
    exact token
  live := h.live
  writer := by
    have facts := h.writer
    change s.writer.pc.Facts _
    cases hpc : s.writer.pc with
    | removeSet | unmap | unlink | finished =>
      rw [hpc] at facts
      exact absurd facts open_
    | _ =>
      rw [hpc] at facts
      exact facts
  reader := facts
  offered := fun hp => ⟨(h.offered hp).1, fun he => absurd ((h.offered hp).2 he) open_⟩
  filled := h.filled
  eof := h.eof
  rest := h.rest

/-- While the writer has the unit it may change what the unit guards. -/
theorem Coherent.change_held {s t : State} (h : Coherent s) (has : s.writer.pc.units = 1)
    (live : s.semid ≠ none) (semid : t.semid = s.semid) (reader : t.reader = s.reader)
    (keeps : t.writer.pc.units = 1) (facts : t.writer.pc.Facts t)
    (kept : s.eofSeen = true → t.eofSeen = true ∧ t.shmp.cnt = 0 ∧
      (s.blocksRead = s.blocksWritten → t.blocksRead = t.blocksWritten))
    (eof : t.eofSeen = true → t.stdin = []) (rest : ∀ block ∈ t.stdin, block ≠ []) :
    Coherent t := by
  have token := h.token
  obtain ⟨write, read⟩ := h.no_units (Or.inl has)
  rw [← semid] at token write read live
  exact {
    token := by
      rw [has] at token
      rw [reader, keeps]
      exact token
    live := fun gone => absurd gone live
    writer := facts
    reader := h.reader_idle_facts has reader kept
    offered := fun units => absurd write units
    filled := fun units => absurd read units
    eof := eof
    rest := rest }

/-- The writer takes the unit of the writers. -/
theorem Coherent.take_write {s : State} {set : SemSet} (h : Coherent s) (live : s.semid = some set)
    (free : 0 < units s.semid WRITE_SEM) (idle : s.writer.pc.units = 0) (w : Writer)
    (has : w.pc.units = 1) (facts : w.pc.Facts { s with writer := w }) :
    Coherent { s with
      semid := some (semctlSetval set WRITE_SEM (units s.semid WRITE_SEM - 1)), writer := w } := by
  have token := h.token
  rw [live] at token free
  exact {
    token := by
      simp [live, has]
      omega
    live := by simp
    writer := facts
    reader := h.reader
    offered := by
      simp [live]
      omega
    filled := by
      simp
      omega
    eof := h.eof
    rest := h.rest }

theorem writerStep_coherent {s t : State} (h : Coherent s) (step : writerStep s = some t) :
    Coherent t := by
  have token := h.token
  have facts := h.writer
  cases hpc : s.writer.pc with
  | reserve =>
    have hl := h.live_of (by simp [hpc])
    rw [hpc] at facts
    simp only [writerStep, hpc, reserveSem_andThen hl] at step
    obtain ⟨set, hs, free, rfl⟩ := step
    have same := (h.offered (Nat.ne_of_gt free)).1
    exact h.take_write hs free (by rw [hpc]; rfl) _ rfl ⟨facts, same⟩
  | read =>
    have hl := h.live_of (by simp [hpc])
    have has : s.writer.pc.units = 1 := by rw [hpc]; rfl
    rw [hpc] at facts
    have unseen (he : s.eofSeen = true) : False := by simp [facts.1] at he
    cases hin : s.stdin with
    | nil =>
      simp only [writerStep, hpc, hin, Option.some.injEq] at step
      subst t
      exact h.change_held has hl rfl rfl rfl (Or.inr ⟨rfl, facts.2, rfl⟩)
        (fun he => (unseen he).elim) (fun _ => rfl) (by simp)
    | cons block rest =>
      simp only [writerStep, hpc, hin, Option.some.injEq] at step
      subst t
      have nonempty : block ≠ [] := h.rest block (by simp [hin])
      refine h.change_held has hl rfl rfl rfl ?_ (fun he => (unseen he).elim)
        (fun he => (unseen he).elim) ?_
      · exact Or.inl ⟨facts.1, block, nonempty, by simp [facts.2], rfl, by simp⟩
      · intro b hb
        exact h.rest b (by rw [hin]; exact List.mem_cons_of_mem _ hb)
  | store n =>
    have hl := h.live_of (by simp [hpc])
    have has : s.writer.pc.units = 1 := by rw [hpc]; rfl
    rw [hpc] at facts
    simp only [writerStep, hpc, Option.some.injEq] at step
    subst t
    refine h.change_held has hl rfl rfl rfl facts ?_ h.eof h.rest
    intro he
    rcases facts with ⟨hno, _⟩ | ⟨_, _, hn⟩
    · simp [hno] at he
    · exact ⟨he, hn, id⟩
  | checkError =>
    have hl := h.live_of (by simp [hpc])
    rw [hpc] at facts
    simp only [writerStep, hpc, Option.some.injEq] at step
    subst t
    rw [if_neg (State.Holds.cnt_ok facts)]
    exact h.move_writer _ (by rw [hpc]; rfl) (fun gone => absurd gone hl) facts
  | release =>
    have hl := h.live_of (by simp [hpc])
    have has : s.writer.pc.units = 1 := by rw [hpc]; rfl
    obtain ⟨hw, hr⟩ := h.no_units (Or.inl has)
    rw [hpc] at facts token
    simp only [writerStep, hpc, releaseSem_andThen hl] at step
    obtain ⟨set, hs, rfl⟩ := step
    simp only [WriterPc.units, hs] at token hw hr
    exact {
      token := by simp [WriterPc.units, hs]; omega
      live := by simp
      writer := by
        rcases facts with ⟨hno, block, hne, _, hn, _⟩ | ⟨he, _, hn⟩
        · have hlen := List.length_pos_iff.mpr hne
          change s.eofSeen = true ↔ s.shmp.cnt = 0
          simp only [hno, Bool.false_eq_true, false_iff]
          omega
        · exact ⟨fun _ => hn, fun _ => he⟩
      reader := h.reader
      offered := by simp [hs]; omega
      filled := fun _ => facts
      eof := h.eof
      rest := h.rest }
  | testEof =>
    have hl := h.live_of (by simp [hpc])
    rw [hpc] at facts
    simp only [writerStep, hpc, Option.some.injEq] at step
    subst t
    by_cases hz : s.shmp.cnt = 0
    · simp only [if_pos hz]
      exact h.move_writer _ (by rw [hpc]; rfl) (fun gone => absurd gone hl) (facts.mpr hz)
    · simp only [if_neg hz]
      have more : s.eofSeen = false := by
        cases he : s.eofSeen with
        | false => rfl
        | true => exact absurd (facts.mp he) hz
      exact h.move_writer _ (by rw [hpc]; rfl) (fun gone => absurd gone hl) ⟨more, hz⟩
  | advance =>
    have hl := h.live_of (by simp [hpc])
    rw [hpc] at facts
    simp only [writerStep, hpc, Option.some.injEq] at step
    subst t
    exact h.move_writer _ (by rw [hpc]; rfl) (fun gone => absurd gone hl) facts.1
  | lastReserve =>
    have hl := h.live_of (by simp [hpc])
    rw [hpc] at facts
    simp only [writerStep, hpc, reserveSem_andThen hl] at step
    obtain ⟨set, hs, free, rfl⟩ := step
    have done := (h.offered (Nat.ne_of_gt free)).2 facts
    exact h.take_write hs free (by rw [hpc]; rfl) _ rfl done
  | removeSet =>
    have has : s.writer.pc.units = 1 := by rw [hpc]; rfl
    obtain ⟨hw, hr⟩ := h.no_units (Or.inl has)
    rw [hpc] at facts token
    simp only [writerStep, hpc, Option.some.injEq] at step
    subst t
    exact {
      token := by simpa [WriterPc.units, hw, hr] using token
      live := fun _ => Or.inl rfl
      writer := facts
      reader := h.reader
      offered := fun hp => absurd rfl hp
      filled := fun hp => absurd rfl hp
      eof := h.eof
      rest := h.rest }
  | unmap =>
    rw [hpc] at facts
    simp only [writerStep, hpc, Option.some.injEq] at step
    subst t
    exact h.move_writer _ (by rw [hpc]; rfl) (fun _ => Or.inr (Or.inl rfl)) facts
  | unlink =>
    rw [hpc] at facts
    simp only [writerStep, hpc, Option.some.injEq] at step
    subst t
    exact (show Coherent { s with linked := false } from ⟨h.token, h.live, h.writer, h.reader,
      h.offered, h.filled, h.eof, h.rest⟩).move_writer _ (by
        change _ = s.writer.pc.units; rw [hpc]; rfl) (fun _ => Or.inr (Or.inr rfl)) facts
  | finished => simp [writerStep, hpc] at step
  | failed => simp [writerStep, hpc] at step

/-- While the writer has no unit, its facts concern only the end mark and `cnt`. -/
theorem Coherent.writer_idle_facts {s t : State} (h : Coherent s)
    (idle : s.writer.pc.units = 0) (same : t.writer = s.writer)
    (eof : t.eofSeen = s.eofSeen) (cnt : t.shmp.cnt = s.shmp.cnt) : t.writer.pc.Facts t := by
  have facts := h.writer
  rw [same]
  cases hpc : s.writer.pc with
  | reserve | lastReserve => rw [hpc] at facts; exact eof.trans facts
  | testEof | advance =>
    rw [hpc] at facts
    simpa only [WriterPc.Facts, eof, cnt] using facts
  | failed => rw [hpc] at facts; exact facts.elim
  | _ => simp [hpc, WriterPc.units] at idle

/-- The set is still there while the reader runs. -/
theorem Coherent.live_for_reader {s : State} (h : Coherent s)
    (running : s.reader.pc ≠ .finished) : s.semid ≠ none := by
  intro gone
  have facts := h.writer
  rcases h.live gone with hpc | hpc | hpc
  · rw [hpc] at facts
    exact running facts
  · rw [hpc] at facts
    exact running facts
  · rw [hpc] at facts
    exact running facts

theorem readerStep_coherent {s t : State} (h : Coherent s) (step : readerStep s = some t) :
    Coherent t := by
  have token := h.token
  have facts := h.reader
  cases hpc : s.reader.pc with
  | reserve =>
    have hl := h.live_for_reader (by simp [hpc])
    rw [hpc] at token
    simp only [readerStep, hpc, reserveSem_andThen hl] at step
    obtain ⟨set, hs, hpos, rfl⟩ := step
    have idle : s.writer.pc.units = 0 := by omega
    simp only [ReaderPc.units, hs] at token hpos
    exact {
      token := by simp [ReaderPc.units, hs]; omega
      live := by simp
      writer := h.writer_idle_facts idle rfl rfl rfl
      reader := h.filled (by rw [hs]; omega)
      offered := by simp; omega
      filled := by simp [hs]; omega
      eof := h.eof
      rest := h.rest }
  | testEof =>
    rw [hpc] at facts
    simp only [readerStep, hpc, Option.some.injEq] at step
    subst t
    by_cases hz : s.shmp.cnt = 0
    · simp only [if_pos hz]
      refine h.move_reader _ (by rw [hpc]; rfl) (by simp [hpc]) ?_
      rcases facts with ⟨_, block, hne, _, hn, _⟩ | ⟨he, hsame, hn⟩
      · have hlen := List.length_pos_iff.mpr hne
        omega
      · exact ⟨he, hsame, hn⟩
    · simp only [if_neg hz]
      exact h.move_reader _ (by rw [hpc]; rfl) (by simp [hpc]) ⟨facts, hz⟩
  | addBytes =>
    rw [hpc] at facts
    simp only [readerStep, hpc, Option.some.injEq] at step
    subst t
    exact h.move_reader _ (by rw [hpc]; rfl) (by simp [hpc]) facts
  | write =>
    have hl := h.live_for_reader (by simp [hpc])
    have has : s.reader.pc.units = 1 := by rw [hpc]; rfl
    obtain ⟨hw, hr⟩ := h.no_units (Or.inr has)
    have idle : s.writer.pc.units = 0 := by omega
    rw [hpc] at facts token
    simp only [readerStep, hpc, Option.some.injEq] at step
    subst t
    rcases facts.1 with ⟨hno, block, hne, hread, hn, hbuf⟩ | ⟨_, _, hn⟩
    · exact {
        token := token
        live := fun gone => absurd gone hl
        writer := h.writer_idle_facts idle rfl rfl rfl
        reader := ⟨hno, by simp [hn, hbuf, hread]⟩
        offered := fun hp => absurd hw hp
        filled := fun hp => absurd hr hp
        eof := h.eof
        rest := h.rest }
    · exact absurd hn facts.2
  | release =>
    have hl := h.live_for_reader (by simp [hpc])
    have has : s.reader.pc.units = 1 := by rw [hpc]; rfl
    obtain ⟨hw, hr⟩ := h.no_units (Or.inr has)
    have idle : s.writer.pc.units = 0 := by omega
    rw [hpc] at facts token
    simp only [readerStep, hpc, releaseSem_andThen hl] at step
    obtain ⟨set, hs, rfl⟩ := step
    simp only [ReaderPc.units, hs] at token hw hr
    exact {
      token := by simp [ReaderPc.units, hs]; omega
      live := by simp
      writer := h.writer_idle_facts idle rfl rfl rfl
      reader := trivial
      offered := fun _ => ⟨facts.2, fun he => by simp [facts.1] at he⟩
      filled := by simp [hr]
      eof := h.eof
      rest := h.rest }
  | advance =>
    simp only [readerStep, hpc, Option.some.injEq] at step
    subst t
    exact h.move_reader _ (by rw [hpc]; rfl) (by simp [hpc]) trivial
  | unmap =>
    rw [hpc] at facts
    simp only [readerStep, hpc, Option.some.injEq] at step
    subst t
    exact h.move_reader _ (by rw [hpc]; rfl) (by simp [hpc]) facts
  | lastRelease =>
    have hl := h.live_for_reader (by simp [hpc])
    have has : s.reader.pc.units = 1 := by rw [hpc]; rfl
    obtain ⟨hw, hr⟩ := h.no_units (Or.inr has)
    have idle : s.writer.pc.units = 0 := by omega
    rw [hpc] at facts token
    simp only [readerStep, hpc, releaseSem_andThen hl] at step
    obtain ⟨set, hs, rfl⟩ := step
    simp only [ReaderPc.units, hs] at token hw hr
    exact {
      token := by simp [ReaderPc.units, hs]; omega
      live := by simp
      writer := h.writer_idle_facts idle rfl rfl rfl
      reader := facts
      offered := fun _ => ⟨facts.2.1, fun _ => rfl⟩
      filled := by simp [hr]
      eof := h.eof
      rest := h.rest }
  | finished => simp [readerStep, hpc] at step
  | failed => simp [readerStep, hpc] at step

end SharedMemoryTransfer
