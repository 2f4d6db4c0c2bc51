import NetworkSystemProgramming.RingBuffer.Layout

/-!
# The bounds of the copies

Where the producer and the consumers stand in the ring at the start of an iteration, which
bytes the copy of a message stores, and the buffers of 20, 40 and 30 bytes around it.
-/

namespace RingBuffer

open ByteBuffers ByteMemory StepSystems StepSystem Texts

/-- `seq_msg`: the number is printed to `seq`, and appended to the text in `msg1`. -/
def seqMsg (n : Nat) : Option (Buffer 40) :=
  ((Buffer.zero 20).strcpy (decimal n)).bind fun seq =>
    ((Buffer.zero 40).strcpy messageText).bind fun msg1 => msg1.strcat seq.str

/-- `split` with what `sprintf` has printed, and a NUL behind it. -/
def Consumer.splitBuffer (c : Consumer) : Option (Buffer 30) :=
  (Buffer.zero 30).put (c.split ++ [0])

/-- A byte of the text of slot `n % buf`, apart from the counter and the lock. -/
structure MessageByte (setup : Setup) (n a : Nat) : Prop where
  first : 80 * (n % setup.buf) ≤ a
  last : a < 80 * (n % setup.buf) + 27
  mapped : a < 80 * setup.buf
  counter : ∀ i < 4, a ≠ setup.counterAddr + i
  lock : ∀ i < 4, a ≠ setup.lockAddr + i

structure InBounds (setup : Setup) (s : State) : Prop where
  producer : ∀ n, s.producer.pc = .head n → s.producer.ptr = 80 * (n % setup.buf)
  consumer : ∀ c, (s.consumers c).pc = .test →
    (s.consumers c).ptr = 80 * ((s.consumers c).b % setup.buf)
  write : ∀ n j, s.producer.pc = .copy n j → ∀ t, producerStep setup s = some t →
    ∃ a byte, MessageByte setup n a ∧ t.shared.mem = store s.shared.mem a byte
  seqMsg : ∀ n, s.producer.pc = .head n → n < setup.dataNum →
    ∃ msg1, RingBuffer.seqMsg n = some msg1 ∧ msg1.str = message n
  split : ∀ c, ∃ split, (s.consumers c).splitBuffer = some split

variable {setup : Setup} {s t : State}

/-- The digits fit `seq`, and with the text `msg1`. -/
theorem seqMsg_str {n : Nat} (small : n < 2 ^ 31) :
    ∃ msg1, seqMsg n = some msg1 ∧ msg1.str = message n := by
  have digits := decimal_length small
  have text : messageText.length = 16 := rfl
  have clean : 0 ∉ decimal n := fun nul => message_clean n (List.mem_append_right _ nul)
  obtain ⟨seq, printed, seqHolds⟩ := (Buffer.zero 20).strcpy_holds clean (by omega)
  obtain ⟨msg1, copied, textHolds⟩ := (Buffer.zero 40).strcpy_holds (s := messageText) (by decide)
    (by decide)
  obtain ⟨all, appended, holds⟩ := Buffer.strcat_holds textHolds clean (by omega)
  refine ⟨all, ?_, holds.str⟩
  rw [seqMsg, printed, Option.bind_some, copied, Option.bind_some, seqHolds.str, appended]

/-- What a consumer has printed fits `split`. -/
theorem Consumer.Placed.splitBuffer {c : Consumer} (placed : c.Placed setup) :
    ∃ split, c.splitBuffer = some split := by
  have room : (c.split ++ [0]).length ≤ 30 := by
    have fits := placed.fits
    simp only [List.length_append, List.length_singleton, textRoom] at fits ⊢
    omega
  obtain ⟨split, put, -⟩ := (Buffer.zero 30).put_fits room
  exact ⟨split, put⟩

theorem Layout.messageByte {n j : Nat} (h : Layout setup s) (pc : s.producer.pc = .copy n j) :
    MessageByte setup n (s.producer.ptr + j) := by
  obtain ⟨room, ptr, -⟩ := h.target pc
  have slot := Nat.mod_lt n setup.buf_pos
  have buf_pos := setup.buf_pos
  rw [textRoom] at room
  constructor
  · omega
  · omega
  · omega
  · intro i
    rw [Setup.counterAddr]
    omega
  · intro i
    rw [Setup.lockAddr]
    omega

/-- A step of the copy stores one byte. -/
theorem ProducerMove.stores {n j : Nat} (move : ProducerMove setup s t)
    (pc : s.producer.pc = .copy n j) :
    t.shared.mem = store s.shared.mem (s.producer.ptr + j) ((message n).getD j 0) := by
  cases move with
  | copyByte n' j' here more =>
    obtain ⟨rfl, rfl⟩ := ProducerPc.copy.inj (pc.symm.trans here)
    rfl
  | copyEnd n' j' here =>
    obtain ⟨rfl, rfl⟩ := ProducerPc.copy.inj (pc.symm.trans here)
    rfl
  | clearLock here | fork _ here | forked _ here | body _ here | toWait _ here | acquire _ here
  | spin _ here | release _ here | send _ _ here | sent _ _ here | sleep _ here | reap _ here
  | finish _ here => cases pc.symm.trans here

theorem inBounds (reach : (ringBuffer setup).Reachable s) : InBounds setup s := by
  have h := layout reach
  constructor
  · intro n pc
    have ptr := h.producer.ptr
    rwa [pc] at ptr
  · intro c _
    exact (h.consumer c).ptr
  · intro n j pc t step
    exact ⟨_, _, h.messageByte pc, (producerStep_move step).stores pc⟩
  · intro n _ more
    exact seqMsg_str (more.trans setup.dataNum_int)
  · intro c
    exact (h.consumer c).splitBuffer

/-- The second iteration with a single slot. -/
theorem second_iteration_inBounds :
    ∃ s, s.producer.pc = .head 1 ∧ s.producer.ptr = 0 ∧ InBounds (twoMessages .plain) s := by
  have run : (follow (next (twoMessages .plain)) (List.replicate 24 Act.producer)
      (State.initial (twoMessages .plain))).map (fun s => (s.producer.pc, s.producer.ptr)) =
      some (.head 1, 0) := by decide +kernel
  obtain ⟨s, hs, at_⟩ := Option.map_eq_some_iff.mp run
  obtain ⟨pc, ptr⟩ := Prod.mk.inj at_
  exact ⟨s, pc, ptr, inBounds ((Reachable.initial rfl).run (follow_run hs))⟩

end RingBuffer
