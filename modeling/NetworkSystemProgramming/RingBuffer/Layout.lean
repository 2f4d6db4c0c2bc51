import NetworkSystemProgramming.RingBuffer.Moves

/-!
# The layout of the ring

A message and its NUL take at most 27 of the 80 bytes of a slot. So the bytes
up to the counter stay zero, no copy reads or writes the counter or the lock, and
`split` has room for what is copied into it.
-/

namespace RingBuffer

open ByteBuffers ByteMemory StepSystems StepSystem Texts

/-- The longest message. -/
def textRoom : Nat := 26

variable {setup : Setup}

/-! ## Messages -/

theorem message_length {n : Nat} (small : n < 2 ^ 31) : (message n).length ≤ textRoom := by
  have digits := decimal_length small
  have text : messageText.length = 16 := rfl
  simp only [message, List.length_append, textRoom]
  omega

theorem message_clean (n : Nat) : 0 ∉ message n := by
  intro member
  rcases List.mem_append.mp member with text | digit
  · revert text
    decide
  · exact decimal_clean n digit

/-! ## The invariant -/

/-- The next slot of the ring. -/
theorem ring_next {buf ptr n : Nat} (buf_pos : 1 ≤ buf) (h : ptr = 80 * (n % buf)) :
    (if n % buf = buf - 1 then 0 else ptr + 80) = 80 * ((n + 1) % buf) := by
  have bound := Nat.mod_lt n buf_pos
  have split := Nat.mod_add_div n buf
  by_cases last : n % buf = buf - 1
  · have whole : n + 1 = buf * (n / buf + 1) := by rw [Nat.mul_add]; omega
    simp [last, whole]
  · have more : n + 1 = n % buf + 1 + buf * (n / buf) := by omega
    have small : (n + 1) % buf = n % buf + 1 := by
      rw [more, Nat.add_mul_mod_self_left]
      exact Nat.mod_eq_of_lt (by omega)
    simp only [last, if_false, small, h]
    omega

/-- The number of the message that the producer is at. -/
def ProducerPc.number (setup : Setup) : ProducerPc → Nat
  | .clearLock | .fork _ => 0
  | .head n | .lock n | .copy n _ | .unlock n | .send n _ | .sleep n => n
  | .wait _ | .finished => setup.dataNum

/-- Inside the body of the producer's loop. -/
def ProducerPc.inBody : ProducerPc → Bool
  | .lock _ | .copy _ _ | .unlock _ | .send _ _ | .sleep _ => true
  | _ => false

structure Producer.Placed (setup : Setup) (p : Producer) : Prop where
  number : p.pc.number setup ≤ setup.dataNum
  inBody : p.pc.inBody → p.pc.number setup < setup.dataNum
  ptr : p.ptr = 80 * (p.pc.number setup % setup.buf)
  copied : ∀ n j, p.pc = .copy n j → j ≤ (message n).length

/-- Before `split` ends with a newline. -/
def ConsumerPc.reading : ConsumerPc → Bool
  | .lock | .copy => true
  | _ => false

structure Consumer.Placed (setup : Setup) (c : Consumer) : Prop where
  ptr : c.ptr = 80 * (c.b % setup.buf)
  reading : c.pc.reading → c.split.length ≤ textRoom
  fits : c.split.length ≤ textRoom + 1

structure Layout (setup : Setup) (s : State) : Prop where
  producer : s.producer.Placed setup
  consumer : ∀ c, (s.consumers c).Placed setup
  zeros : ∀ k j, textRoom ≤ j → j < 40 → s.shared.mem (80 * k + j) = 0

/-- What holds on both ways into the copying holds after the entry of either version. -/
theorem Version.enter_of {A : Type} {P : A → Prop} (version : Version) {locking copying : A}
    (lock : P locking) (copy : P copying) : P (version.enter locking copying) := by
  cases version with
  | plain => exact copy
  | enhanced => exact lock

/-! ## The processes -/

variable {s t : State} {c c' : Consumer} {shared shared' : Shared}

theorem ProducerMove.placed (move : ProducerMove setup s t) (placed : s.producer.Placed setup) :
    t.producer.Placed setup := by
  obtain ⟨number, inBody, ptr, copied⟩ := placed
  cases move with
  | clearLock pc | fork _ pc | forked _ pc =>
    rw [pc] at number ptr
    exact ⟨number, nofun, ptr, nofun⟩
  | body n pc more =>
    rw [pc] at ptr
    apply setup.version.enter_of (P := fun next =>
      Producer.Placed setup { s.producer with pc := next })
    · exact ⟨more.le, fun _ => more, ptr, nofun⟩
    · refine ⟨more.le, fun _ => more, ptr, ?_⟩
      rintro n j ⟨⟩
      exact Nat.zero_le _
  | toWait n pc done =>
    rw [pc] at number ptr
    have last : n = setup.dataNum := Nat.le_antisymm number (Nat.le_of_not_lt done)
    have whole : s.producer.ptr = 80 * (setup.dataNum % setup.buf) := last ▸ ptr
    exact ⟨le_refl _, nofun, whole, nofun⟩
  | acquire n pc =>
    rw [pc] at number inBody ptr
    refine ⟨number, inBody, ptr, ?_⟩
    rintro n j ⟨⟩
    exact Nat.zero_le _
  | spin => exact ⟨number, inBody, ptr, copied⟩
  | copyByte n j pc more =>
    rw [pc] at number inBody ptr
    refine ⟨number, inBody, ptr, ?_⟩
    rintro n j ⟨⟩
    exact more
  | copyEnd n j pc =>
    rw [pc] at number inBody ptr
    apply setup.version.enter_of (P := fun next => Producer.Placed setup { s.producer with
      pc := next
      written := s.producer.written ++ [(s.producer.ptr / 80, message n)] })
    · exact ⟨number, inBody, ptr, nofun⟩
    · exact ⟨number, inBody, ptr, nofun⟩
  | release _ pc | send _ _ pc | sent _ _ pc =>
    rw [pc] at number inBody ptr
    exact ⟨number, inBody, ptr, nofun⟩
  | sleep n pc =>
    rw [pc] at inBody ptr
    exact ⟨inBody rfl, nofun, ring_next setup.buf_pos ptr, nofun⟩
  | reap _ pc | finish _ pc =>
    rw [pc] at number ptr
    exact ⟨number, nofun, ptr, nofun⟩

theorem ConsumerMove.placed (move : ConsumerMove setup c shared c' shared')
    (placed : c.Placed setup) (zeros : ∀ k, shared.mem (80 * k + textRoom) = 0) :
    c'.Placed setup := by
  obtain ⟨ptr, reading, fits⟩ := placed
  cases move with
  | attach | unlinked => exact ⟨by simp, nofun, fits⟩
  | enter =>
    refine ⟨ptr, ?_, ?_⟩
    · intro
      exact Nat.zero_le _
    · exact Nat.zero_le _
  | acquire pc =>
    refine ⟨ptr, ?_, fits⟩
    intro
    exact reading (by rw [pc]; rfl)
  | spin => exact ⟨ptr, reading, fits⟩
  | copyByte pc nonzero =>
    have room : c.split.length ≤ textRoom := reading (by rw [pc]; rfl)
    have inside : c.split.length ≠ textRoom := by
      intro full
      rw [full, ptr] at nonzero
      exact nonzero (zeros _)
    have longer : (c.split ++ [shared.mem (c.ptr + c.split.length)]).length ≤ textRoom := by
      simp only [List.length_append, List.length_singleton]
      omega
    exact ⟨ptr, fun _ => longer, Nat.le_succ_of_le longer⟩
  | copyEnd pc =>
    have room : c.split.length ≤ textRoom := reading (by rw [pc]; rfl)
    have late : ¬ (setup.version.enter ConsumerPc.unlock .compare).reading = true :=
      setup.version.enter_of (P := fun next => ¬ ConsumerPc.reading next = true) nofun nofun
    exact ⟨ptr, fun early => absurd early late, by simpa using room⟩
  | advance => exact ⟨ring_next setup.buf_pos ptr, nofun, fits⟩
  | _ => exact ⟨ptr, fun early => absurd early Bool.false_ne_true, fits⟩


/-- The counter is not in the text of a slot. -/
theorem store32_counter_text (mem : Memory) (v k : Nat) {j : Nat} (text : j < 40) :
    store32 mem setup.counterAddr v (80 * k + j) = mem (80 * k + j) := by
  apply store32_other
  simp only [Setup.counterAddr]
  omega

/-- Neither is the lock. -/
theorem store32_lock_text (mem : Memory) (v k : Nat) {j : Nat} (text : j < 40) :
    store32 mem setup.lockAddr v (80 * k + j) = mem (80 * k + j) := by
  apply store32_other
  simp only [Setup.lockAddr]
  omega

/-- A consumer stores nothing in the text of a slot. -/
theorem ConsumerMove.text (move : ConsumerMove setup c shared c' shared') (k : Nat) {j : Nat}
    (text : j < 40) : shared'.mem (80 * k + j) = shared.mem (80 * k + j) := by
  cases move with
  | acquire | release => exact store32_lock_text _ _ k text
  | add => exact store32_counter_text _ _ k text
  | _ => rfl

theorem DeliverMove.placed (move : DeliverMove c c') (placed : c.Placed setup) :
    c'.Placed setup := by
  obtain ⟨ptr, reading, fits⟩ := placed
  cases move with
  | kill => exact ⟨ptr, nofun, fits⟩
  | handle n pending handles =>
    refine ⟨ptr, ?_, fits⟩
    intro early
    rcases c.pc.wake_cases with same | woken | woken
    · exact reading (same ▸ early)
    · simp [woken, ConsumerPc.reading] at early
    · simp [woken, ConsumerPc.reading] at early

/-- The address of the byte that the producer copies next. -/
theorem Layout.target {n j : Nat} (h : Layout setup s) (pc : s.producer.pc = .copy n j) :
    j ≤ textRoom ∧ s.producer.ptr = 80 * (n % setup.buf) ∧ n < setup.dataNum := by
  obtain ⟨-, inBody, ptr, copied⟩ := h.producer
  rw [pc] at inBody ptr
  have less : n < setup.dataNum := inBody rfl
  have whole := copied n j pc
  have room := message_length (less.trans setup.dataNum_int)
  exact ⟨whole.trans room, ptr, less⟩

/-- The producer stores nothing in the text of a slot, unless it copies a message. -/
theorem ProducerMove.text (move : ProducerMove setup s t) (quiet : ∀ n j, s.producer.pc ≠ .copy n j)
    (k : Nat) {j : Nat} (text : j < 40) :
    t.shared.mem (80 * k + j) = s.shared.mem (80 * k + j) := by
  cases move with
  | clearLock | acquire | release => exact store32_lock_text _ _ k text
  | copyByte n j pc => exact absurd pc (quiet n j)
  | copyEnd n j pc => exact absurd pc (quiet n j)
  | _ => rfl

/-- The producer stores no byte behind the longest message but zeros. -/
theorem ProducerMove.zeros (move : ProducerMove setup s t) (h : Layout setup s) {k j : Nat}
    (behind : textRoom ≤ j) (text : j < 40) : t.shared.mem (80 * k + j) = 0 := by
  have copying {n i : Nat} (pc : s.producer.pc = .copy n i) :
      store s.shared.mem (s.producer.ptr + i) ((message n).getD i 0) (80 * k + j) = 0 := by
    obtain ⟨room, ptr, less⟩ := h.target pc
    by_cases same : 80 * k + j = s.producer.ptr + i
    · have last : i = textRoom := by omega
      have short := message_length (less.trans setup.dataNum_int)
      rw [same, store_same, last]
      simp [short]
    · rw [store_other _ _ same]
      exact h.zeros k j behind text
  have same := move.text
  cases move with
  | copyByte _ _ pc => exact copying pc
  | copyEnd _ _ pc => exact copying pc
  | clearLock pc | fork _ pc | forked _ pc | body _ pc | toWait _ pc | acquire _ pc | spin _ pc
  | release _ pc | send _ _ pc | sent _ _ pc | sleep _ pc | reap _ pc | finish _ pc =>
    exact (same (by simp [pc]) k text).trans (h.zeros k j behind text)

theorem Layout.step {act : Act} (h : Layout setup s) (move : Move setup s act t) :
    Layout setup t := by
  cases move with
  | producer _ move =>
    refine ⟨move.placed h.producer, ?_, fun k j => move.zeros h⟩
    intro c
    obtain ⟨ptr, reading, fits⟩ := h.consumer c
    rcases move.consumer c with ⟨same, -⟩ | ⟨-, -, same⟩ | ⟨n, -, -, -, same⟩
    · rw [same]
      exact ⟨ptr, reading, fits⟩
    · rw [same]
      exact ⟨ptr, nofun, fits⟩
    · rw [same, Consumer.sigqueue_eq]
      exact ⟨ptr, reading, fits⟩
  | consumer c outcome client shared move =>
    have zeros (k : Nat) : s.shared.mem (80 * k + textRoom) = 0 :=
      h.zeros k textRoom (le_refl _) (by decide)
    refine ⟨h.producer, ?_, ?_⟩
    · apply (Function.forall_update_iff s.consumers fun _ client =>
        Consumer.Placed setup client).mpr
      exact ⟨move.placed (h.consumer c) zeros, fun k _ => h.consumer k⟩
    · intro k j behind text
      exact (move.text k text).trans (h.zeros k j behind text)
  | deliver c client move =>
    refine ⟨h.producer, ?_, h.zeros⟩
    apply (Function.forall_update_iff s.consumers fun _ client => Consumer.Placed setup client).mpr
    exact ⟨move.placed (h.consumer c), fun k _ => h.consumer k⟩

theorem layout (reach : (ringBuffer setup).Reachable s) : Layout setup s := by
  refine reach.invariant ?_ ?_
  · rintro s rfl
    refine ⟨?_, ?_, ?_⟩
    · apply setup.version.enter_of (P := fun next => Producer.Placed setup ⟨next, 0, []⟩)
      · exact ⟨Nat.zero_le _, nofun, by simp [ProducerPc.number], nofun⟩
      · exact ⟨Nat.zero_le _, nofun, by simp [ProducerPc.number], nofun⟩
    · intro c
      exact ⟨by simp [State.initial, Consumer.initial], nofun, Nat.zero_le _⟩
    · intro k j _ _
      rfl
  · intro act s t h step
    exact h.step (next_move step)

end RingBuffer
