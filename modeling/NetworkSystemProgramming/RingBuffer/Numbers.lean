import NetworkSystemProgramming.RingBuffer.Layout
import Mathlib.Algebra.BigOperators.Group.Finset.Basic
import Mathlib.Algebra.Group.Action.Defs
import Mathlib.Algebra.Order.BigOperators.Group.Finset

/-!
# The numbers that a consumer compares

The producer sends growing numbers, a consumer has at most one of them pending, and
between two comparisons it waits for a signal. So the numbers it compares grow, even
where signals are dropped or the handler runs in the middle of the loop.
-/

namespace RingBuffer

open ByteBuffers ByteMemory StepSystems StepSystem

variable {setup : Setup}

/-- The numbers below it have been sent to consumer `c`. -/
def ProducerPc.sentBound (setup : Setup) (c : Nat) : ProducerPc → Nat
  | .send n i1 => if c < i1 then n + 1 else n
  | .sleep n => n + 1
  | pc => pc.number setup

/-- A first signal was handled while the consumer was in `pause`. -/
def ConsumerPc.awake : ConsumerPc → Bool
  | .notForked | .install | .firstPause | .firstPaused | .killed => false
  | _ => true

/-- Between a wake-up and the comparison. -/
def ConsumerPc.fresh : ConsumerPc → Bool
  | .shmOpen | .test | .lock | .copy | .unlock | .compare => true
  | _ => false

/-- The number that is found equal but not yet counted. -/
def ConsumerPc.adding : ConsumerPc → List Nat
  | .add seq => [seq]
  | _ => []

structure Consumer.Ordered (c : Consumer) (bound : Nat) : Prop where
  pending : ∀ v, c.pending = some v → v < bound
  received : c.pc.awake → c.recvSeq < bound
  later : c.pc.awake → ∀ v, c.pending = some v → c.recvSeq < v
  asleep : ¬ c.pc.awake → c.compared = []
  sorted : c.compared.Pairwise (· < ·)
  last : ∀ n ∈ c.compared, n ≤ c.recvSeq
  fresh : c.pc.fresh → ∀ n ∈ c.compared, n < c.recvSeq
  added : (c.added ++ c.pc.adding).Sublist c.compared

variable {s t : State} {c c' : Consumer} {shared shared' : Shared} {bound bound' : Nat}

theorem Consumer.Ordered.mono (h : c.Ordered bound) (le : bound ≤ bound') : c.Ordered bound' :=
  { h with
    pending := fun v hv => (h.pending v hv).trans_le le
    received := fun awake => (h.received awake).trans_le le }

theorem Consumer.Ordered.sigqueue {n : Nat} (h : c.Ordered n) :
    (c.sigqueue n).Ordered (n + 1) := by
  rcases c.sigqueue_cases n with dropped | ⟨-, pends⟩
  · rw [dropped]
    exact h.mono (Nat.le_succ n)
  · rw [pends]
    refine { h.mono (Nat.le_succ n) with pending := ?_, later := ?_ }
    · rintro v ⟨⟩
      exact Nat.lt_succ_self n
    · rintro awake v ⟨⟩
      exact h.received awake

/-- A statement that neither compares, counts nor waits. -/
theorem Consumer.Ordered.keep (h : c.Ordered bound) (recvSeq : c'.recvSeq = c.recvSeq)
    (pending : c'.pending = c.pending) (compared : c'.compared = c.compared)
    (added : c'.added ++ c'.pc.adding = c.added ++ c.pc.adding) (awake : c'.pc.awake = c.pc.awake)
    (fresh : c'.pc.fresh → c.pc.fresh) : c'.Ordered bound where
  pending := pending ▸ h.pending
  received := awake ▸ recvSeq ▸ h.received
  later := awake ▸ recvSeq ▸ pending ▸ h.later
  asleep := awake ▸ compared ▸ h.asleep
  sorted := compared ▸ h.sorted
  last := recvSeq ▸ compared ▸ h.last
  fresh early := recvSeq ▸ compared ▸ h.fresh (fresh early)
  added := added ▸ compared ▸ h.added

theorem Consumer.Ordered.compare {pc : ConsumerPc} (h : c.Ordered bound) (at_ : c.pc = .compare)
    (next : pc = .add c.recvSeq ∨ pc = .advance) :
    { c with pc, compared := c.compared ++ [c.recvSeq] : Consumer }.Ordered bound := by
  obtain ⟨pending, received, later, -, sorted, last, fresh, added⟩ := h
  rw [at_] at received later fresh added
  have awake : pc.awake := by
    rcases next with rfl | rfl
    · rfl
    · rfl
  refine ⟨pending, fun _ => received rfl, fun _ => later rfl, absurd awake, ?_, ?_, ?_, ?_⟩
  · apply List.pairwise_append.mpr
    refine ⟨sorted, List.pairwise_singleton .., ?_⟩
    intro n member m same
    obtain rfl := List.mem_singleton.mp same
    exact fresh rfl n member
  · intro n member
    rcases List.mem_append.mp member with before | now
    · exact last n before
    · exact (List.mem_singleton.mp now).le
  · rcases next with rfl | rfl
    · nofun
    · nofun
  · have before : c.added.Sublist c.compared := by simpa [ConsumerPc.adding] using added
    rcases next with rfl | rfl
    · exact before.append (List.Sublist.refl _)
    · simpa [ConsumerPc.adding] using before.trans (List.sublist_append_left ..)

theorem ConsumerMove.ordered (move : ConsumerMove setup c shared c' shared')
    (h : c.Ordered bound) : c'.Ordered bound := by
  cases move with
  | equal pc => exact h.compare pc (Or.inl rfl)
  | different pc => exact h.compare pc (Or.inr rfl)
  | spin => exact h
  | enter pc =>
    apply setup.version.enter_of (P := fun next =>
      Consumer.Ordered { c with pc := next, split := [] } bound)
    · apply h.keep <;> simp [pc, ConsumerPc.adding, ConsumerPc.awake, ConsumerPc.fresh]
    · apply h.keep <;> simp [pc, ConsumerPc.adding, ConsumerPc.awake, ConsumerPc.fresh]
  | copyEnd pc =>
    apply setup.version.enter_of (P := fun next => Consumer.Ordered { c with
      pc := next
      split := c.split ++ [newline]
      copied := c.copied ++ [(c.ptr / 80, c.split)] } bound)
    · apply h.keep <;> simp [pc, ConsumerPc.adding, ConsumerPc.awake, ConsumerPc.fresh]
    · apply h.keep <;> simp [pc, ConsumerPc.adding, ConsumerPc.awake, ConsumerPc.fresh]
  | install pc | blockFirst pc | attach pc | unlinked pc | acquire pc | copyByte pc | release pc
  | add _ pc | advance pc | exit pc | again pc | block pc =>
    apply h.keep <;> simp [pc, ConsumerPc.adding, ConsumerPc.awake, ConsumerPc.fresh]

theorem ConsumerPc.awake_wake {pc : ConsumerPc} (awake : pc.awake) : pc.wake.awake := by
  cases pc with
  | firstPaused | paused => rfl
  | _ => exact awake

theorem ConsumerPc.adding_wake (pc : ConsumerPc) : pc.wake.adding = pc.adding := by
  cases pc with
  | _ => rfl

theorem DeliverMove.ordered (move : DeliverMove c c') (h : c.Ordered bound) : c'.Ordered bound := by
  cases move with
  | kill n pending pc =>
    obtain ⟨-, -, -, asleep, sorted, last, -, added⟩ := h
    rw [pc] at asleep added
    exact ⟨nofun, nofun, nofun, asleep, sorted, last, nofun, added⟩
  | handle n signal handles =>
    have newer : ∀ m ∈ c.compared, m < n := by
      intro m member
      by_cases awake : c.pc.awake
      · exact (h.last m member).trans_lt (h.later awake n signal)
      · simp [h.asleep awake] at member
    have below := h.pending n signal
    refine ⟨nofun, fun _ => below, fun _ => nofun, ?_, h.sorted, ?_, fun _ => newer, ?_⟩
    · intro asleep
      exact h.asleep (mt ConsumerPc.awake_wake asleep)
    · intro m member
      exact (newer m member).le
    · rw [ConsumerPc.adding_wake]
      exact h.added

/-! ## All consumers -/

theorem sentBound_le_dataNum (placed : s.producer.Placed setup) (c : Nat) :
    s.producer.pc.sentBound setup c ≤ setup.dataNum := by
  obtain ⟨number, inBody, -, -⟩ := placed
  cases hpc : s.producer.pc with
  | send n i1 =>
    rw [hpc] at inBody
    have less : n < setup.dataNum := inBody rfl
    simp only [ProducerPc.sentBound]
    split
    · exact less
    · exact less.le
  | sleep n =>
    rw [hpc] at inBody
    exact inBody rfl
  | _ =>
    rw [hpc] at number
    exact number

/-- Sending to consumer `c` raises its bound to the next number. -/
theorem ProducerMove.sentBound_le (move : ProducerMove setup s t) (placed : s.producer.Placed setup)
    (c : Nat) : s.producer.pc.sentBound setup c ≤ t.producer.pc.sentBound setup c := by
  have whole := sentBound_le_dataNum placed c
  cases move with
  | body n pc =>
    rw [pc]
    apply setup.version.enter_of (P := fun next => _ ≤ ProducerPc.sentBound setup c next)
    · exact le_refl n
    · exact le_refl n
  | copyEnd n _ pc =>
    rw [pc]
    apply setup.version.enter_of (P := fun next => _ ≤ ProducerPc.sentBound setup c next)
    · exact le_refl n
    · simp [ProducerPc.sentBound, ProducerPc.number]
  | send n i1 pc =>
    simp only [pc, ProducerPc.sentBound]
    split <;> split <;> omega
  | sent n i1 pc =>
    simp only [pc, ProducerPc.sentBound]
    split <;> omega
  | toWait _ pc => exact whole
  | clearLock pc | fork _ pc | forked _ pc | acquire _ pc | copyByte _ _ pc | release _ pc
  | sleep _ pc | reap _ pc | finish _ pc =>
    simp [pc, ProducerPc.sentBound, ProducerPc.number]
  | spin => exact le_refl _

/-! ## The counter -/

theorem DeliverMove.added (move : DeliverMove c c') : c'.added = c.added := by
  cases move with
  | _ => rfl

/-- The producer does not touch the counter. -/
theorem ProducerMove.counter (move : ProducerMove setup s t) (h : Layout setup s) :
    load32 t.shared.mem setup.counterAddr = load32 s.shared.mem setup.counterAddr := by
  have lock (v : Nat) : load32 (store32 s.shared.mem setup.lockAddr v) setup.counterAddr =
      load32 s.shared.mem setup.counterAddr := by
    apply load32_store32_other
    simp only [Setup.lockAddr, Setup.counterAddr]
    omega
  have text {n j : Nat} (pc : s.producer.pc = .copy n j) (byte : Byte) :
      load32 (store s.shared.mem (s.producer.ptr + j) byte) setup.counterAddr =
      load32 s.shared.mem setup.counterAddr := by
    obtain ⟨room, ptr, -⟩ := h.target pc
    have slot := Nat.mod_lt n setup.buf_pos
    apply load32_store
    simp only [Setup.counterAddr, textRoom] at room ⊢
    omega
  cases move with
  | clearLock | acquire | release => exact lock _
  | copyByte _ _ pc => exact text pc _
  | copyEnd _ _ pc => exact text pc _
  | _ => rfl

/-- A consumer counts what it adds. -/
theorem ConsumerMove.counter (move : ConsumerMove setup c shared c' shared') :
    load32 shared'.mem setup.counterAddr + c.added.length ≤
      load32 shared.mem setup.counterAddr + c'.added.length := by
  have lock (v : Nat) : load32 (store32 shared.mem setup.lockAddr v) setup.counterAddr =
      load32 shared.mem setup.counterAddr := by
    apply load32_store32_other
    simp only [Setup.lockAddr, Setup.counterAddr]
    omega
  cases move with
  | acquire | release =>
    simp only [lock]
    exact le_refl _
  | add =>
    simp only [load32_store32_same, List.length_append, List.length_singleton]
    omega
  | _ => exact le_refl _

theorem total_update (f : Nat → Consumer) (client : Consumer) {c n : Nat} (inside : c < n) :
    (∑ k ∈ Finset.range n, (Function.update f c client k).added.length) + (f c).added.length =
      (∑ k ∈ Finset.range n, (f k).added.length) + client.added.length := by
  have member := Finset.mem_range.mpr inside
  have others : ∑ k ∈ (Finset.range n).erase c, (Function.update f c client k).added.length =
      ∑ k ∈ (Finset.range n).erase c, (f k).added.length := by
    apply Finset.sum_congr rfl
    intro k hk
    rw [Function.update_of_ne (Finset.ne_of_mem_erase hk)]
  rw [← Finset.add_sum_erase _ _ member, others, Function.update_self,
    ← Finset.add_sum_erase _ (fun k => (f k).added.length) member]
  omega

/-! ## Every run -/

structure Numbered (setup : Setup) (s : State) : Prop where
  ordered : ∀ c, (s.consumers c).Ordered (s.producer.pc.sentBound setup c)
  /-- Only so many processes are forked. -/
  forked : ∀ c, setup.consumer ≤ c → (s.consumers c).pc = .notForked
  counter : load32 s.shared.mem setup.counterAddr ≤
    ∑ c ∈ Finset.range setup.consumer, (s.consumers c).added.length

/-- Before any number is sent, a consumer that is forked has compared nothing. -/
theorem Consumer.Ordered.fork (h : c.Ordered 0) :
    { c with pc := .install : Consumer }.Ordered bound := by
  have asleep : ¬ c.pc.awake := fun awake => Nat.not_lt_zero _ (h.received awake)
  refine ⟨?_, nofun, nofun, fun _ => h.asleep asleep, h.sorted, h.last, nofun, ?_⟩
  · intro v signal
    exact absurd (h.pending v signal) (Nat.not_lt_zero v)
  · simpa [ConsumerPc.adding] using (List.sublist_append_left ..).trans h.added

theorem Numbered.producer (h : Numbered setup s) (layout : Layout setup s)
    (move : ProducerMove setup s t) : Numbered setup t := by
  have grows (c : Nat) := move.sentBound_le layout.producer c
  refine ⟨?_, ?_, ?_⟩
  · intro c
    rcases move.consumer c with ⟨same, -⟩ | ⟨pc, -, same⟩ | ⟨n, pc, -, pc', same⟩
    · rw [same]
      exact (h.ordered c).mono (grows c)
    · have ordered := h.ordered c
      rw [pc] at ordered
      rw [same]
      exact ordered.fork
    · have ordered := h.ordered c
      simp only [pc, ProducerPc.sentBound, lt_irrefl, if_false] at ordered
      rw [same, pc']
      simpa [ProducerPc.sentBound] using ordered.sigqueue
  · intro c outside
    rcases move.consumer c with ⟨same, -⟩ | ⟨-, inside, -⟩ | ⟨-, -, inside, -⟩
    · rw [same]
      exact h.forked c outside
    · omega
    · omega
  · have kept (c : Nat) : (t.consumers c).added = (s.consumers c).added := by
      rcases move.consumer c with ⟨same, -⟩ | ⟨-, -, same⟩ | ⟨n, -, -, -, same⟩
      · rw [same]
      · rw [same]
      · rw [same, Consumer.sigqueue_eq]
    simp only [move.counter layout, kept]
    exact h.counter

/-- A process whose step changes consumer `c`. -/
theorem Numbered.update (h : Numbered setup s) {c : Nat} {client : Consumer} {shared : Shared}
    (forked : (s.consumers c).pc ≠ .notForked)
    (ordered : client.Ordered (s.producer.pc.sentBound setup c))
    (counter : load32 shared.mem setup.counterAddr + (s.consumers c).added.length ≤
      load32 s.shared.mem setup.counterAddr + client.added.length) :
    Numbered setup { s with consumers := Function.update s.consumers c client, shared } := by
  have inside : c < setup.consumer := by
    by_contra outside
    exact forked (h.forked c (Nat.le_of_not_lt outside))
  refine ⟨?_, ?_, ?_⟩
  · apply (Function.forall_update_iff s.consumers fun k client =>
      Consumer.Ordered client (s.producer.pc.sentBound setup k)).mpr
    exact ⟨ordered, fun k _ => h.ordered k⟩
  · intro k outside
    have other : k ≠ c := by omega
    have same := Function.update_of_ne other client s.consumers
    exact (congrArg Consumer.pc same).trans (h.forked k outside)
  · have total := total_update s.consumers client inside
    have before := h.counter
    simp only
    omega

theorem numbered (reach : (ringBuffer setup).Reachable s) : Numbered setup s := by
  refine reach.invariant_of (fun _ => layout) ?_ ?_
  · rintro s rfl
    refine ⟨?_, fun _ _ => rfl, ?_⟩
    · intro c
      exact ⟨nofun, nofun, nofun, fun _ => rfl, List.Pairwise.nil, nofun, nofun, List.Sublist.slnil⟩
    · simp [State.initial, load32_zero]
  · intro act s t layout h step
    cases next_move step with
    | producer _ move => exact h.producer layout move
    | consumer c outcome client shared move =>
      exact h.update move.running.1 (move.ordered (h.ordered c)) move.counter
    | deliver c client move =>
      exact h.update move.forked (move.ordered (h.ordered c)) (by rw [move.added])

theorem Consumer.Ordered.bounded (h : c.Ordered bound) : ∀ n ∈ c.compared, n < bound := by
  intro n member
  have awake : c.pc.awake := by
    by_contra asleep
    simp [h.asleep asleep] at member
  exact (h.last n member).trans_lt (h.received awake)

theorem sorted_length {numbers : List Nat} {bound : Nat} (sorted : numbers.Pairwise (· < ·))
    (below : ∀ n ∈ numbers, n < bound) : numbers.length ≤ bound := by
  have distinct : numbers.Nodup := sorted.imp Nat.ne_of_lt
  have within : numbers.toFinset ⊆ Finset.range bound := by
    intro n member
    exact Finset.mem_range.mpr (below n (List.mem_toFinset.mp member))
  calc numbers.length = numbers.toFinset.card := (List.toFinset_card_of_nodup distinct).symm
    _ ≤ (Finset.range bound).card := Finset.card_le_card within
    _ = bound := Finset.card_range bound

/-- Every message number is compared, and so counted, at most once by each consumer. -/
theorem comparisons_increase (reach : (ringBuffer setup).Reachable s) :
    (∀ c, (s.consumers c).compared.Pairwise (· < ·) ∧ (s.consumers c).added.Nodup ∧
      ∀ n ∈ (s.consumers c).added, n < setup.dataNum) ∧
    load32 s.shared.mem setup.counterAddr ≤ setup.dataNum * setup.consumer := by
  have h := numbered reach
  have placed := (layout reach).producer
  have part (c : Nat) : (s.consumers c).added.Sublist (s.consumers c).compared :=
    (List.sublist_append_left ..).trans (h.ordered c).added
  have below (c : Nat) : ∀ n ∈ (s.consumers c).added, n < setup.dataNum := by
    intro n member
    have bounded := (h.ordered c).bounded n ((part c).subset member)
    exact bounded.trans_le (sentBound_le_dataNum placed c)
  have sorted (c : Nat) : (s.consumers c).added.Pairwise (· < ·) :=
    (h.ordered c).sorted.sublist (part c)
  refine ⟨fun c => ⟨(h.ordered c).sorted, (sorted c).imp Nat.ne_of_lt, below c⟩, ?_⟩
  calc load32 s.shared.mem setup.counterAddr
      ≤ ∑ c ∈ Finset.range setup.consumer, (s.consumers c).added.length := h.counter
    _ ≤ (Finset.range setup.consumer).card • setup.dataNum := by
        apply Finset.sum_le_card_nsmul
        intro c _
        exact sorted_length (sorted c) (below c)
    _ = setup.dataNum * setup.consumer := by rw [Finset.card_range, smul_eq_mul, Nat.mul_comm]

/-- The consumer is in `pause` when the first message is sent, and counts it. -/
def firstMessage : List Act :=
  List.replicate 2 Act.producer ++ List.replicate 2 (Act.consumer 0 true) ++
    List.replicate 20 Act.producer ++ [Act.deliver 0] ++ List.replicate 22 (Act.consumer 0 true)

theorem first_message_counted :
    ∃ s, (ringBuffer (twoMessages .plain)).Reachable s ∧ (s.consumers 0).added = [0] ∧
      (s.consumers 0).compared.Pairwise (· < ·) ∧
      load32 s.shared.mem (twoMessages .plain).counterAddr ≤ 2 * 1 := by
  have run : (follow (next (twoMessages .plain)) firstMessage
      (State.initial (twoMessages .plain))).map (fun s => (s.consumers 0).added) = some [0] := by
    decide +kernel
  obtain ⟨s, hs, added⟩ := Option.map_eq_some_iff.mp run
  have reach : (ringBuffer (twoMessages .plain)).Reachable s :=
    (Reachable.initial rfl).run (follow_run hs)
  obtain ⟨increase, counter⟩ := comparisons_increase reach
  exact ⟨s, reach, added, (increase 0).1, counter⟩

end RingBuffer
