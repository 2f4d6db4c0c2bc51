import NetworkSystemProgramming.RingBuffer.Counting
import NetworkSystemProgramming.RingBuffer.Locking
import NetworkSystemProgramming.RingBuffer.Pacing

/-!
# What the consumers receive

In a run that is in time a consumer that is awake has been told of the message that the
producer has written last. So it copies every message, in order and whole, compares it with
its own number, and counts it; only the first message, for which `seqcmp` returns no value,
may be counted or not.
-/

namespace RingBuffer

open ByteBuffers ByteMemory StepSystems StepSystem

/-- A message with its slot. -/
def entry (setup : Setup) (n : Nat) : Nat × List Byte := (n % setup.buf, message n)

/-- All of the first `m` numbers, or all of them but 0. -/
def AllCounted (m : Nat) (numbers : List Nat) : Prop :=
  numbers = List.range m ∨ numbers = List.range' 1 (m - 1)

/-- The strings that the consumer has copied. -/
def ConsumerPc.copies (b : Nat) : ConsumerPc → Nat
  | .unlock | .compare | .add _ | .advance => b + 1
  | _ => b

/-- Between the end of the copy and the comparison. -/
def ConsumerPc.copiedWhole : ConsumerPc → Bool
  | .unlock | .compare => true
  | _ => false

/-- The consumer has done with every message up to the one it is at what it should. -/
structure Consumer.InStep (setup : Setup) (sent : Nat) (c : Consumer) : Prop where
  pending : ∀ v, c.pending = some v → v + 1 = sent
  received : c.pc.wakeups c.b ≠ 0 → c.recvSeq + 1 = c.pc.wakeups c.b
  compared : c.compared = List.range (c.pc.comparisons c.b)
  copied : c.copied = (List.range (c.pc.copies c.b)).map (entry setup)
  counted : AllCounted (c.pc.comparisons c.b) (c.added ++ c.pc.adding)
  reading : c.pc.reading → c.split <+: message c.b
  whole : c.pc.copiedWhole → c.split = message c.b ++ [newline]

/-- Message `n` is the last one that the producer has written. -/
def ProducerPc.Posted (setup : Setup) (n : Nat) : ProducerPc → Prop
  | .unlock m | .send m _ | .sleep m => n = m
  | .head m => n + 1 = m
  | .wait _ | .finished => n + 1 = setup.dataNum
  | _ => False

variable {setup : Setup} {s t : State} {c c' : Consumer} {shared shared' : Shared} {sent : Nat}
  {outcome : Bool}

/-! ## The message in its slot -/

theorem slots (reach : (ringBuffer setup).Reachable s) :
    Slots setup s.producer s.shared.mem := by
  refine reach.invariant_of (I := fun s => Slots setup s.producer s.shared.mem)
    (fun _ => layout) ?_ ?_
  · rintro s rfl
    have quiet : ∀ n j, (State.initial setup).producer.pc ≠ .copy n j :=
      setup.version.enter_of (P := fun pc => ∀ n j, pc ≠ ProducerPc.copy n j) nofun nofun
    refine ⟨fun _ member => absurd member List.not_mem_nil, fun n j pc => absurd pc (quiet n j), ?_⟩
    intro k _
    exact ⟨[], ⟨Nat.zero_le _, List.not_mem_nil, fun _ _ => by simp [State.initial]⟩, Or.inl rfl⟩
  · intro act s t layout h step
    cases next_move step with
    | producer _ move => exact move.slots layout h
    | consumer c outcome client shared move => exact h.frame layout fun k j => move.text k
    | deliver => exact h

/-- The last message lies in its slot. -/
def Kept (setup : Setup) (s : State) : Prop :=
  ∀ n, s.producer.pc.Posted setup n → SlotHolds s.shared.mem (n % setup.buf) (message n)

theorem SlotHolds.text {mem mem' : Memory} {k : Nat} {str : List Byte} (h : SlotHolds mem k str)
    (text : ∀ j < 40, mem' (80 * k + j) = mem (80 * k + j)) : SlotHolds mem' k str := by
  refine h.frame ?_
  intro j inside
  simp only [textRoom] at inside
  exact text j (by omega)

theorem ProducerMove.kept (move : ProducerMove setup s t) (layout : Layout setup s)
    (slots : Slots setup s.producer s.shared.mem) (h : Kept setup s) : Kept setup t := by
  have text := move.text
  intro m posted
  cases move with
  | copyEnd n j pc done =>
    obtain ⟨room, ptr, less⟩ := layout.target pc
    have last : j = (message n).length :=
      Nat.le_antisymm (layout.producer.copied n j pc) (Nat.le_of_not_lt done)
    obtain rfl : m = n := by
      revert posted
      exact setup.version.enter_of (P := fun pc => ProducerPc.Posted setup m pc → m = n) id id
    refine ⟨last ▸ room, message_clean m, ?_⟩
    intro i inside
    rw [← ptr]
    by_cases now : i = j
    · rw [now]
      exact store_same ..
    · refine (store_other _ _ (by omega)).trans ?_
      exact slots.writing m j pc i (by omega)
  | body n pc more =>
    refine absurd posted ?_
    exact setup.version.enter_of (P := fun pc => ¬ ProducerPc.Posted setup m pc) id id
  | spin => exact h m posted
  | toWait n pc done =>
    have number := layout.producer.number
    rw [pc] at number
    have last : n = setup.dataNum := Nat.le_antisymm number (Nat.le_of_not_lt done)
    refine (h m ?_).text fun j => text (by simp [pc]) _
    rw [pc, last]
    exact posted
  | forked i pc =>
    exact absurd posted (Nat.succ_ne_zero m)
  | release n pc | send n i pc | sent n i pc | reap i pc | finish i pc =>
    refine (h m ?_).text fun j => text (by simp [pc]) _
    rw [pc]
    exact posted
  | sleep n pc =>
    refine (h m ?_).text fun j => text (by simp [pc]) _
    rw [pc]
    exact Nat.succ.inj posted
  | clearLock | fork | acquire | copyByte => exact absurd posted id

theorem kept (reach : (ringBuffer setup).Reachable s) : Kept setup s := by
  refine reach.invariant_of (fun _ h => And.intro (layout h) (slots h)) ?_ ?_
  · rintro s rfl
    intro n posted
    refine absurd posted ?_
    exact setup.version.enter_of (P := fun pc => ¬ ProducerPc.Posted setup n pc) id id
  · rintro act s t ⟨layout, slots⟩ h step
    cases next_move step with
    | producer _ move => exact move.kept layout slots h
    | consumer c outcome client shared move =>
      exact fun n posted => (h n posted).text fun j => move.text _
    | deliver => exact h

/-- A consumer that was told of its message and does not wait finds it in the slot. -/
theorem Calm.slot {k : Nat} (calm : Calm setup s) (kept : Kept setup s)
    (inside : k < setup.consumer) (awake : ¬ (s.consumers k).pc.waiting) {b : Nat}
    (told : s.producer.pc.sentBound setup k = b + 1) :
    SlotHolds s.shared.mem (b % setup.buf) (message b) := by
  apply kept
  have notBefore : ¬ s.producer.pc.before k := fun before =>
    awake (calm.quiet k inside before).1
  cases hpc : s.producer.pc with
  | clearLock | fork =>
    rw [hpc] at told
    exact absurd told (Nat.succ_ne_zero b).symm
  | lock | copy | unlock =>
    rw [hpc] at notBefore
    exact absurd trivial notBefore
  | head n =>
    rw [hpc] at told
    exact told.symm
  | send n i1 =>
    rw [hpc] at told notBefore
    have done : k < i1 := Nat.lt_of_not_le notBefore
    simp only [ProducerPc.sentBound, if_pos done] at told
    exact (Nat.succ.inj told).symm
  | sleep n =>
    rw [hpc] at told
    exact (Nat.succ.inj told).symm
  | wait | finished =>
    rw [hpc] at told
    exact told.symm

/-! ## One consumer -/

theorem AllCounted.zero {numbers : List Nat} (h : AllCounted 0 numbers) : numbers = [] := by
  rcases h with all | later
  · exact all
  · exact later

/-- The next number, which is not 0, is counted too. -/
theorem AllCounted.next {b : Nat} {numbers : List Nat} (h : AllCounted b numbers) (later : b ≠ 0) :
    AllCounted (b + 1) (numbers ++ [b]) := by
  obtain ⟨m, rfl⟩ := Nat.exists_eq_succ_of_ne_zero later
  rcases h with rfl | rfl
  · exact Or.inl List.range_succ.symm
  · refine Or.inr ?_
    rw [Nat.succ_sub_one, Nat.add_sub_cancel, Nat.succ_eq_add_one, List.range'_1_concat,
      Nat.add_comm 1 m]

theorem AllCounted.length {m : Nat} {numbers : List Nat} (h : AllCounted m numbers) :
    numbers.length = m ∨ numbers.length = m - 1 := by
  rcases h with rfl | rfl
  · exact Or.inl List.length_range
  · exact Or.inr List.length_range'

/-- What is compared with its own number is found equal, unless the number is 0. -/
theorem sameSeq_message (version : Version) {n : Nat} (later : n ≠ 0) :
    sameSeq version n (message n ++ [newline]) outcome = true := by
  simp [sameSeq, seqcmp_message, later]

theorem consumerStep_compare (pc : c.pc = .compare)
    (step : consumerStep setup outcome c shared = some (c', shared')) :
    c' = { c with
      pc := if sameSeq setup.version c.recvSeq c.split outcome then .add c.recvSeq else .advance
      compared := c.compared ++ [c.recvSeq] } := by
  simp only [consumerStep, pc, Option.some.injEq, Prod.mk.injEq] at step
  exact step.1.symm

theorem Consumer.InStep.compare (h : c.InStep setup sent) (pc : c.pc = .compare)
    (step : consumerStep setup outcome c shared = some (c', shared')) : c'.InStep setup sent := by
  obtain ⟨pending, received, compared, copied, counted, -, whole⟩ := h
  rw [pc] at received compared copied counted whole
  have number : c.recvSeq = c.b := Nat.succ.inj (received (Nat.succ_ne_zero c.b))
  have split : c.split = message c.b ++ [newline] := whole rfl
  have before : AllCounted c.b c.added := by
    simpa [ConsumerPc.adding, ConsumerPc.comparisons] using counted
  have compared' : c.compared ++ [c.recvSeq] = List.range (c.b + 1) := by
    rw [compared, number]
    exact List.range_succ.symm
  rw [consumerStep_compare pc step]
  by_cases equal : sameSeq setup.version c.recvSeq c.split outcome = true
  · rw [if_pos equal]
    refine ⟨pending, fun _ => received (Nat.succ_ne_zero c.b), compared', copied, ?_,
      by simp [ConsumerPc.reading], by simp [ConsumerPc.copiedWhole]⟩
    by_cases first : c.b = 0
    · rw [first] at before
      left
      simp [ConsumerPc.comparisons, ConsumerPc.adding, before.zero, number, first]
    · rw [number]
      exact before.next first
  · rw [if_neg equal]
    refine ⟨pending, fun _ => received (Nat.succ_ne_zero c.b), compared', copied, ?_,
      by simp [ConsumerPc.reading], by simp [ConsumerPc.copiedWhole]⟩
    have first : c.b = 0 := by
      by_contra later
      rw [number, split] at equal
      exact equal (sameSeq_message setup.version later)
    rw [first] at before
    right
    simp [ConsumerPc.comparisons, ConsumerPc.adding, before.zero, first]

/-- A statement that neither copies nor compares. -/
theorem Consumer.InStep.keep (h : c.InStep setup sent) (recvSeq : c'.recvSeq = c.recvSeq)
    (pending : c'.pending = c.pending) (compared : c'.compared = c.compared)
    (copied : c'.copied = c.copied)
    (added : c'.added ++ c'.pc.adding = c.added ++ c.pc.adding)
    (wakeups : c'.pc.wakeups c'.b = c.pc.wakeups c.b)
    (comparisons : c'.pc.comparisons c'.b = c.pc.comparisons c.b)
    (copies : c'.pc.copies c'.b = c.pc.copies c.b)
    (reading : c'.pc.reading → c'.split <+: message c'.b)
    (whole : c'.pc.copiedWhole → c'.split = message c'.b ++ [newline]) :
    c'.InStep setup sent where
  pending := pending ▸ h.pending
  received := by
    rw [wakeups, recvSeq]
    exact h.received
  compared := by
    rw [compared, comparisons]
    exact h.compared
  copied := by
    rw [copied, copies]
    exact h.copied
  counted := by
    rw [added, comparisons]
    exact h.counted
  reading := reading
  whole := whole

/-- The byte behind what is copied is the next one of the message, or its NUL. -/
theorem SlotHolds.next {mem : Memory} {k : Nat} {str split : List Byte} (h : SlotHolds mem k str)
    (read : split <+: str) :
    (mem (80 * k + split.length) = 0 ∧ split = str) ∨
      (mem (80 * k + split.length) ≠ 0 ∧ split ++ [mem (80 * k + split.length)] <+: str) := by
  have byte := h.bytes split.length read.length_le
  obtain ⟨rest, rfl⟩ := read
  cases rest with
  | nil => exact Or.inl ⟨by rw [byte]; simp, (List.append_nil split).symm⟩
  | cons x rest =>
    have same : mem (80 * k + split.length) = x := by rw [byte]; simp
    have clean : x ≠ 0 := by
      rintro rfl
      exact h.clean (by simp)
    rw [same]
    exact Or.inr ⟨clean, ⟨rest, by simp⟩⟩

theorem Consumer.InStep.copyEnd {pc : ConsumerPc} (h : c.InStep setup sent)
    (placed : c.Placed setup) (at_ : c.pc = .copy) (next : pc = .unlock ∨ pc = .compare)
    (all : c.split = message c.b) :
    { c with
      pc
      split := c.split ++ [newline]
      copied := c.copied ++ [(c.ptr / 80, c.split)] : Consumer }.InStep setup sent := by
  obtain ⟨pending, received, compared, copied, counted, -, -⟩ := h
  rw [at_] at received compared copied counted
  have index : c.ptr / 80 = c.b % setup.buf := by
    rw [placed.ptr]
    omega
  have copied' : c.copied ++ [(c.ptr / 80, c.split)] =
      (List.range (c.b + 1)).map (entry setup) := by
    rw [copied, List.range_succ, List.map_append, index, all]
    rfl
  have whole : c.split ++ [newline] = message c.b ++ [newline] := by rw [all]
  rcases next with rfl | rfl
  · exact ⟨pending, received, compared, copied', counted, nofun, fun _ => whole⟩
  · exact ⟨pending, received, compared, copied', counted, nofun, fun _ => whole⟩

theorem ConsumerMove.inStep (placed : c.Placed setup) (woken : c.Woken setup sent)
    (h : c.InStep setup sent) (slot : c.pc = .copy →
      SlotHolds shared.mem (c.b % setup.buf) (message c.b)) (linked : c.pc = .shmOpen →
      shared.linked = true) (other : c.pc ≠ .compare)
    (move : ConsumerMove setup c shared c' shared') : c'.InStep setup sent := by
  cases move with
  | equal pc | different pc => exact absurd pc other
  | spin => exact h
  | attach pc =>
    have start : c.b = 0 := by
      have fits := woken.fits
      rwa [pc] at fits
    apply h.keep <;> simp [pc, start, ConsumerPc.adding, ConsumerPc.wakeups,
      ConsumerPc.comparisons, ConsumerPc.copies, ConsumerPc.reading, ConsumerPc.copiedWhole]
  | unlinked pc gone => simp [linked pc] at gone
  | enter pc =>
    apply setup.version.enter_of (P := fun next =>
      Consumer.InStep setup sent { c with pc := next, split := [] })
    · apply h.keep <;> simp [pc, ConsumerPc.adding, ConsumerPc.wakeups,
        ConsumerPc.comparisons, ConsumerPc.copies, ConsumerPc.copiedWhole]
    · apply h.keep <;> simp [pc, ConsumerPc.adding, ConsumerPc.wakeups,
        ConsumerPc.comparisons, ConsumerPc.copies, ConsumerPc.copiedWhole]
  | copyByte pc nonzero =>
    have read := (slot pc).next (h.reading (by rw [pc]; rfl))
    rw [← placed.ptr] at read
    rcases read with ⟨zero, -⟩ | ⟨-, more⟩
    · exact absurd zero nonzero
    · apply h.keep <;> simp [pc, more, ConsumerPc.adding, ConsumerPc.wakeups,
        ConsumerPc.comparisons, ConsumerPc.copies, ConsumerPc.copiedWhole]
  | copyEnd pc zero =>
    have read := (slot pc).next (h.reading (by rw [pc]; rfl))
    rw [← placed.ptr] at read
    rcases read with ⟨-, all⟩ | ⟨nonzero, -⟩
    · exact setup.version.enter_of (P := fun next => Consumer.InStep setup sent { c with
        pc := next
        split := c.split ++ [newline]
        copied := c.copied ++ [(c.ptr / 80, c.split)] })
        (h.copyEnd placed pc (Or.inl rfl) all) (h.copyEnd placed pc (Or.inr rfl) all)
    · exact absurd zero nonzero
  | acquire pc =>
    have read : c.split <+: message c.b := h.reading (by rw [pc]; rfl)
    apply h.keep <;> simp [pc, read, ConsumerPc.adding, ConsumerPc.wakeups,
      ConsumerPc.comparisons, ConsumerPc.copies, ConsumerPc.copiedWhole]
  | release pc =>
    have whole := h.whole (by rw [pc]; rfl)
    apply h.keep <;> simp [pc, whole, ConsumerPc.adding, ConsumerPc.wakeups,
      ConsumerPc.comparisons, ConsumerPc.copies, ConsumerPc.reading]
  | install pc | blockFirst pc | add _ pc | advance pc | exit pc | again pc | block pc =>
    apply h.keep <;> simp [pc, ConsumerPc.adding, ConsumerPc.wakeups,
      ConsumerPc.comparisons, ConsumerPc.copies, ConsumerPc.reading, ConsumerPc.copiedWhole]

theorem Consumer.InStep.sigqueue {n : Nat} (h : c.InStep setup n) (idle : c.Idle) :
    (c.sigqueue n).InStep setup (n + 1) := by
  have alive : ¬ c.pc.ended := by
    intro ended
    have waiting := idle.1
    cases hpc : c.pc with
    | firstPaused | paused => simp [hpc, ConsumerPc.ended] at ended
    | _ => simp [hpc, ConsumerPc.waiting] at waiting
  have pends : c.sigqueue n = { c with pending := some n } := by
    simp [Consumer.sigqueue, alive, idle.2]
  rw [pends]
  refine { h with pending := ?_ }
  rintro v ⟨⟩
  rfl

theorem Consumer.InStep.fork (h : c.InStep setup sent) (start : c.pc = .notForked) :
    { c with pc := .install : Consumer }.InStep setup sent := by
  apply h.keep <;> simp [start, ConsumerPc.adding, ConsumerPc.wakeups, ConsumerPc.comparisons,
    ConsumerPc.copies, ConsumerPc.reading, ConsumerPc.copiedWhole]

theorem DeliverMove.inStep (move : DeliverMove c c') (waiting : c.pc.waiting)
    (woken : c.Woken setup sent) (h : c.InStep setup sent) : c'.InStep setup sent := by
  obtain ⟨pending, -, compared, copied, counted, -, -⟩ := h
  obtain ⟨signals, fits, -⟩ := woken
  cases move with
  | kill n signal pc => simp [pc, ConsumerPc.waiting] at waiting
  | handle n signal handles =>
    have last := pending n signal
    have handled (v : Nat) (some : (none : Option Nat) = some v) : v + 1 = sent := by simp at some
    cases hpc : c.pc with
    | firstPaused =>
      rw [hpc, signal] at signals
      rw [hpc] at fits compared copied counted
      have start : c.b = 0 := fits
      have one : 0 + 1 = sent := signals
      refine ⟨handled, ?_, compared, copied, counted, by simp [ConsumerPc.wake,
        ConsumerPc.reading], by simp [ConsumerPc.wake, ConsumerPc.copiedWhole]⟩
      intro _
      change n + 1 = c.b + 1
      omega
    | paused =>
      rw [hpc, signal] at signals
      rw [hpc] at compared copied counted
      have next : c.b + 1 = sent := signals
      exact ⟨handled, fun _ => last.trans next.symm, compared, copied, counted, by
        simp [ConsumerPc.wake, ConsumerPc.reading], by
        simp [ConsumerPc.wake, ConsumerPc.copiedWhole]⟩
    | _ => simp [hpc, ConsumerPc.waiting] at waiting

/-! ## Every run that is in time -/

def AllInStep (setup : Setup) (s : State) : Prop :=
  ∀ c < setup.consumer, (s.consumers c).InStep setup (s.producer.pc.sentBound setup c)

theorem AllInStep.update {k : Nat} {client : Consumer} {shared : Shared} (h : AllInStep setup s)
    (own : k < setup.consumer → client.InStep setup (s.producer.pc.sentBound setup k)) :
    AllInStep setup { s with consumers := Function.update s.consumers k client, shared } := by
  intro i inside
  by_cases same : i = k
  · subst same
    simpa only [Function.update_self] using own inside
  · simpa only [Function.update_of_ne same] using h i inside

theorem AllInStep.producer (h : AllInStep setup s) (layout : Layout setup s) (calm : Calm setup s)
    (move : ProducerMove setup s t) : AllInStep setup t := by
  intro k inside
  have inStep := h k inside
  rcases move.consumer k with ⟨same, other⟩ | ⟨pc, -, same⟩ | ⟨n, pc, -, pc', same⟩
  · rw [same, move.sentBound_eq layout.producer inside other]
    exact inStep
  · rw [same, move.sentBound_eq layout.producer inside (by simp [pc])]
    exact inStep.fork (calm.unforked k (by rw [pc]; exact le_refl k))
  · have idle := calm.quiet k inside (by rw [pc]; exact le_refl k)
    simp only [pc, ProducerPc.sentBound, lt_irrefl, if_false] at inStep
    rw [same, pc']
    simpa [ProducerPc.sentBound] using inStep.sigqueue idle

/-- A consumer that copies has been told of the message that it is at. -/
theorem Consumer.Woken.told (h : c.Woken setup sent) (nothing : c.pending = none)
    (copying : c.pc = .copy) : sent = c.b + 1 := by
  have signals := h.signals
  rw [nothing, copying] at signals
  exact signals.symm

theorem AllInStep.consumer {k : Nat} (h : AllInStep setup s) (layout : Layout setup s)
    (calm : Calm setup s) (kept : Kept setup s) (woken : AllWoken setup s)
    (step : consumerStep setup outcome (s.consumers k) s.shared = some (c', shared')) :
    AllInStep setup { s with consumers := Function.update s.consumers k c', shared := shared' } := by
  have move := consumerStep_move step
  obtain ⟨-, awake, -⟩ := move.running
  have nothing : (s.consumers k).pending = none := not_not.mp (mt (calm.pends k) awake)
  refine h.update ?_
  intro inside
  by_cases compares : (s.consumers k).pc = .compare
  · exact (h k inside).compare compares step
  · refine move.inStep (layout.consumer k) (woken.woken k inside) (h k inside) ?_ ?_ compares
    · intro copying
      exact calm.slot kept inside awake ((woken.woken k inside).told nothing copying)
    · intro opens
      by_contra gone
      have attached := (calm.unlinked (Bool.eq_false_of_not_eq_true gone)).2 k inside
      simp [opens, ConsumerPc.attached] at attached

theorem inStep (several : 2 ≤ setup.dataNum)
    (reach : ((ringBuffer setup).restrict (InTime setup)).Reachable s) : AllInStep setup s := by
  refine reach.invariant_of (fun _ h => And.intro (restrict_reachable h) (calm several h)) ?_ ?_
  · rintro s rfl
    intro c _
    have start : Consumer.initial.InStep setup 0 :=
      ⟨nofun, absurd rfl, rfl, rfl, Or.inl rfl, nofun, nofun⟩
    exact setup.version.enter_of (P := fun pc => Consumer.initial.InStep setup
      (ProducerPc.sentBound setup c pc)) start start
  · rintro act s t ⟨all, keeps, calm⟩ h ⟨-, step⟩
    have woken := allWoken (by omega) keeps
    cases act with
    | producer => exact h.producer (layout all) calm (producerStep_move step)
    | consumer k outcome =>
      obtain ⟨⟨client, shared⟩, own, rfl⟩ := Option.map_eq_some_iff.mp step
      exact h.consumer (layout all) calm (kept all) woken own
    | deliver k =>
      obtain ⟨client, own, rfl⟩ := Option.map_eq_some_iff.mp step
      have move := Consumer.deliver_move own
      have waiting := calm.pends k move.pending
      exact h.update fun inside => move.inStep waiting (woken.woken k inside) (h k inside)

end RingBuffer
