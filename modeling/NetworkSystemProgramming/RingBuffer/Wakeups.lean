import NetworkSystemProgramming.RingBuffer.Numbers

/-!
# Whether every consumer finishes

A consumer needs one wake-up for every message, and as many signals are sent to it. So
it finishes when no signal is lost: none is sent while another one is pending, and none is
delivered before the consumer blocks in `pause`. Nothing in the program sees to either,
nor to the shared memory being linked when a consumer opens it.
-/

namespace RingBuffer

open ByteBuffers ByteMemory StepSystems StepSystem

/-- The step loses no signal and finds the shared memory. -/
def keepsSignals (setup : Setup) (act : Act) (s : State) : Bool :=
  match act with
  | .producer =>
    match s.producer.pc with
    | .send _ i1 => decide (setup.consumer ≤ i1) || (s.consumers i1).pending.isNone
    | _ => true
  | .consumer c _ => decide ((s.consumers c).pc ≠ .shmOpen) || s.shared.linked
  | .deliver c => (s.consumers c).pc.waiting

/-- The signals that woke the consumer, when it has counted `b` messages. -/
def ConsumerPc.wakeups (b : Nat) : ConsumerPc → Nat
  | .notForked | .install | .firstPause | .firstPaused | .failed | .killed => 0
  | .testEnd | .pause | .paused | .exited => b
  | _ => b + 1

/-- The comparisons that the consumer has made. -/
def ConsumerPc.comparisons (b : Nat) : ConsumerPc → Nat
  | .add _ | .advance => b + 1
  | _ => b

/-- Where the consumer can be when it has counted `b` messages. -/
def ConsumerPc.Fits (dataNum b : Nat) : ConsumerPc → Prop
  | .notForked | .install | .firstPause | .firstPaused | .shmOpen => b = 0
  | .testEnd => b ≤ dataNum
  | .exited => b = dataNum
  | .failed | .killed => False
  | _ => b < dataNum

/-- Every signal that was sent woke the consumer or is pending. -/
structure Consumer.Woken (setup : Setup) (c : Consumer) (sent : Nat) : Prop where
  signals : c.pc.wakeups c.b + c.pending.toList.length = sent
  fits : c.pc.Fits setup.dataNum c.b
  compared : c.compared.length = c.pc.comparisons c.b

variable {setup : Setup} {s t : State} {c c' : Consumer} {shared shared' : Shared} {sent : Nat}

theorem Consumer.Woken.sigqueue {n : Nat} (h : c.Woken setup n) (more : n < setup.dataNum)
    (idle : c.pending = none) : (c.sigqueue n).Woken setup (n + 1) := by
  obtain ⟨signals, fits, compared⟩ := h
  have alive : ¬ c.pc.ended := by
    intro ended
    cases hpc : c.pc with
    | exited =>
      rw [hpc, idle] at signals
      rw [hpc] at fits
      have counted : c.b = n := signals
      have whole : c.b = setup.dataNum := fits
      omega
    | failed | killed => simp [hpc, ConsumerPc.Fits] at fits
    | _ => simp [hpc, ConsumerPc.ended] at ended
  have pends : c.sigqueue n = { c with pending := some n } := by
    simp [Consumer.sigqueue, alive, idle]
  rw [pends]
  refine ⟨?_, fits, compared⟩
  simpa [idle] using signals

/-- Before any signal is sent, a consumer that is forked has done nothing. -/
theorem Consumer.Woken.fork (h : c.Woken setup 0) :
    { c with pc := .install : Consumer }.Woken setup 0 := by
  obtain ⟨signals, fits, compared⟩ := h
  have idle : c.pending.toList.length = 0 := by omega
  have never : c.pc.wakeups c.b = 0 := by omega
  have start : c.b = 0 ∧ c.compared.length = 0 := by
    cases hpc : c.pc with
    | notForked | install | firstPause | firstPaused =>
      rw [hpc] at fits compared
      exact ⟨fits, compared.trans fits⟩
    | testEnd | pause | paused | exited =>
      rw [hpc] at never compared
      exact ⟨never, compared.trans never⟩
    | failed | killed => simp [hpc, ConsumerPc.Fits] at fits
    | _ => simp [hpc, ConsumerPc.wakeups] at never
  exact ⟨by simpa [ConsumerPc.wakeups] using idle, start.1, start.2.trans start.1.symm⟩

theorem ConsumerMove.woken (positive : 1 ≤ setup.dataNum)
    (move : ConsumerMove setup c shared c' shared')
    (linked : c.pc = .shmOpen → shared.linked = true) (h : c.Woken setup sent) :
    c'.Woken setup sent := by
  obtain ⟨signals, fits, compared⟩ := h
  cases move with
  | unlinked pc gone => simp [linked pc] at gone
  | attach pc =>
    rw [pc] at signals fits compared
    have start : c.b = 0 := fits
    rw [start] at signals compared
    exact ⟨signals, positive, compared⟩
  | enter pc more =>
    rw [pc] at signals compared
    apply setup.version.enter_of (P := fun next =>
      Consumer.Woken setup { c with pc := next, split := [] } sent)
    · exact ⟨signals, more, compared⟩
    · exact ⟨signals, more, compared⟩
  | spin | copyByte => exact ⟨signals, fits, compared⟩
  | copyEnd pc =>
    rw [pc] at signals fits compared
    apply setup.version.enter_of (P := fun next => Consumer.Woken setup { c with
      pc := next
      split := c.split ++ [newline]
      copied := c.copied ++ [(c.ptr / 80, c.split)] } sent)
    · exact ⟨signals, fits, compared⟩
    · exact ⟨signals, fits, compared⟩
  | equal pc | different pc =>
    rw [pc] at signals fits compared
    have one : (c.compared ++ [c.recvSeq]).length = c.b + 1 := by
      rw [List.length_append, compared]
      rfl
    exact ⟨signals, fits, one⟩
  | exit pc done =>
    rw [pc] at signals fits compared
    exact ⟨signals, Nat.le_antisymm fits done, compared⟩
  | again pc more =>
    rw [pc] at signals compared
    exact ⟨signals, Nat.lt_of_not_ge more, compared⟩
  | install pc | blockFirst pc | acquire pc | release pc | add _ pc | advance pc | block pc =>
    rw [pc] at signals fits compared
    exact ⟨signals, fits, compared⟩

/-- A signal that is delivered in `pause` is a wake-up. -/
theorem DeliverMove.woken (move : DeliverMove c c') (waiting : c.pc.waiting)
    (h : c.Woken setup sent) : c'.Woken setup sent := by
  obtain ⟨signals, fits, compared⟩ := h
  cases move with
  | kill n pending pc => simp [pc, ConsumerPc.waiting] at waiting
  | handle n pending handles =>
    cases hpc : c.pc with
    | firstPaused =>
      simp only [hpc, pending, ConsumerPc.wakeups, ConsumerPc.Fits] at signals fits
      rw [hpc] at compared
      refine ⟨?_, fits, compared⟩
      simpa [ConsumerPc.wake, ConsumerPc.wakeups, fits] using signals
    | paused =>
      rw [hpc, pending] at signals
      rw [hpc] at fits compared
      exact ⟨signals, fits, compared⟩
    | _ => simp [hpc, ConsumerPc.waiting] at waiting

/-! ## Every run that keeps its signals -/

/-- So many processes are forked. -/
def ProducerPc.forks (setup : Setup) : ProducerPc → Nat
  | .clearLock => 0
  | .fork i => i
  | _ => setup.consumer

/-- So many processes are waited for. -/
def ProducerPc.reaped (setup : Setup) : ProducerPc → Nat
  | .wait i => i
  | .finished => setup.consumer
  | _ => 0

structure AllWoken (setup : Setup) (s : State) : Prop where
  woken : ∀ c < setup.consumer, (s.consumers c).Woken setup (s.producer.pc.sentBound setup c)
  forked : ∀ c < s.producer.pc.forks setup, (s.consumers c).pc ≠ .notForked
  reaped : ∀ c < s.producer.pc.reaped setup, (s.consumers c).pc.ended

/-- Only a signal that is sent to a consumer raises its bound. -/
theorem ProducerMove.sentBound_eq {c : Nat} (move : ProducerMove setup s t)
    (placed : s.producer.Placed setup) (inside : c < setup.consumer)
    (other : ∀ n, s.producer.pc = .send n c → setup.consumer ≤ c) :
    t.producer.pc.sentBound setup c = s.producer.pc.sentBound setup c := by
  cases move with
  | body n pc =>
    rw [pc]
    exact setup.version.enter_of (P := fun next => ProducerPc.sentBound setup c next = n) rfl rfl
  | toWait n pc done =>
    have number := placed.number
    rw [pc] at number ⊢
    exact Nat.le_antisymm (Nat.le_of_not_lt done) number
  | copyEnd n j pc =>
    rw [pc]
    exact setup.version.enter_of (P := fun next => ProducerPc.sentBound setup c next = n) rfl rfl
  | send n i pc =>
    have apart : c ≠ i := by
      rintro rfl
      exact absurd inside (Nat.not_lt_of_le (other n pc))
    have same : c < i + 1 ↔ c < i := by omega
    simp only [pc, ProducerPc.sentBound, same]
  | sent n i pc done =>
    have before : c < i := by omega
    simp only [pc, ProducerPc.sentBound, before, if_true]
  | spin => rfl
  | clearLock pc | fork _ pc | forked _ pc | acquire _ pc | copyByte _ _ pc | release _ pc
  | sleep _ pc | reap _ pc | finish _ pc =>
    rw [pc]
    rfl

theorem ProducerMove.forks (move : ProducerMove setup s t)
    (forked : ∀ c < s.producer.pc.forks setup, (s.consumers c).pc ≠ .notForked) :
    ∀ c < t.producer.pc.forks setup, (t.consumers c).pc ≠ .notForked := by
  intro c inside
  -- A process that is forked stays so, and only one is added.
  have old : c < s.producer.pc.forks setup ∨ (t.consumers c).pc = .install := by
    cases move with
    | clearLock => exact absurd inside (Nat.not_lt_zero c)
    | fork i pc =>
      rcases Nat.lt_succ_iff_lt_or_eq.mp inside with before | now
      · exact Or.inl (by rwa [pc])
      · exact Or.inr (by simp [now])
    | forked i pc done =>
      have before : c < i := Nat.lt_of_lt_of_le inside (Nat.le_of_not_lt done)
      exact Or.inl (by rwa [pc])
    | body n pc | copyEnd n _ pc =>
      rw [pc]
      left
      revert inside
      exact setup.version.enter_of (P := fun next =>
        c < ProducerPc.forks setup next → c < setup.consumer) id id
    | spin => exact Or.inl inside
    | toWait _ pc | acquire _ pc | copyByte _ _ pc | release _ pc | send _ _ pc | sent _ _ pc
    | sleep _ pc | reap _ pc | finish _ pc => exact Or.inl (by rwa [pc])
  rcases old with before | new
  · rcases move.consumer c with ⟨same, -⟩ | ⟨-, -, same⟩ | ⟨n, -, -, -, same⟩
    · rw [same]
      exact forked c before
    · rw [same]
      nofun
    · rw [same, Consumer.sigqueue_eq]
      exact forked c before
  · rw [new]
    nofun

theorem ProducerMove.reaps (move : ProducerMove setup s t)
    (reaped : ∀ c < s.producer.pc.reaped setup, (s.consumers c).pc.ended) :
    ∀ c < t.producer.pc.reaped setup, (t.consumers c).pc.ended := by
  intro c inside
  cases move with
  | reap i pc more ended =>
    rcases Nat.lt_succ_iff_lt_or_eq.mp inside with before | now
    · exact reaped c (by rwa [pc])
    · exact now ▸ ended
  | finish i pc done =>
    have before : c < i := Nat.lt_of_lt_of_le inside (Nat.le_of_not_lt done)
    exact reaped c (by rwa [pc])
  | spin => exact reaped c inside
  | body | copyEnd =>
    refine absurd inside ?_
    exact setup.version.enter_of (P := fun next => ¬ c < ProducerPc.reaped setup next)
      (Nat.not_lt_zero c) (Nat.not_lt_zero c)
  | _ => exact absurd inside (Nat.not_lt_zero c)

theorem AllWoken.producer (h : AllWoken setup s) (layout : Layout setup s)
    (kept : keepsSignals setup .producer s) (move : ProducerMove setup s t) : AllWoken setup t := by
  refine ⟨?_, move.forks h.forked, move.reaps h.reaped⟩
  intro c inside
  have woken := h.woken c inside
  rcases move.consumer c with ⟨same, other⟩ | ⟨pc, -, same⟩ | ⟨n, pc, -, pc', same⟩
  · rw [same, move.sentBound_eq layout.producer inside other]
    exact woken
  · have bound := move.sentBound_eq layout.producer inside (by simp [pc])
    rw [same, bound, pc]
    rw [pc] at woken
    exact woken.fork
  · have idle : (s.consumers c).pending = none := by
      simpa [keepsSignals, pc, Nat.not_le.mpr inside] using kept
    have more : n < setup.dataNum := by
      simpa [pc, ProducerPc.number, ProducerPc.inBody] using layout.producer.inBody
    simp only [pc, ProducerPc.sentBound, lt_irrefl, if_false] at woken
    rw [same, pc']
    simpa [ProducerPc.sentBound] using woken.sigqueue more idle

/-- A step of consumer `c`. -/
theorem AllWoken.update (h : AllWoken setup s) {c : Nat} {client : Consumer} {shared : Shared}
    (woken : c < setup.consumer → client.Woken setup (s.producer.pc.sentBound setup c))
    (forked : client.pc ≠ .notForked) (running : ¬ (s.consumers c).pc.ended) :
    AllWoken setup { s with consumers := Function.update s.consumers c client, shared } := by
  refine ⟨?_, ?_, ?_⟩
  · intro k inside
    by_cases same : k = c
    · subst same
      simpa using woken inside
    · simpa [same] using h.woken k inside
  · intro k inside
    by_cases same : k = c
    · simpa [same] using forked
    · simpa [same] using h.forked k inside
  · intro k inside
    by_cases same : k = c
    · exact absurd (same ▸ h.reaped k inside) running
    · simpa [same] using h.reaped k inside

theorem ConsumerMove.stays (move : ConsumerMove setup c shared c' shared') :
    c'.pc ≠ .notForked := by
  cases move with
  | enter | copyEnd => exact setup.version.enter_of (P := (· ≠ ConsumerPc.notForked)) nofun nofun
  | spin pc | copyByte pc => simp [pc]
  | _ => nofun

theorem DeliverMove.stays (move : DeliverMove c c') (waiting : c.pc.waiting) :
    c'.pc ≠ .notForked := by
  cases move with
  | kill => nofun
  | handle n pending handles =>
    cases hpc : c.pc with
    | firstPaused | paused => simp [ConsumerPc.wake]
    | _ => simp [hpc, ConsumerPc.waiting] at waiting

theorem allWoken (positive : 1 ≤ setup.dataNum)
    (reach : ((ringBuffer setup).restrict (keepsSignals setup · ·)).Reachable s) :
    AllWoken setup s := by
  refine reach.invariant_of (fun _ h => layout (restrict_reachable h)) ?_ ?_
  · rintro s rfl
    apply setup.version.enter_of (P := fun next => AllWoken setup { State.initial setup with
      producer := ⟨next, 0, []⟩ })
    · exact ⟨fun _ _ => ⟨rfl, rfl, rfl⟩, nofun, nofun⟩
    · exact ⟨fun _ _ => ⟨rfl, rfl, rfl⟩, nofun, nofun⟩
  · rintro act s t layout h ⟨kept, step⟩
    cases next_move step with
    | producer _ move => exact h.producer layout kept move
    | consumer c outcome client shared move =>
      refine h.update ?_ move.stays move.running.2.2
      intro inside
      apply move.woken positive ?_ (h.woken c inside)
      intro pc
      simpa [keepsSignals, pc] using kept
    | deliver c client move =>
      have waiting : (s.consumers c).pc.waiting := kept
      refine h.update (fun inside => move.woken waiting (h.woken c inside)) (move.stays waiting) ?_
      intro ended
      cases hpc : (s.consumers c).pc with
      | firstPaused | paused => simp [hpc, ConsumerPc.ended] at ended
      | _ => simp [hpc, ConsumerPc.waiting] at waiting

/-! ## Where no step is possible -/

theorem producerStep_none (noStep : producerStep setup s = none) :
    (∃ i, s.producer.pc = .wait i) ∨ s.producer.pc = .finished := by
  cases hpc : s.producer.pc with
  | wait i => exact Or.inl ⟨i, rfl⟩
  | finished => exact Or.inr rfl
  | clearLock | unlock | sleep => simp [producerStep, hpc] at noStep
  | _ =>
    simp only [producerStep, hpc] at noStep
    split at noStep
    · cases noStep
    · cases noStep

/-- A consumer that is forked, has no step and no signal is in `pause` or has ended. -/
theorem consumerStep_none (forked : c.pc ≠ .notForked) (h : c.Woken setup sent)
    (noStep : consumerStep setup true c shared = none) (nothing : c.deliver = none) :
    (c.pc.waiting ∧ c.pending = none) ∨ c.pc.ended := by
  cases hpc : c.pc with
  | notForked => exact absurd hpc forked
  | firstPaused | paused =>
    refine Or.inl ⟨rfl, ?_⟩
    cases hp : c.pending with
    | none => rfl
    | some n => simp [Consumer.deliver, hp, hpc] at nothing
  | exited | failed | killed => exact Or.inr rfl
  | test =>
    have fits := h.fits
    rw [hpc] at fits
    have more : c.b < setup.dataNum := fits
    simp [consumerStep, hpc, more] at noStep
  | lock | copy | testEnd =>
    simp only [consumerStep, hpc] at noStep
    split at noStep
    · cases noStep
    · cases noStep
  | _ => simp [consumerStep, hpc] at noStep

/-- All numbers are sent: a consumer in `pause` has one pending. -/
theorem Consumer.Woken.not_waiting (positive : 1 ≤ setup.dataNum)
    (h : c.Woken setup setup.dataNum) :
    ¬ (c.pc.waiting ∧ c.pending = none) := by
  rintro ⟨waiting, idle⟩
  obtain ⟨signals, fits, -⟩ := h
  cases hpc : c.pc with
  | firstPaused =>
    rw [hpc, idle] at signals
    have none : 0 = setup.dataNum := signals
    omega
  | paused =>
    rw [hpc, idle] at signals
    rw [hpc] at fits
    have counted : c.b = setup.dataNum := signals
    have more : c.b < setup.dataNum := fits
    omega
  | _ => simp [hpc, ConsumerPc.waiting] at waiting

theorem Consumer.Woken.exited (h : c.Woken setup sent) (ended : c.pc.ended) :
    c.pc = .exited ∧ c.b = setup.dataNum ∧ c.compared.length = setup.dataNum := by
  obtain ⟨-, fits, compared⟩ := h
  cases hpc : c.pc with
  | exited =>
    rw [hpc] at fits compared
    exact ⟨rfl, fits, compared.trans fits⟩
  | failed | killed => simp [hpc, ConsumerPc.Fits] at fits
  | _ => simp [hpc, ConsumerPc.ended] at ended

/-- Every consumer has gone through its loop for all messages and exited when nothing can
happen any more, and the producer waits for none that is in `pause` without a signal. -/
def EveryoneFinishes (setup : Setup) (s : State) : Prop :=
  (Stuck (ringBuffer setup) s ∨ s.producer.pc = .finished → ∀ c < setup.consumer,
    (s.consumers c).pc = .exited ∧ (s.consumers c).b = setup.dataNum ∧
    (s.consumers c).compared.length = setup.dataNum) ∧
  ∀ i, s.producer.pc = .wait i → ∀ c < setup.consumer,
    ¬ ((s.consumers c).pc.waiting ∧ (s.consumers c).pending = none)

/-- In a run that loses no signal every consumer finishes. -/
theorem consumers_finish_awaited (positive : 1 ≤ setup.dataNum)
    (reach : ((ringBuffer setup).restrict (keepsSignals setup · ·)).Reachable s) :
    EveryoneFinishes setup s := by
  have h := allWoken positive reach
  have awake (i : Nat) (pc : s.producer.pc = .wait i) (c : Nat) (inside : c < setup.consumer) :
      ¬ ((s.consumers c).pc.waiting ∧ (s.consumers c).pending = none) := by
    have woken := h.woken c inside
    rw [pc] at woken
    exact woken.not_waiting positive
  have ended (done : s.producer.pc = .finished) (c : Nat) (inside : c < setup.consumer) :
      (s.consumers c).pc.ended := h.reaped c (by rwa [done])
  refine ⟨?_, awake⟩
  rintro (stuck | done) c inside
  · apply (h.woken c inside).exited
    have noStep (act : Act) : next setup act s = none :=
      Option.eq_none_iff_forall_ne_some.mpr fun t => stuck act t
    rcases producerStep_none (noStep .producer) with ⟨i, pc⟩ | done
    · have forked := h.forked c (by rwa [pc])
      have noStatement := Option.map_eq_none_iff.mp (noStep (.consumer c true))
      have noDelivery := Option.map_eq_none_iff.mp (noStep (.deliver c))
      rcases consumerStep_none forked (h.woken c inside) noStatement noDelivery with waits | ended
      · exact absurd waits (awake i pc c inside)
      · exact ended
    · exact ended done c inside
  · exact (h.woken c inside).exited (ended done c inside)

/-- The consumer is in `pause` whenever a message is sent. -/
theorem two_messages_received :
    ∃ s, ((ringBuffer (twoMessages .plain)).restrict
      (keepsSignals (twoMessages .plain) · ·)).Reachable s ∧
      s.producer.pc = .finished ∧ (s.consumers 0).pc = .exited ∧ (s.consumers 0).b = 2 := by
  have run : (follow (guarded (keepsSignals (twoMessages .plain) · ·) (next (twoMessages .plain)))
      (firstMessage ++ List.replicate 3 (Act.consumer 0 true) ++ List.replicate 22 Act.producer ++
        [Act.deliver 0] ++ List.replicate 23 (Act.consumer 0 true) ++ List.replicate 5 Act.producer)
      (State.initial (twoMessages .plain))).map (fun s => s.producer.pc) = some .finished := by
    decide +kernel
  obtain ⟨s, hs, done⟩ := Option.map_eq_some_iff.mp run
  have reach : ((ringBuffer (twoMessages .plain)).restrict
      (keepsSignals (twoMessages .plain) · ·)).Reachable s :=
    (Reachable.initial rfl).run (follow_guarded_run hs)
  have finishes := consumers_finish_awaited (by decide) reach
  obtain ⟨exited, counted, -⟩ := finishes.1 (Or.inr done) 0 (by decide)
  exact ⟨s, reach, done, exited, counted⟩

end RingBuffer
