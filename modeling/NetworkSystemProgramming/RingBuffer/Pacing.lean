import NetworkSystemProgramming.RingBuffer.Wakeups

/-!
# Messages that come slowly enough

`usleep` between two messages is there to let the consumers come back to `pause`. When the
producer starts a message only after that, every signal finds its consumer in `pause` with
nothing pending, so no signal is lost; and from the second message on every consumer has
opened the shared memory before one that exits can unlink it.
-/

namespace RingBuffer

open ByteBuffers ByteMemory StepSystems StepSystem

/-- Blocked in `pause`, with no signal to end it. -/
def Consumer.Idle (c : Consumer) : Prop := c.pc.waiting ∧ c.pending = none

/-- The producer starts a message when every consumer waits for it, and no
compare-and-swap is tried in vain. -/
def InTime (setup : Setup) (act : Act) (s : State) : Prop :=
  match act with
  | .producer =>
    (∀ n, s.producer.pc = .head n → n < setup.dataNum →
      ∀ c < setup.consumer, (s.consumers c).Idle) ∧
    ∀ n, s.producer.pc = .lock n → load32 s.shared.mem setup.lockAddr = 0
  | .consumer c _ => (s.consumers c).pc = .lock → load32 s.shared.mem setup.lockAddr = 0
  | .deliver _ => True

/-- A message is started that consumer `c` has not been told of. -/
def ProducerPc.before (c : Nat) : ProducerPc → Prop
  | .lock _ | .copy _ _ | .unlock _ => True
  | .send _ i1 => i1 ≤ c
  | _ => False

/-- Past the opening of the shared memory. -/
def ConsumerPc.attached : ConsumerPc → Bool
  | .notForked | .install | .firstPause | .firstPaused | .shmOpen => false
  | _ => true

structure Calm (setup : Setup) (s : State) : Prop where
  pends : ∀ c, (s.consumers c).pending ≠ none → (s.consumers c).pc.waiting
  quiet : ∀ c < setup.consumer, s.producer.pc.before c → (s.consumers c).Idle
  unforked : ∀ c, s.producer.pc.forks setup ≤ c → (s.consumers c).pc = .notForked
  unlinked : s.shared.linked = false → s.producer.pc.forks setup = setup.consumer ∧
    ∀ c < setup.consumer, (s.consumers c).pc.attached

variable {setup : Setup} {s t : State} {c c' : Consumer} {shared shared' : Shared} {sent : Nat}

/-! ## Single steps -/

theorem ConsumerMove.pending (move : ConsumerMove setup c shared c' shared') :
    c'.pending = c.pending := by
  cases move with
  | _ => rfl

theorem DeliverMove.pending (move : DeliverMove c c') : c.pending ≠ none := by
  cases move with
  | kill n pending | handle n pending => simp [pending]

theorem ConsumerMove.attached (move : ConsumerMove setup c shared c' shared')
    (attached : c.pc.attached) : c'.pc.attached := by
  cases move with
  | install pc | blockFirst pc | unlinked pc => simp [pc, ConsumerPc.attached] at attached
  | enter | copyEnd => exact setup.version.enter_of (P := fun pc => ConsumerPc.attached pc) rfl rfl
  | spin | copyByte => exact attached
  | _ => rfl

/-- Only the last statement of a consumer unlinks the shared memory. -/
theorem ConsumerMove.linked (move : ConsumerMove setup c shared c' shared') :
    shared'.linked = shared.linked ∨
      (c.pc = .testEnd ∧ c.b ≥ setup.dataNum ∧ c'.pc = .exited) := by
  cases move with
  | exit pc done => exact Or.inr ⟨pc, done, rfl⟩
  | _ => exact Or.inl rfl

theorem ProducerMove.linked (move : ProducerMove setup s t) :
    t.shared.linked = s.shared.linked ∨
      ∃ i, s.producer.pc = .wait i ∧ ¬ i < setup.consumer := by
  cases move with
  | finish i pc done => exact Or.inr ⟨i, pc, done⟩
  | _ => exact Or.inl rfl

/-- The producer comes to a new message from the head of its loop only. -/
theorem ProducerMove.before {k : Nat} (move : ProducerMove setup s t)
    (before : t.producer.pc.before k) :
    s.producer.pc.before k ∨ ∃ n, s.producer.pc = .head n ∧ n < setup.dataNum := by
  cases move with
  | body n pc more => exact Or.inr ⟨n, pc, more⟩
  | acquire n pc | copyByte n j pc | copyEnd n j pc | release n pc =>
    exact Or.inl (by simp [pc, ProducerPc.before])
  | spin => exact Or.inl before
  | send n i1 pc =>
    have later : i1 + 1 ≤ k := before
    refine Or.inl ?_
    rw [pc]
    exact Nat.le_of_succ_le later
  | _ => exact absurd before id

theorem ProducerMove.forks_all (move : ProducerMove setup s t)
    (all : s.producer.pc.forks setup = setup.consumer) :
    t.producer.pc.forks setup = setup.consumer := by
  cases move with
  | clearLock pc => rwa [pc] at all
  | fork i pc more =>
    rw [pc] at all
    have last : i = setup.consumer := all
    omega
  | body | copyEnd =>
    exact setup.version.enter_of (P := fun pc => ProducerPc.forks setup pc = setup.consumer) rfl rfl
  | spin => exact all
  | _ => rfl

/-- A process is not forked before its turn. -/
theorem ProducerMove.unforked {k : Nat} (move : ProducerMove setup s t)
    (inside : k < setup.consumer) (ahead : t.producer.pc.forks setup ≤ k) :
    s.producer.pc.forks setup ≤ k ∧ t.consumers k = s.consumers k := by
  cases move with
  | clearLock pc =>
    rw [pc]
    exact ⟨Nat.zero_le k, rfl⟩
  | fork i pc more =>
    have later : i + 1 ≤ k := ahead
    rw [pc]
    exact ⟨Nat.le_of_succ_le later, Function.update_of_ne (by omega) ..⟩
  | body | copyEnd =>
    refine absurd ahead ?_
    exact setup.version.enter_of (P := fun pc => ¬ ProducerPc.forks setup pc ≤ k)
      (Nat.not_le.mpr inside) (Nat.not_le.mpr inside)
  | spin => exact ⟨ahead, rfl⟩
  | _ => exact absurd inside (Nat.not_lt.mpr ahead)

/-- A consumer that has been woken twice, or waits after it was told of a message, has
opened the shared memory. -/
theorem Consumer.Woken.attached (h : c.Woken setup sent)
    (pends : c.pending ≠ none → c.pc.waiting) (told : 2 ≤ sent ∨ (1 ≤ sent ∧ c.Idle)) :
    c.pc.attached := by
  obtain ⟨signals, fits, -⟩ := h
  have single : c.pending.toList.length ≤ 1 := by
    cases c.pending with
    | none => exact Nat.zero_le 1
    | some n => exact le_refl 1
  have first : ¬ c.pc.waiting → c.pending.toList.length = 0 := by
    intro busy
    have none : c.pending = none := not_not.mp (mt pends busy)
    rw [none]
    rfl
  cases hpc : c.pc with
  | notForked | install | firstPause =>
    rw [hpc] at signals first
    have own : 0 + c.pending.toList.length = sent := signals
    have nothing := first (by simp [ConsumerPc.waiting])
    omega
  | firstPaused =>
    rw [hpc] at signals
    have own : 0 + c.pending.toList.length = sent := signals
    rcases told with twice | ⟨once, -, idle⟩
    · omega
    · rw [idle] at own
      have zero : 0 = sent := own
      omega
  | shmOpen =>
    rw [hpc] at signals fits first
    have start : c.b = 0 := fits
    have own : c.b + 1 + c.pending.toList.length = sent := signals
    have nothing := first (by simp [ConsumerPc.waiting])
    rcases told with twice | ⟨-, waiting, -⟩
    · omega
    · simp [hpc, ConsumerPc.waiting] at waiting
  | _ => rfl

/-! ## Every run that is in time -/

/-- The numbers that two consumers have been sent differ by the message that is being
sent. -/
theorem sentBound_of_all {i k : Nat} (placed : s.producer.Placed setup)
    (all : s.producer.pc.sentBound setup i = setup.dataNum) :
    s.producer.pc.sentBound setup k = setup.dataNum ∨
      (s.producer.pc.before k ∧ s.producer.pc.sentBound setup k + 1 = setup.dataNum) := by
  cases hpc : s.producer.pc with
  | send n i1 =>
    have inBody := placed.inBody
    rw [hpc] at inBody all
    have less : n < setup.dataNum := inBody rfl
    simp only [ProducerPc.sentBound] at all ⊢
    by_cases told : k < i1
    · rw [if_pos told]
      split at all
      · exact Or.inl all
      · omega
    · rw [if_neg told]
      refine Or.inr ⟨Nat.le_of_not_lt told, ?_⟩
      split at all
      · exact all
      · omega
  | _ =>
    rw [hpc] at all
    exact Or.inl all

theorem Calm.producer (h : Calm setup s) (layout : Layout setup s)
    (numbered : Numbered setup s) (woken : AllWoken setup s) (inTime : InTime setup .producer s)
    (move : ProducerMove setup s t) : Calm setup t := by
  obtain ⟨pends, quiet, unforked, unlinked⟩ := h
  -- A process is forked with nothing pending, as no signal has been sent.
  have fresh {i : Nat} (pc : s.producer.pc = .fork i) (inside : i < setup.consumer) :
      (s.consumers i).pending = none := by
    have signals := (woken.woken i inside).signals
    have start := unforked i (by rw [pc]; exact le_refl i)
    by_contra some
    have waiting := pends i some
    simp [start, ConsumerPc.waiting] at waiting
  have unforked' : ∀ k, t.producer.pc.forks setup ≤ k → (t.consumers k).pc = .notForked := by
    intro k ahead
    by_cases inside : k < setup.consumer
    · obtain ⟨ahead, same⟩ := move.unforked inside ahead
      rw [same]
      exact unforked k ahead
    · exact (numbered.producer layout move).forked k (Nat.le_of_not_lt inside)
  refine ⟨?_, ?_, unforked', ?_⟩
  · intro k some
    rcases move.consumer k with ⟨same, -⟩ | ⟨pc, inside, same⟩ | ⟨n, pc, inside, -, same⟩
    · rw [same] at some ⊢
      exact pends k some
    · rw [same] at some
      exact absurd (fresh pc inside) some
    · rw [same, Consumer.sigqueue_eq]
      exact (quiet k inside (by rw [pc]; exact le_refl k)).1
  · intro k inside before
    have idle : (s.consumers k).Idle := by
      rcases move.before before with early | ⟨n, pc, more⟩
      · exact quiet k inside early
      · exact inTime.1 n pc more k inside
    rcases move.consumer k with ⟨same, -⟩ | ⟨pc, -, -⟩ | ⟨n, pc, -, pc', -⟩
    · rwa [same]
    · exact absurd (idle.1) (by simp [unforked k (by rw [pc]; exact le_refl k), ConsumerPc.waiting])
    · rw [pc'] at before
      exact absurd before (Nat.not_succ_le_self k)
  · intro gone
    have linked := move.linked
    have attached : s.producer.pc.forks setup = setup.consumer ∧
        ∀ k < setup.consumer, (s.consumers k).pc.attached := by
      rcases linked with same | ⟨i, pc, done⟩
      · exact unlinked (same ▸ gone)
      · refine ⟨by rw [pc]; rfl, ?_⟩
        intro k inside
        have ended := woken.reaped k (by rw [pc]; exact inside.trans_le (Nat.le_of_not_lt done))
        rw [((woken.woken k inside).exited ended).1]
        rfl
    refine ⟨move.forks_all attached.1, ?_⟩
    intro k inside
    rcases move.consumer k with ⟨same, -⟩ | ⟨pc, -, -⟩ | ⟨n, -, -, -, same⟩
    · rw [same]
      exact attached.2 k inside
    · have all := attached.1
      rw [pc] at all
      exact absurd all inside.ne
    · rw [same, Consumer.sigqueue_eq]
      exact attached.2 k inside

/-- A step of consumer `k`. -/
theorem Calm.update {k : Nat} {client : Consumer} {shared : Shared} (h : Calm setup s)
    (pends : client.pending ≠ none → client.pc.waiting) (busy : ¬ (s.consumers k).Idle)
    (forked : (s.consumers k).pc ≠ .notForked)
    (unlinked : shared.linked = false → s.producer.pc.forks setup = setup.consumer ∧
      client.pc.attached ∧ ∀ i < setup.consumer, i ≠ k → (s.consumers i).pc.attached) :
    Calm setup { s with consumers := Function.update s.consumers k client, shared } := by
  refine ⟨?_, ?_, ?_, ?_⟩
  · apply (Function.forall_update_iff s.consumers fun (_ : Nat) (client : Consumer) =>
      client.pending ≠ none → client.pc.waiting).mpr
    exact ⟨pends, fun i _ => h.pends i⟩
  · intro i inside before
    by_cases same : i = k
    · exact absurd (h.quiet k (same ▸ inside) (same ▸ before)) busy
    · simp only [Function.update_of_ne same]
      exact h.quiet i inside before
  · intro i ahead
    by_cases same : i = k
    · exact absurd (h.unforked k (same ▸ ahead)) forked
    · simp only [Function.update_of_ne same]
      exact h.unforked i ahead
  · intro gone
    obtain ⟨all, own, others⟩ := unlinked gone
    refine ⟨all, ?_⟩
    intro i inside
    by_cases same : i = k
    · subst same
      simpa only [Function.update_self] using own
    · simp only [Function.update_of_ne same]
      exact others i inside same

theorem Calm.consumer {k : Nat} (several : 2 ≤ setup.dataNum) (h : Calm setup s)
    (layout : Layout setup s) (woken : AllWoken setup s) (inside : k < setup.consumer)
    (move : ConsumerMove setup (s.consumers k) s.shared c' shared') :
    Calm setup { s with consumers := Function.update s.consumers k c', shared := shared' } := by
  obtain ⟨forked, awake, -⟩ := move.running
  have nothing : (s.consumers k).pending = none := not_not.mp (mt (h.pends k) awake)
  refine h.update ?_ (fun idle => awake idle.1) forked ?_
  · intro some
    exact absurd (move.pending.trans nothing) some
  · intro gone
    rcases move.linked with same | ⟨pc, done, exited⟩
    · obtain ⟨all, attached⟩ := h.unlinked (same ▸ gone)
      exact ⟨all, move.attached (attached k inside), fun i within _ => attached i within⟩
    · -- The last signal was sent to `k`, so the others were told of all but the last message.
      have bound := sentBound_le_dataNum layout.producer k
      have whole : s.producer.pc.sentBound setup k = setup.dataNum := by
        have signals := (woken.woken k inside).signals
        rw [pc, nothing] at signals
        have counted : (s.consumers k).b = s.producer.pc.sentBound setup k := signals
        omega
      refine ⟨?_, by rw [exited]; rfl, ?_⟩
      · cases hpc : s.producer.pc with
        | clearLock | fork =>
          rw [hpc] at whole
          have none : 0 = setup.dataNum := whole
          omega
        | _ => rfl
      · intro i within _
        refine (woken.woken i within).attached (h.pends i) ?_
        rcases sentBound_of_all (k := i) layout.producer whole with all | ⟨before, less⟩
        · exact Or.inl (by omega)
        · exact Or.inr ⟨by omega, h.quiet i within before⟩

theorem Calm.deliver {k : Nat} {client : Consumer} (h : Calm setup s)
    (move : DeliverMove (s.consumers k) client) :
    Calm setup { s with consumers := Function.update s.consumers k client } := by
  have some := move.pending
  refine h.update ?_ (fun idle => some idle.2) move.forked ?_
  · cases move with
    | kill | handle => exact fun none => absurd rfl none
  · intro gone
    obtain ⟨all, attached⟩ := h.unlinked gone
    refine ⟨all, ?_, fun i within _ => attached i within⟩
    have inside : k < setup.consumer := by
      by_contra outside
      exact move.forked (h.unforked k (all ▸ Nat.le_of_not_lt outside))
    have waiting := h.pends k some
    cases move with
    | kill n pending pc => simp [pc, ConsumerPc.waiting] at waiting
    | handle n pending handles =>
      cases hpc : (s.consumers k).pc with
      | firstPaused => simpa [hpc, ConsumerPc.attached] using attached k inside
      | paused => rfl
      | _ => simp [hpc, ConsumerPc.waiting] at waiting

/-- A run that is in time loses no signal. -/
theorem Calm.keepsSignals {act : Act} (h : Calm setup s) (numbered : Numbered setup s)
    (move : Move setup s act t) : keepsSignals setup act s := by
  cases move with
  | producer _ move =>
    cases hpc : s.producer.pc with
    | send n i1 =>
      by_cases inside : i1 < setup.consumer
      · have idle := h.quiet i1 inside (by rw [hpc]; exact le_refl i1)
        simp [RingBuffer.keepsSignals, hpc, idle.2]
      · simp [RingBuffer.keepsSignals, hpc, Nat.le_of_not_lt inside]
    | _ => simp [RingBuffer.keepsSignals, hpc]
  | consumer c outcome client shared move =>
    by_cases opens : (s.consumers c).pc = .shmOpen
    · have inside : c < setup.consumer := by
        by_contra outside
        exact move.running.1 (numbered.forked c (Nat.le_of_not_lt outside))
      have linked : s.shared.linked = true := by
        by_contra gone
        have attached := (h.unlinked (Bool.eq_false_of_not_eq_true gone)).2 c inside
        simp [opens, ConsumerPc.attached] at attached
      simp [RingBuffer.keepsSignals, linked]
    · simp [RingBuffer.keepsSignals, opens]
  | deliver c client move => exact h.pends c move.pending

theorem calm (several : 2 ≤ setup.dataNum)
    (reach : ((ringBuffer setup).restrict (InTime setup)).Reachable s) :
    ((ringBuffer setup).restrict (RingBuffer.keepsSignals setup · ·)).Reachable s ∧
      Calm setup s := by
  refine reach.invariant (I := fun s =>
    ((ringBuffer setup).restrict (RingBuffer.keepsSignals setup · ·)).Reachable s ∧
      Calm setup s) ?_ ?_
  · rintro s rfl
    refine ⟨Reachable.initial rfl, ?_⟩
    apply setup.version.enter_of (P := fun next => Calm setup { State.initial setup with
      producer := ⟨next, 0, []⟩ })
    · exact ⟨fun c => absurd rfl, nofun, fun c _ => rfl, nofun⟩
    · exact ⟨fun c => absurd rfl, nofun, fun c _ => rfl, nofun⟩
  · rintro act s t ⟨known, h⟩ ⟨inTime, step⟩
    have all : (ringBuffer setup).Reachable s := restrict_reachable known
    have move := next_move step
    have woken := allWoken (by omega) known
    refine ⟨known.next (l := act) ⟨h.keepsSignals (numbered all) move, step⟩, ?_⟩
    cases move with
    | producer _ move => exact h.producer (layout all) (numbered all) woken inTime move
    | consumer c outcome client shared move =>
      have inside : c < setup.consumer := by
        by_contra outside
        exact move.running.1 ((numbered all).forked c (Nat.le_of_not_lt outside))
      exact h.consumer several (layout all) woken inside move
    | deliver c client move => exact h.deliver move

end RingBuffer
