import NetworkSystemProgramming.RingBuffer.Wakeups

/-!
# Runs that lose a signal

A signal that is dropped, kills its process or is delivered outside of `pause` is one
wake-up too few, and no later step makes up for it. So a run in which it happens is
never one in which every consumer finishes.
-/

namespace RingBuffer

open ByteBuffers ByteMemory StepSystems StepSystem

variable {setup : Setup} {s t u : State} {c c' : Consumer} {shared shared' : Shared}
  {slack sent : Nat}

/-- Ended without finishing. -/
def ConsumerPc.dead : ConsumerPc → Bool
  | .failed | .killed => true
  | _ => false

/-- At least `slack` of the signals that were sent neither woke the consumer nor are pending,
or it is dead. -/
def Consumer.Lags (setup : Setup) (slack sent : Nat) (c : Consumer) : Prop :=
  (c.pc.dead ∧ 0 < sent) ∨ ∃ k, k + slack ≤ sent ∧ c.Woken setup k

theorem ConsumerPc.dead_ended {pc : ConsumerPc} (dead : pc.dead) : pc.ended := by
  cases pc with
  | failed | killed => rfl
  | _ => exact absurd dead Bool.false_ne_true

theorem Consumer.Woken.alive (h : c.Woken setup sent) : ¬ c.pc.dead := by
  intro dead
  have fits := h.fits
  cases hpc : c.pc with
  | failed | killed => simp [hpc, ConsumerPc.Fits] at fits
  | _ => simp [hpc, ConsumerPc.dead] at dead

theorem Consumer.Lags.sigqueue {n : Nat} (h : c.Lags setup slack sent) :
    (c.sigqueue n).Lags setup slack (sent + 1) := by
  rcases h with ⟨dead, -⟩ | ⟨k, less, woken⟩
  · rw [Consumer.sigqueue, if_pos (ConsumerPc.dead_ended dead)]
    exact Or.inl ⟨dead, Nat.succ_pos sent⟩
  · rcases c.sigqueue_cases n with dropped | ⟨idle, pends⟩
    · rw [dropped]
      exact Or.inr ⟨k, by omega, woken⟩
    · rw [pends]
      obtain ⟨signals, fits, compared⟩ := woken
      refine Or.inr ⟨k + 1, by omega, ?_, fits, compared⟩
      simpa [idle] using signals

/-- A signal that finds another one pending is lost. -/
theorem Consumer.Lags.dropped {n : Nat} (busy : c.pending.isSome) (h : c.Lags setup 0 sent) :
    (c.sigqueue n).Lags setup 1 (sent + 1) := by
  have dropped : c.sigqueue n = c := by
    rcases c.sigqueue_cases n with dropped | ⟨idle, -⟩
    · exact dropped
    · simp [idle] at busy
  rw [dropped]
  rcases h with ⟨dead, -⟩ | ⟨k, less, woken⟩
  · exact Or.inl ⟨dead, Nat.succ_pos sent⟩
  · exact Or.inr ⟨k, by omega, woken⟩

/-- A consumer that finds the shared memory unlinked is dead. -/
theorem ConsumerMove.unlinked_dead (move : ConsumerMove setup c shared c' shared')
    (opens : c.pc = .shmOpen) (gone : shared.linked = false) : c'.pc.dead := by
  cases move with
  | unlinked => rfl
  | attach _ linked => simp [gone] at linked
  | install pc | blockFirst pc | enter pc | acquire pc | spin pc | copyByte pc | copyEnd pc
  | release pc | equal pc | different pc | add _ pc | advance pc | exit pc | again pc | block pc =>
    simp [opens] at pc

theorem ConsumerMove.lags (positive : 1 ≤ setup.dataNum)
    (move : ConsumerMove setup c shared c' shared')
    (h : c.Lags setup slack sent) : c'.Lags setup slack sent := by
  rcases h with ⟨dead, -⟩ | ⟨k, less, woken⟩
  · exact absurd (ConsumerPc.dead_ended dead) move.running.2.2
  · by_cases gone : c.pc = .shmOpen ∧ shared.linked = false
    · obtain ⟨opens, gone⟩ := gone
      have signals := woken.signals
      rw [opens] at signals
      have one : c.b + 1 + c.pending.toList.length = k := signals
      exact Or.inl ⟨move.unlinked_dead opens gone, by omega⟩
    · refine Or.inr ⟨k, less, move.woken positive ?_ woken⟩
      intro opens
      simpa [opens] using gone

/-- A signal that is delivered outside of `pause` is lost. -/
theorem DeliverMove.lost (move : DeliverMove c c') (early : ¬ c.pc.waiting)
    (h : c.Lags setup slack sent) : c'.Lags setup (slack + 1) sent := by
  rcases h with ⟨dead, -⟩ | ⟨k, less, signals, fits, compared⟩
  · cases move with
    | kill n pending pc => simp [pc, ConsumerPc.dead] at dead
    | handle n pending handles =>
      cases hpc : c.pc with
      | failed | killed => simp [hpc, ConsumerPc.handles] at handles
      | _ => simp [hpc, ConsumerPc.dead] at dead
  · cases move with
    | kill n pending pc =>
      rw [pending, Option.toList_some, List.length_singleton] at signals
      exact Or.inl ⟨rfl, by omega⟩
    | handle n pending handles =>
      have same : c.pc.wake = c.pc := by
        cases hpc : c.pc with
        | firstPaused | paused => simp [hpc, ConsumerPc.waiting] at early
        | _ => rfl
      rw [pending, Option.toList_some, List.length_singleton] at signals
      refine Or.inr ⟨c.pc.wakeups c.b, by omega, ?_⟩
      rw [same]
      exact ⟨rfl, fits, compared⟩

theorem DeliverMove.lags (move : DeliverMove c c') (h : c.Lags setup slack sent) :
    c'.Lags setup slack sent := by
  by_cases waiting : c.pc.waiting
  · rcases h with ⟨dead, -⟩ | ⟨k, less, woken⟩
    · cases hpc : c.pc with
      | failed | killed => simp [hpc, ConsumerPc.waiting] at waiting
      | _ => simp [hpc, ConsumerPc.dead] at dead
    · exact Or.inr ⟨k, less, move.woken waiting woken⟩
  · rcases move.lost waiting h with dead | ⟨k, less, woken⟩
    · exact Or.inl dead
    · exact Or.inr ⟨k, by omega, woken⟩

theorem Consumer.Lags.fork (h : c.Lags setup slack 0) :
    { c with pc := .install : Consumer }.Lags setup slack 0 := by
  rcases h with ⟨-, impossible⟩ | ⟨k, less, woken⟩
  · exact absurd impossible (Nat.lt_irrefl 0)
  · obtain rfl : k = 0 := by omega
    exact Or.inr ⟨0, less, woken.fork⟩

/-! ## Every run -/

/-- Consumer `c` lags behind the producer. -/
def Behind (setup : Setup) (slack c : Nat) (s : State) : Prop :=
  (s.consumers c).Lags setup slack (s.producer.pc.sentBound setup c)

theorem Behind.next {act : Act} {c : Nat} (positive : 1 ≤ setup.dataNum)
    (inside : c < setup.consumer) (layout : Layout setup s)
    (h : Behind setup slack c s) (move : Move setup s act t) : Behind setup slack c t := by
  unfold Behind at h ⊢
  cases move with
  | producer _ move =>
    rcases move.consumer c with ⟨same, other⟩ | ⟨pc, -, same⟩ | ⟨n, pc, -, pc', same⟩
    · rw [same, move.sentBound_eq layout.producer inside other]
      exact h
    · have bound := move.sentBound_eq layout.producer inside (by simp [pc])
      rw [same, bound, pc]
      rw [pc] at h
      exact h.fork
    · simp only [pc, ProducerPc.sentBound, lt_irrefl, if_false] at h
      rw [same, pc']
      simpa [ProducerPc.sentBound] using h.sigqueue
  | consumer k outcome client shared move =>
    by_cases same : c = k
    · subst same
      simpa using move.lags positive h
    · simpa [same] using h
  | deliver k client move =>
    by_cases same : c = k
    · subst same
      simpa using move.lags h
    · simpa [same] using h

theorem behind {c : Nat} (positive : 1 ≤ setup.dataNum) (inside : c < setup.consumer)
    (reach : (ringBuffer setup).Reachable s) :
    Behind setup 0 c s := by
  refine reach.invariant_of (fun _ => layout) ?_ ?_
  · rintro s rfl
    apply setup.version.enter_of (P := fun next => Behind setup 0 c { State.initial setup with
      producer := ⟨next, 0, []⟩ })
    · exact Or.inr ⟨0, le_refl 0, rfl, rfl, rfl⟩
    · exact Or.inr ⟨0, le_refl 0, rfl, rfl, rfl⟩
  · intro act s t layout h step
    exact h.next positive inside layout (next_move step)

/-- A step that loses a signal leaves a consumer behind. -/
theorem lost_behind {act : Act} (positive : 1 ≤ setup.dataNum)
    (reach : (ringBuffer setup).Reachable s)
    (lost : keepsSignals setup act s = false) (move : Move setup s act t) :
    ∃ c < setup.consumer, Behind setup 1 c t := by
  have inside (c : Nat) (forked : (s.consumers c).pc ≠ .notForked) : c < setup.consumer := by
    by_contra outside
    exact forked ((numbered reach).forked c (Nat.le_of_not_lt outside))
  cases move with
  | producer _ move =>
    cases hpc : s.producer.pc with
    | send n i1 =>
      obtain ⟨within, busy⟩ : i1 < setup.consumer ∧ (s.consumers i1).pending.isSome := by
        simpa [keepsSignals, hpc] using lost
      have before := behind positive within reach
      simp only [Behind, hpc, ProducerPc.sentBound, lt_irrefl, if_false] at before
      refine ⟨i1, within, ?_⟩
      rcases move.consumer i1 with ⟨-, other⟩ | ⟨pc, -⟩ | ⟨m, pc, -, pc', same⟩
      · exact absurd within (Nat.not_lt_of_le (other n hpc))
      · cases hpc.symm.trans pc
      · cases hpc.symm.trans pc
        rw [Behind, same, pc']
        simpa [ProducerPc.sentBound] using before.dropped busy
    | _ => simp [keepsSignals, hpc] at lost
  | consumer c outcome client shared move =>
    obtain ⟨opens, gone⟩ : (s.consumers c).pc = .shmOpen ∧ s.shared.linked = false := by
      simpa [keepsSignals] using lost
    have within := inside c move.running.1
    refine ⟨c, within, ?_⟩
    have dead := move.unlinked_dead opens gone
    rcases move.lags positive (behind positive within reach) with ⟨-, some⟩ | ⟨k, -, woken⟩
    · exact Or.inl ⟨by simpa using dead, some⟩
    · exact absurd dead woken.alive
  | deliver c client move =>
    have within := inside c move.forked
    have early : ¬ (s.consumers c).pc.waiting := by simpa [keepsSignals] using lost
    refine ⟨c, within, ?_⟩
    simpa [Behind] using move.lost early (behind positive within reach)

/-- A step that loses a signal is made up for in no run. -/
theorem lost_signal_stays_lost {act : Act} (positive : 1 ≤ setup.dataNum)
    (reach : (ringBuffer setup).Reachable s)
    (lost : keepsSignals setup act s = false) (step : (ringBuffer setup).step act s t)
    (run : (ringBuffer setup).Run t u) :
    ∃ c < setup.consumer, ¬ ((u.consumers c).pc = .exited ∧ (u.consumers c).b = setup.dataNum) := by
  obtain ⟨c, inside, behind⟩ := lost_behind positive reach lost (next_move step)
  have later : Behind setup 1 c u := by
    induction run with
    | refl => exact behind
    | @tail v w run step ih =>
      obtain ⟨act', step'⟩ := step
      exact ih.next positive inside (layout ((reach.next step).run run)) (next_move step')
  refine ⟨c, inside, ?_⟩
  rintro ⟨exited, counted⟩
  have bound := sentBound_le_dataNum (layout ((reach.next step).run run)).producer c
  rcases later with ⟨dead, -⟩ | ⟨k, less, signals, -, -⟩
  · simp [exited, ConsumerPc.dead] at dead
  · rw [exited] at signals
    have whole : (u.consumers c).b + (u.consumers c).pending.toList.length = k := signals
    omega

/-- The producer waits for a consumer that nobody wakes. -/
theorem stuck_in_pause (one : setup.consumer = 1) (reach : (ringBuffer setup).Reachable s)
    (waits : s.producer.pc = .wait 0) (paused : (s.consumers 0).pc = .paused)
    (idle : (s.consumers 0).pending = none) :
    Stuck (ringBuffer setup) s ∧ ¬ EveryoneFinishes setup s := by
  have first : 0 < setup.consumer := by omega
  have others (c : Nat) (other : c ≠ 0) : (s.consumers c).pc = .notForked :=
    (numbered reach).forked c (by omega)
  refine ⟨?_, fun finishes => finishes.2 0 waits 0 first ⟨by rw [paused]; rfl, idle⟩⟩
  intro act t step
  cases next_move step with
  | producer _ move =>
    cases move with
    | reap i pc more ended =>
      cases waits.symm.trans pc
      simp [paused, ConsumerPc.ended] at ended
    | finish i pc done =>
      cases waits.symm.trans pc
      exact done first
    | clearLock pc | fork _ pc | forked _ pc | body _ pc | toWait _ pc | acquire _ pc | spin _ pc
    | copyByte _ _ pc | copyEnd _ _ pc | release _ pc | send _ _ pc | sent _ _ pc | sleep _ pc =>
      cases waits.symm.trans pc
  | consumer c outcome client shared move =>
    by_cases same : c = 0
    · subst same
      exact move.running.2.1 (by rw [paused]; rfl)
    · exact move.running.1 (others c same)
  | deliver c client move =>
    by_cases same : c = 0
    · subst same
      cases move with
      | kill n pending => simp [idle] at pending
      | handle n pending => simp [idle] at pending
    · exact move.forked (others c same)

/-- Both signals are sent before the first one is delivered, so the second one is dropped. -/
def secondSignalDropped (locking : Nat) : List Act :=
  List.replicate (2 + locking) Act.producer ++ List.replicate 2 (Act.consumer 0 true) ++
    List.replicate (45 + 4 * locking) Act.producer ++ [Act.deliver 0] ++
    List.replicate (24 + 2 * locking) (Act.consumer 0 true)

theorem consumer_waits_for_ever :
    (∃ s, (ringBuffer (twoMessages .plain)).Reachable s ∧
      Stuck (ringBuffer (twoMessages .plain)) s ∧
      (s.consumers 0).pc = .paused ∧ ¬ EveryoneFinishes (twoMessages .plain) s) ∧
    ∃ s, (ringBuffer (twoMessages .enhanced)).Reachable s ∧
      Stuck (ringBuffer (twoMessages .enhanced)) s ∧
      (s.consumers 0).pc = .paused ∧ ¬ EveryoneFinishes (twoMessages .enhanced) s := by
  have plain : (follow (next (twoMessages .plain)) (secondSignalDropped 0)
      (State.initial (twoMessages .plain))).map
      (fun s => (s.producer.pc, (s.consumers 0).pc, (s.consumers 0).pending)) =
      some (.wait 0, .paused, none) := by decide +kernel
  have enhanced : (follow (next (twoMessages .enhanced)) (secondSignalDropped 1)
      (State.initial (twoMessages .enhanced))).map
      (fun s => (s.producer.pc, (s.consumers 0).pc, (s.consumers 0).pending)) =
      some (.wait 0, .paused, none) := by decide +kernel
  obtain ⟨s, hs, facts⟩ := Option.map_eq_some_iff.mp plain
  obtain ⟨t, ht, facts'⟩ := Option.map_eq_some_iff.mp enhanced
  simp only [Prod.mk.injEq] at facts facts'
  obtain ⟨waits, paused, idle⟩ := facts
  obtain ⟨waits', paused', idle'⟩ := facts'
  have reach : (ringBuffer (twoMessages .plain)).Reachable s :=
    (Reachable.initial rfl).run (follow_run hs)
  have reach' : (ringBuffer (twoMessages .enhanced)).Reachable t :=
    (Reachable.initial rfl).run (follow_run ht)
  obtain ⟨stuck, not⟩ := stuck_in_pause rfl reach waits paused idle
  obtain ⟨stuck', not'⟩ := stuck_in_pause rfl reach' waits' paused' idle'
  exact ⟨⟨s, reach, stuck, paused, not⟩, ⟨t, reach', stuck', paused', not'⟩⟩

end RingBuffer
