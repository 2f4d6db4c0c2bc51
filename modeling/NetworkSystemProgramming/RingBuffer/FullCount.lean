import NetworkSystemProgramming.RingBuffer.Received

/-!
# The count at the end

`__sync_fetch_and_add` loses no addition and nothing else is stored over the counter, so in
every run it is the number of messages that the consumers have counted. When the producer
is slow enough the run comes to its end, and then it is the number of all messages to all
consumers, but for first messages.
-/

namespace RingBuffer

open ByteBuffers ByteMemory StepSystems StepSystem

variable {setup : Setup} {s t : State} {c c' : Consumer} {shared shared' : Shared} {sent : Nat}

/-! ## No addition is lost -/

/-- The messages that all consumers have counted. -/
def State.counted (setup : Setup) (s : State) : Nat :=
  ∑ c ∈ Finset.range setup.consumer, (s.consumers c).added.length

theorem ConsumerMove.adds (move : ConsumerMove setup c shared c' shared') :
    (load32 shared'.mem setup.counterAddr = load32 shared.mem setup.counterAddr ∧
      c'.added = c.added) ∨
    (load32 shared'.mem setup.counterAddr =
        (load32 shared.mem setup.counterAddr + 1) % 2 ^ 32 ∧
      c'.added.length = c.added.length + 1) := by
  have lock (v : Nat) : load32 (store32 shared.mem setup.lockAddr v) setup.counterAddr =
      load32 shared.mem setup.counterAddr := by
    apply load32_store32_other
    simp only [Setup.lockAddr, Setup.counterAddr]
    omega
  cases move with
  | acquire | release => exact Or.inl ⟨lock _, rfl⟩
  | add seq => exact Or.inr ⟨load32_store32_same .., List.length_append⟩
  | _ => exact Or.inl ⟨rfl, rfl⟩

/-- The counter is exact, up to the width of an `int`. -/
theorem counter_eq (reach : (ringBuffer setup).Reachable s) :
    load32 s.shared.mem setup.counterAddr = s.counted setup % 2 ^ 32 := by
  refine reach.invariant_of
    (I := fun s => load32 s.shared.mem setup.counterAddr = s.counted setup % 2 ^ 32)
    (fun _ h => And.intro (layout h) (numbered h)) ?_ ?_
  · rintro s rfl
    simp [State.initial, State.counted, Consumer.initial, load32_zero]
  · rintro act s t ⟨layout, numbered⟩ h step
    have inside (k : Nat) (forked : (s.consumers k).pc ≠ .notForked) : k < setup.consumer := by
      by_contra outside
      exact forked (numbered.forked k (Nat.le_of_not_lt outside))
    cases next_move step with
    | producer _ move =>
      have same : t.counted setup = s.counted setup := by
        refine Finset.sum_congr rfl fun k _ => ?_
        rcases move.consumer k with ⟨same, -⟩ | ⟨-, -, same⟩ | ⟨n, -, -, -, same⟩
        · rw [same]
        · rw [same]
        · rw [same, Consumer.sigqueue_eq]
      rw [move.counter layout, same]
      exact h
    | consumer k outcome client shared move =>
      have total := total_update s.consumers client (inside k move.running.1)
      simp only [State.counted] at h ⊢
      rcases move.adds with ⟨same, added⟩ | ⟨more, added⟩
      · rw [added] at total
        rw [same, h]
        congr 1
        omega
      · rw [added] at total
        rw [more, h, Nat.mod_add_mod]
        congr 1
        omega
    | deliver k client move =>
      have total := total_update s.consumers client (inside k move.forked)
      simp only [State.counted] at h ⊢
      rw [move.added] at total
      rw [h]
      congr 1
      omega

/-! ## The holder of the lock -/

/-- Only the enhanced version locks, and a lock that is taken has a holder. -/
structure Held (setup : Setup) (s : State) : Prop where
  producer : ∀ n, s.producer.pc = .lock n → setup.version = .enhanced
  consumer : ∀ c, (s.consumers c).pc = .lock → setup.version = .enhanced
  word : load32 s.shared.mem setup.lockAddr = 0 ∨
    (setup.version = .enhanced ∧ ∃ p, InSection s p)

theorem ProducerMove.locks (move : ProducerMove setup s t) {n : Nat}
    (locks : t.producer.pc = .lock n) :
    setup.version = .enhanced ∨ s.producer.pc = .lock n := by
  cases move with
  | body m pc =>
    cases version : setup.version with
    | plain => simp [version, Version.enter] at locks
    | enhanced => exact Or.inl rfl
  | copyEnd m j pc =>
    refine absurd locks ?_
    exact setup.version.enter_of (P := fun next => next ≠ ProducerPc.lock n) (by simp) (by simp)
  | spin => exact Or.inr locks
  | _ => cases locks

theorem ConsumerMove.locks (move : ConsumerMove setup c shared c' shared')
    (locks : c'.pc = .lock) : setup.version = .enhanced ∨ c.pc = .lock := by
  cases move with
  | enter pc =>
    cases version : setup.version with
    | plain => simp [version, Version.enter] at locks
    | enhanced => exact Or.inl rfl
  | copyEnd pc =>
    refine absurd locks ?_
    exact setup.version.enter_of (P := fun next => next ≠ ConsumerPc.lock) (by simp) (by simp)
  | spin | copyByte => exact Or.inr locks
  | _ => cases locks

theorem ProducerMove.word (move : ProducerMove setup s t) (layout : Layout setup s)
    (calm : Calm setup s) (h : Held setup s) :
    load32 t.shared.mem setup.lockAddr = 0 ∨
      (setup.version = .enhanced ∧ ∃ p, InSection t p) := by
  have consumers (k : Nat) (inside : (s.consumers k).pc.inSection) :
      (t.consumers k).pc.inSection := by
    rcases move.consumer k with ⟨same, -⟩ | ⟨pc, -, -⟩ | ⟨n, -, -, -, same⟩
    · rwa [same]
    · rw [calm.unforked k (by rw [pc]; exact le_refl k)] at inside
      exact absurd inside Bool.false_ne_true
    · rwa [same, Consumer.sigqueue_eq]
  -- A holder that is not the producer keeps the lock.
  have keep (same : load32 t.shared.mem setup.lockAddr = load32 s.shared.mem setup.lockAddr)
      (own : setup.version = .enhanced → s.producer.pc.inSection → t.producer.pc.inSection) :
      load32 t.shared.mem setup.lockAddr = 0 ∨
        (setup.version = .enhanced ∧ ∃ p, InSection t p) := by
    rcases h.word with free | ⟨enhanced, p, inside⟩
    · exact Or.inl (same.trans free)
    · refine Or.inr ⟨enhanced, p, ?_⟩
      cases p with
      | producer => exact own enhanced inside
      | consumer k => exact consumers k inside
  cases move with
  | clearLock | release => exact Or.inl (load32_store32_same ..)
  | acquire n pc => exact Or.inr ⟨h.producer n pc, .producer, rfl⟩
  | copyByte n j pc => exact keep (lockWord_text layout pc _) fun _ _ => rfl
  | copyEnd n j pc =>
    refine keep (lockWord_text layout pc _) fun enhanced _ => ?_
    simp [enhanced, Version.enter, ProducerPc.inSection]
  | spin => exact keep rfl fun _ => id
  | fork _ pc | forked _ pc | body _ pc | toWait _ pc | send _ _ pc | sent _ _ pc | sleep _ pc
  | reap _ pc | finish _ pc => exact keep rfl (by simp [pc, ProducerPc.inSection])

/-- A step of consumer `k` that leaves the lock alone. -/
theorem Held.update {k : Nat} {client : Consumer} {shared : Shared} (h : Held setup s)
    (same : load32 shared.mem setup.lockAddr = load32 s.shared.mem setup.lockAddr)
    (own : setup.version = .enhanced → (s.consumers k).pc.inSection → client.pc.inSection) :
    load32 shared.mem setup.lockAddr = 0 ∨ (setup.version = .enhanced ∧ ∃ p, InSection
      { s with consumers := Function.update s.consumers k client, shared } p) := by
  rcases h.word with free | ⟨enhanced, p, inside⟩
  · exact Or.inl (same.trans free)
  · refine Or.inr ⟨enhanced, p, ?_⟩
    cases p with
    | producer => exact inside
    | consumer i =>
      by_cases own_ : i = k
      · subst own_
        simpa only [InSection, Function.update_self] using own enhanced inside
      · simpa only [InSection, Function.update_of_ne own_] using inside

theorem ConsumerMove.word {k : Nat}
    (move : ConsumerMove setup (s.consumers k) s.shared c' shared') (h : Held setup s) :
    load32 shared'.mem setup.lockAddr = 0 ∨ (setup.version = .enhanced ∧ ∃ p, InSection
      { s with consumers := Function.update s.consumers k c', shared := shared' } p) := by
  cases move with
  | acquire pc =>
    refine Or.inr ⟨h.consumer k pc, .consumer k, ?_⟩
    simp [InSection, ConsumerPc.inSection]
  | release => exact Or.inl (load32_store32_same ..)
  | add seq pc => exact h.update (lockWord_counter ..) (by simp [pc, ConsumerPc.inSection])
  | copyByte => exact h.update rfl fun _ => id
  | spin => exact h.update rfl fun _ => id
  | copyEnd =>
    refine h.update rfl fun enhanced _ => ?_
    simp [enhanced, Version.enter, ConsumerPc.inSection]
  | install pc | blockFirst pc | attach pc | unlinked pc | enter pc | equal pc | different pc
  | advance pc | exit pc | again pc | block pc =>
    exact h.update rfl (by simp [pc, ConsumerPc.inSection])

theorem held (several : 2 ≤ setup.dataNum)
    (reach : ((ringBuffer setup).restrict (InTime setup)).Reachable s) : Held setup s := by
  refine reach.invariant_of (fun _ h => And.intro (restrict_reachable h) (calm several h)) ?_ ?_
  · rintro s rfl
    refine ⟨?_, nofun, Or.inl (congrFun load32_zero _)⟩
    intro n
    exact setup.version.enter_of (P := fun pc => pc = ProducerPc.lock n → _) nofun nofun
  · rintro act s t ⟨all, -, calm⟩ h ⟨-, step⟩
    cases next_move step with
    | producer _ move =>
      refine ⟨?_, ?_, move.word (layout all) calm h⟩
      · intro n locks
        exact (move.locks locks).elim id (h.producer n)
      · intro k locks
        rcases move.consumer k with ⟨same, -⟩ | ⟨-, -, same⟩ | ⟨n, -, -, -, same⟩
        · exact h.consumer k (same ▸ locks)
        · rw [same] at locks
          cases locks
        · rw [same, Consumer.sigqueue_eq] at locks
          exact h.consumer k locks
    | consumer k outcome client shared move =>
      refine ⟨h.producer, ?_, move.word h⟩
      apply (Function.forall_update_iff s.consumers fun (_ : Nat) (client : Consumer) =>
        client.pc = .lock → setup.version = .enhanced).mpr
      exact ⟨fun locks => (move.locks locks).elim id (h.consumer k), fun i _ => h.consumer i⟩
    | deliver k client move =>
      refine ⟨h.producer, ?_, ?_⟩
      · apply (Function.forall_update_iff s.consumers fun (_ : Nat) (client : Consumer) =>
          client.pc = .lock → setup.version = .enhanced).mpr
        refine ⟨?_, fun i _ => h.consumer i⟩
        intro locks
        cases move with
        | kill => cases locks
        | handle n pending =>
          rcases (s.consumers k).pc.wake_cases with same | woken | woken
          · exact h.consumer k (same ▸ locks)
          · simp [woken] at locks
          · simp [woken] at locks
      · refine h.update rfl fun _ inside => ?_
        have waiting := calm.pends k move.pending
        cases hpc : (s.consumers k).pc with
        | copy | unlock => simp [hpc, ConsumerPc.waiting] at waiting
        | _ => simp [hpc, ConsumerPc.inSection] at inside

/-! ## Something can happen -/

/-- The system in which the producer is slow enough. -/
abbrev paced (setup : Setup) : StepSystem State Act := (ringBuffer setup).restrict (InTime setup)

theorem producer_runs (running : ∀ i, s.producer.pc ≠ .wait i)
    (unfinished : s.producer.pc ≠ .finished) : producerStep setup s ≠ none := by
  intro none
  rcases producerStep_none none with ⟨i, pc⟩ | pc
  · exact running i pc
  · exact unfinished pc

theorem producer_goes (some : producerStep setup s ≠ none) (inTime : InTime setup .producer s) :
    ∃ act t, (paced setup).step act s t := by
  obtain ⟨t, step⟩ := Option.ne_none_iff_exists'.mp some
  exact ⟨.producer, t, inTime, step⟩

theorem consumer_goes {k : Nat} (inside : k < setup.consumer) (woken : AllWoken setup s)
    (forked : (s.consumers k).pc ≠ .notForked) (busy : ¬ (s.consumers k).Idle)
    (running : ¬ (s.consumers k).pc.ended)
    (free : (s.consumers k).pc = .lock → load32 s.shared.mem setup.lockAddr = 0) :
    ∃ act t, (paced setup).step act s t := by
  cases statement : consumerStep setup true (s.consumers k) s.shared with
  | some next =>
    exact ⟨.consumer k true, _, free, by simp [ringBuffer, ofNext, RingBuffer.next, statement]; rfl⟩
  | none =>
    cases delivery : (s.consumers k).deliver with
    | some client =>
      exact ⟨.deliver k, _, trivial, by simp [ringBuffer, ofNext, RingBuffer.next, delivery]; rfl⟩
    | none =>
      rcases consumerStep_none forked (woken.woken k inside) statement delivery with idle | ended
      · exact absurd idle busy
      · exact absurd ended running

/-- The holder of the lock goes on. -/
theorem holder_goes (woken : AllWoken setup s) (numbered : Numbered setup s) (held : Held setup s)
    (taken : load32 s.shared.mem setup.lockAddr ≠ 0) : ∃ act t, (paced setup).step act s t := by
  obtain ⟨-, p, inside⟩ := held.word.resolve_left taken
  cases p with
  | producer =>
    have section_ : s.producer.pc.inSection := inside
    refine producer_goes (producer_runs ?_ ?_) ⟨?_, ?_⟩
    · intro i pc
      simp [pc, ProducerPc.inSection] at section_
    · intro pc
      simp [pc, ProducerPc.inSection] at section_
    · intro n pc
      simp [pc, ProducerPc.inSection] at section_
    · intro n pc
      simp [pc, ProducerPc.inSection] at section_
  | consumer k =>
    have section_ : (s.consumers k).pc.inSection := inside
    have forked : (s.consumers k).pc ≠ .notForked := by
      intro pc
      simp [pc, ConsumerPc.inSection] at section_
    refine consumer_goes ?_ woken forked ?_ ?_ ?_
    · by_contra outside
      exact forked (numbered.forked k (Nat.le_of_not_lt outside))
    · rintro ⟨waiting, -⟩
      cases hpc : (s.consumers k).pc with
      | copy | unlock => simp [hpc, ConsumerPc.waiting] at waiting
      | _ => simp [hpc, ConsumerPc.inSection] at section_
    · intro ended
      cases hpc : (s.consumers k).pc with
      | copy | unlock => simp [hpc, ConsumerPc.ended] at ended
      | _ => simp [hpc, ConsumerPc.inSection] at section_
    · intro pc
      simp [pc, ConsumerPc.inSection] at section_

theorem paced_moves (several : 2 ≤ setup.dataNum) (reach : (paced setup).Reachable s)
    (unfinished : s.producer.pc ≠ .finished) : ∃ act t, (paced setup).step act s t := by
  obtain ⟨keeps, calm⟩ := calm several reach
  have all : (ringBuffer setup).Reachable s := restrict_reachable keeps
  have woken := allWoken (by omega) keeps
  by_cases free : load32 s.shared.mem setup.lockAddr = 0
  · have lock : ∀ n, s.producer.pc = .lock n → load32 s.shared.mem setup.lockAddr = 0 :=
      fun _ _ => free
    cases hpc : s.producer.pc with
    | finished => exact absurd hpc unfinished
    | head n =>
      by_cases ready : n < setup.dataNum → ∀ k < setup.consumer, (s.consumers k).Idle
      · refine producer_goes (producer_runs (by simp [hpc]) unfinished) ⟨?_, lock⟩
        intro m pc
        cases hpc.symm.trans pc
        exact ready
      · -- Some consumer is still at the message before.
        obtain ⟨more, notAll⟩ := Classical.not_imp.mp ready
        obtain ⟨k, notIdle⟩ := not_forall.mp notAll
        obtain ⟨inside, busy⟩ := Classical.not_imp.mp notIdle
        have own := woken.woken k inside
        rw [hpc] at own
        refine consumer_goes inside woken (woken.forked k (by rwa [hpc])) busy ?_ fun _ => free
        intro ended
        obtain ⟨exited, counted, -⟩ := own.exited ended
        have signals := own.signals
        rw [exited] at signals
        have sent : (s.consumers k).b + (s.consumers k).pending.toList.length = n := signals
        omega
    | wait i =>
      by_cases more : i < setup.consumer
      · by_cases ended : (s.consumers i).pc.ended
        · exact producer_goes (by simp [producerStep, hpc, more, ended]) ⟨by simp [hpc], lock⟩
        · have own := woken.woken i more
          rw [hpc] at own
          exact consumer_goes more woken (woken.forked i (by rwa [hpc]))
            (own.not_waiting (by omega)) ended fun _ => free
      · exact producer_goes (by simp [producerStep, hpc, more]) ⟨by simp [hpc], lock⟩
    | _ => exact producer_goes (producer_runs (by simp [hpc]) unfinished) ⟨by simp [hpc], lock⟩
  · exact holder_goes woken (numbered all) (held several reach) free

/-! ## Every step takes something away -/

/-- The forks and the messages that are left to the producer. -/
def ProducerPc.left (setup : Setup) (pc : ProducerPc) : Nat :=
  setup.consumer - pc.forks setup + (setup.dataNum - pc.number setup)

/-- A bound on its statements until one of them is done with. -/
def ProducerPc.statements (setup : Setup) : ProducerPc → Nat
  | .clearLock => setup.consumer + textRoom + 11
  | .fork _ => setup.consumer + textRoom + 10
  | .head _ => setup.consumer + textRoom + 9
  | .lock _ => setup.consumer + textRoom + 8
  | .copy _ j => setup.consumer + 6 + (textRoom - j)
  | .unlock _ => setup.consumer + 5
  | .send _ i1 => 3 + (setup.consumer - i1)
  | .sleep _ => 2
  | .wait i1 => 1 + (setup.consumer - i1)
  | .finished => 0

/-- A bound on the statements and signals of a consumer until it is done with a message. -/
def ConsumerPc.statements (copied : Nat) : ConsumerPc → Nat
  | .notForked => textRoom + 16
  | .install => textRoom + 15
  | .firstPause => textRoom + 14
  | .firstPaused => textRoom + 13
  | .shmOpen | .testEnd => textRoom + 12
  | .pause => textRoom + 11
  | .paused => textRoom + 10
  | .test => textRoom + 9
  | .lock => textRoom + 8
  | .copy => 6 + (textRoom - copied)
  | .unlock => 5
  | .compare => 4
  | .add _ => 3
  | .advance => 2
  | .exited | .failed | .killed => 0

def Consumer.statements (c : Consumer) : Nat := c.pc.statements c.split.length

/-- What is left of the run. -/
def State.left (setup : Setup) (s : State) : Nat × Nat :=
  (s.producer.pc.left setup +
      ∑ c ∈ Finset.range setup.consumer, (setup.dataNum - (s.consumers c).b),
    s.producer.pc.statements setup +
      ∑ c ∈ Finset.range setup.consumer, (s.consumers c).statements)

/-- A compare-and-swap that finds the lock free is no spin. -/
theorem producerStep_lock {n : Nat} (pc : s.producer.pc = .lock n)
    (free : load32 s.shared.mem setup.lockAddr = 0) (step : producerStep setup s = some t) :
    t.producer.pc = .copy n 0 := by
  simp only [producerStep, pc, if_pos free, Option.some.injEq] at step
  rw [← step]

theorem consumerStep_lock {outcome : Bool} (pc : c.pc = .lock)
    (free : load32 shared.mem setup.lockAddr = 0)
    (step : consumerStep setup outcome c shared = some (c', shared')) : c'.pc = .copy := by
  simp only [consumerStep, pc, if_pos free, Option.some.injEq, Prod.mk.injEq] at step
  rw [← step.1]

theorem producerStep_less (placed : s.producer.Placed setup)
    (step : producerStep setup s = some t)
    (free : ∀ n, s.producer.pc = .lock n → load32 s.shared.mem setup.lockAddr = 0) :
    t.producer.pc.left setup < s.producer.pc.left setup ∨
      (t.producer.pc.left setup = s.producer.pc.left setup ∧
        t.producer.pc.statements setup < s.producer.pc.statements setup ∧
        ∀ k < setup.consumer, s.producer.pc ≠ .fork k) := by
  cases producerStep_move step with
  | fork i pc more =>
    left
    simp only [pc, ProducerPc.left, ProducerPc.forks, ProducerPc.number]
    omega
  | sleep n pc =>
    left
    have inBody := placed.inBody
    rw [pc] at inBody
    have less : n < setup.dataNum := inBody rfl
    simp only [pc, ProducerPc.left, ProducerPc.forks, ProducerPc.number]
    omega
  | forked i pc done =>
    right
    refine ⟨?_, ?_, ?_⟩
    · simp only [pc, ProducerPc.left, ProducerPc.forks, ProducerPc.number]
      omega
    · simp only [pc, ProducerPc.statements]
      omega
    · intro k inside pc'
      cases pc.symm.trans pc'
      exact done inside
  | body n pc more =>
    right
    refine ⟨?_, ?_, by simp [pc]⟩
    · rw [pc]
      exact setup.version.enter_of (P := fun pc =>
        ProducerPc.left setup pc = ProducerPc.left setup (.head n)) rfl rfl
    · rw [pc]
      apply setup.version.enter_of (P := fun pc =>
        ProducerPc.statements setup pc < ProducerPc.statements setup (.head n))
      · simp only [ProducerPc.statements]
        omega
      · simp only [ProducerPc.statements]
        omega
  | copyEnd n j pc done =>
    right
    refine ⟨?_, ?_, by simp [pc]⟩
    · rw [pc]
      exact setup.version.enter_of (P := fun next =>
        ProducerPc.left setup next = ProducerPc.left setup (.copy n j)) rfl rfl
    · rw [pc]
      apply setup.version.enter_of (P := fun next =>
        ProducerPc.statements setup next < ProducerPc.statements setup (.copy n j))
      · simp only [ProducerPc.statements]
        omega
      · simp only [ProducerPc.statements]
        omega
  | copyByte n j pc more =>
    right
    have inBody := placed.inBody
    rw [pc] at inBody
    have less : n < setup.dataNum := inBody rfl
    have room := message_length (less.trans setup.dataNum_int)
    refine ⟨by rw [pc]; rfl, ?_, by simp [pc]⟩
    simp only [pc, ProducerPc.statements]
    omega
  | spin n pc =>
    have copies := producerStep_lock pc (free n pc) step
    cases pc.symm.trans copies
  | toWait n pc done =>
    right
    have number := placed.number
    rw [pc] at number
    have last : n = setup.dataNum := Nat.le_antisymm number (Nat.le_of_not_lt done)
    refine ⟨?_, ?_, by simp [pc]⟩
    · simp only [pc, last, ProducerPc.left, ProducerPc.forks, ProducerPc.number]
    · simp only [pc, ProducerPc.statements]
      omega
  | clearLock pc | acquire n pc | release n pc | send n i1 pc more | sent n i1 pc done
  | reap i1 pc more | finish i1 pc done =>
    right
    refine ⟨by rw [pc]; rfl, ?_, by simp [pc]⟩
    simp only [pc, ProducerPc.statements]
    omega

theorem consumerStep_less {outcome : Bool} (placed' : c'.Placed setup) (woken : c.Woken setup sent)
    (step : consumerStep setup outcome c shared = some (c', shared'))
    (free : c.pc = .lock → load32 shared.mem setup.lockAddr = 0) :
    setup.dataNum - c'.b < setup.dataNum - c.b ∨
      (c'.b = c.b ∧ c'.statements < c.statements) := by
  cases consumerStep_move step with
  | attach pc | unlinked pc =>
    right
    have start := woken.fits
    rw [pc] at start
    refine ⟨Eq.symm start, ?_⟩
    simp only [Consumer.statements, pc, ConsumerPc.statements]
    omega
  | enter pc more =>
    right
    refine ⟨rfl, ?_⟩
    simp only [Consumer.statements, pc, List.length_nil]
    apply setup.version.enter_of (P := fun next =>
      ConsumerPc.statements 0 next < ConsumerPc.statements c.split.length .test)
    · simp only [ConsumerPc.statements]
      omega
    · simp only [ConsumerPc.statements]
      omega
  | spin pc =>
    have copies := consumerStep_lock pc (free pc) step
    cases pc.symm.trans copies
  | copyByte pc nonzero =>
    right
    have room := placed'.reading (by rw [pc]; rfl)
    refine ⟨rfl, ?_⟩
    simp only [List.length_append, List.length_singleton] at room
    simp only [Consumer.statements, pc, ConsumerPc.statements, List.length_append,
      List.length_singleton]
    omega
  | copyEnd pc zero =>
    right
    refine ⟨rfl, ?_⟩
    simp only [Consumer.statements, pc]
    apply setup.version.enter_of (P := fun next =>
      ConsumerPc.statements (c.split ++ [newline]).length next <
        ConsumerPc.statements c.split.length .copy)
    · simp only [ConsumerPc.statements]
      omega
    · simp only [ConsumerPc.statements]
      omega
  | advance pc =>
    left
    have more := woken.fits
    rw [pc] at more
    have less : c.b < setup.dataNum := more
    simp only
    omega
  | acquire pc =>
    right
    refine ⟨rfl, ?_⟩
    simp only [Consumer.statements, pc, ConsumerPc.statements]
    omega
  | install pc | blockFirst pc | release pc | equal pc | different pc | add _ pc
  | exit pc | again pc | block pc =>
    right
    refine ⟨rfl, ?_⟩
    simp only [Consumer.statements, pc, ConsumerPc.statements]
    omega

theorem DeliverMove.less (move : DeliverMove c c') (waiting : c.pc.waiting) :
    c'.b = c.b ∧ c'.statements < c.statements := by
  cases move with
  | kill n pending pc => simp [pc, ConsumerPc.waiting] at waiting
  | handle n pending handles =>
    refine ⟨rfl, ?_⟩
    cases hpc : c.pc with
    | firstPaused | paused =>
      simp only [Consumer.statements, hpc, ConsumerPc.wake, ConsumerPc.statements]
      omega
    | _ => simp [hpc, ConsumerPc.waiting] at waiting

/-- A step of consumer `k` that is no wait. -/
theorem left_of_consumer {k : Nat} {client : Consumer} {shared : Shared}
    (inside : k < setup.consumer)
    (less : setup.dataNum - client.b < setup.dataNum - (s.consumers k).b ∨
      (client.b = (s.consumers k).b ∧ client.statements < (s.consumers k).statements)) :
    Prod.Lex (· < ·) (· < ·)
      ({ s with consumers := Function.update s.consumers k client, shared : State }.left setup)
      (s.left setup) := by
  have member := Finset.mem_range.mpr inside
  have others {f : Consumer → Nat} (own : f client ≤ f (s.consumers k)) :
      ∀ i ∈ Finset.range setup.consumer,
        f (Function.update s.consumers k client i) ≤ f (s.consumers i) := by
    intro i _
    by_cases same : i = k
    · rw [same, Function.update_self]
      exact own
    · rw [Function.update_of_ne same]
  rcases less with less | ⟨same, less⟩
  · refine Prod.Lex.left _ _ (Nat.add_lt_add_left ?_ _)
    refine Finset.sum_lt_sum (others (f := fun c => setup.dataNum - c.b) less.le) ⟨k, member, ?_⟩
    simpa only [Function.update_self] using less
  · have first : ∑ i ∈ Finset.range setup.consumer,
        (setup.dataNum - (Function.update s.consumers k client i).b) =
        ∑ i ∈ Finset.range setup.consumer, (setup.dataNum - (s.consumers i).b) := by
      refine Finset.sum_congr rfl fun i _ => ?_
      by_cases own : i = k
      · rw [own, Function.update_self, same]
      · rw [Function.update_of_ne own]
    simp only [State.left, first]
    refine Prod.Lex.right _ (Nat.add_lt_add_left ?_ _)
    refine Finset.sum_lt_sum (others (f := Consumer.statements) less.le) ⟨k, member, ?_⟩
    rw [Function.update_self]
    exact less

theorem left_of_producer (layout : Layout setup s) (step : producerStep setup s = some t)
    (free : ∀ n, s.producer.pc = .lock n → load32 s.shared.mem setup.lockAddr = 0) :
    Prod.Lex (· < ·) (· < ·) (t.left setup) (s.left setup) := by
  have move := producerStep_move step
  have counts : ∑ k ∈ Finset.range setup.consumer, (setup.dataNum - (t.consumers k).b) =
      ∑ k ∈ Finset.range setup.consumer, (setup.dataNum - (s.consumers k).b) := by
    refine Finset.sum_congr rfl fun k _ => ?_
    rcases move.consumer k with ⟨same, -⟩ | ⟨-, -, same⟩ | ⟨n, -, -, -, same⟩
    · rw [same]
    · rw [same]
    · rw [same, Consumer.sigqueue_eq]
  rcases producerStep_less layout.producer step free with less | ⟨same, less, noFork⟩
  · refine Prod.Lex.left _ _ ?_
    rw [counts]
    exact Nat.add_lt_add_right less _
  · have rests : ∑ k ∈ Finset.range setup.consumer, (t.consumers k).statements =
        ∑ k ∈ Finset.range setup.consumer, (s.consumers k).statements := by
      refine Finset.sum_congr rfl fun k member => ?_
      rcases move.consumer k with ⟨same, -⟩ | ⟨pc, inside, -⟩ | ⟨n, -, -, -, same⟩
      · rw [same]
      · exact absurd pc (noFork k inside)
      · rw [same, Consumer.sigqueue_eq]
        rfl
    simp only [State.left, counts, same, rests]
    exact Prod.Lex.right _ (Nat.add_lt_add_right less _)

theorem left_of_step {act : Act} (several : 2 ≤ setup.dataNum) (reach : (paced setup).Reachable s)
    (inTime : InTime setup act s) (step : RingBuffer.next setup act s = some t) :
    Prod.Lex (· < ·) (· < ·) (t.left setup) (s.left setup) := by
  obtain ⟨keeps, calm⟩ := calm several reach
  have all : (ringBuffer setup).Reachable s := restrict_reachable keeps
  have woken := allWoken (by omega) keeps
  have inside (k : Nat) (forked : (s.consumers k).pc ≠ .notForked) : k < setup.consumer := by
    by_contra outside
    exact forked ((numbered all).forked k (Nat.le_of_not_lt outside))
  cases act with
  | producer => exact left_of_producer (layout all) step inTime.2
  | consumer k outcome =>
    obtain ⟨⟨client, shared⟩, own, rfl⟩ := Option.map_eq_some_iff.mp step
    have within := inside k (consumerStep_move own).running.1
    have zeros (i : Nat) := (layout all).zeros i textRoom (le_refl _) (by decide)
    have placed := (consumerStep_move own).placed ((layout all).consumer k) zeros
    exact left_of_consumer within (consumerStep_less placed (woken.woken k within) own inTime)
  | deliver k =>
    obtain ⟨client, own, rfl⟩ := Option.map_eq_some_iff.mp step
    have move := Consumer.deliver_move own
    exact left_of_consumer (inside k move.forked)
      (Or.inr (move.less (calm.pends k move.pending)))

/-! ## The end of the run -/

/-- Every consumer has copied and counted every message, but perhaps for the first one. -/
structure Complete (setup : Setup) (s : State) : Prop where
  exited : ∀ c < setup.consumer, (s.consumers c).pc = .exited
  received : ∀ c < setup.consumer,
    (s.consumers c).copied = (List.range setup.dataNum).map (entry setup)
  counted : ∀ c < setup.consumer, AllCounted setup.dataNum (s.consumers c).added
  counter : ∃ first ≤ setup.consumer, load32 s.shared.mem setup.counterAddr =
    (setup.consumer * (setup.dataNum - 1) + first) % 2 ^ 32

theorem counted_sum (counted : ∀ c < setup.consumer,
    AllCounted setup.dataNum (s.consumers c).added) :
    ∃ first ≤ setup.consumer, s.counted setup = setup.consumer * (setup.dataNum - 1) + first := by
  have parts (c : Nat) (member : c ∈ Finset.range setup.consumer) :
      (s.consumers c).added.length =
        setup.dataNum - 1 + ((s.consumers c).added.length - (setup.dataNum - 1)) := by
    rcases (counted c (Finset.mem_range.mp member)).length with all | later
    · omega
    · omega
  refine ⟨∑ c ∈ Finset.range setup.consumer,
    ((s.consumers c).added.length - (setup.dataNum - 1)), ?_, ?_⟩
  · calc ∑ c ∈ Finset.range setup.consumer,
          ((s.consumers c).added.length - (setup.dataNum - 1))
        ≤ (Finset.range setup.consumer).card • 1 := by
          apply Finset.sum_le_card_nsmul
          intro c member
          rcases (counted c (Finset.mem_range.mp member)).length with all | later
          · omega
          · omega
      _ = setup.consumer := by rw [Finset.card_range, smul_eq_mul, Nat.mul_one]
  · rw [State.counted, Finset.sum_congr rfl parts, Finset.sum_add_distrib, Finset.sum_const,
      Finset.card_range, smul_eq_mul]

theorem complete_of_finished (several : 2 ≤ setup.dataNum) (reach : (paced setup).Reachable s)
    (finished : s.producer.pc = .finished) : Complete setup s := by
  obtain ⟨keeps, -⟩ := calm several reach
  have all : (ringBuffer setup).Reachable s := restrict_reachable keeps
  have woken := allWoken (by omega) keeps
  have ended (c : Nat) (inside : c < setup.consumer) :
      (s.consumers c).pc = .exited ∧ (s.consumers c).b = setup.dataNum := by
    have last := (woken.woken c inside).exited (woken.reaped c (by rwa [finished]))
    exact ⟨last.1, last.2.1⟩
  have counted (c : Nat) (inside : c < setup.consumer) :
      AllCounted setup.dataNum (s.consumers c).added := by
    obtain ⟨exited, whole⟩ := ended c inside
    have own := (inStep several reach c inside).counted
    rw [exited, whole] at own
    simpa [ConsumerPc.adding, ConsumerPc.comparisons] using own
  refine ⟨fun c inside => (ended c inside).1, ?_, counted, ?_⟩
  · intro c inside
    obtain ⟨exited, whole⟩ := ended c inside
    have own := (inStep several reach c inside).copied
    rwa [exited, whole] at own
  · obtain ⟨first, few, sum⟩ := counted_sum counted
    exact ⟨first, few, by rw [counter_eq all, sum]⟩

/-- When the producer is slow enough, the run comes to its end, whatever the order of the
steps, and every consumer has received and counted all messages, but for those with the
number 0. -/
theorem every_message_counted (several : 2 ≤ setup.dataNum) (reach : (paced setup).Reachable s) :
    Inevitable (paced setup)
      (fun t => t.producer.pc = .finished ∧ Complete setup t) s := by
  have finishes : Inevitable (paced setup) (fun t => t.producer.pc = .finished) s := by
    refine Inevitable.of_measure (fun t => (paced setup).Reachable t)
      (Prod.lex Nat.lt_wfRel Nat.lt_wfRel).wf (State.left setup) ?_ ?_ s reach
    · exact fun t known unfinished => paced_moves several known unfinished
    · rintro act r t known ⟨inTime, step⟩
      exact ⟨known.next (l := act) ⟨inTime, step⟩, left_of_step several known inTime step⟩
  exact finishes.mono fun t run finished =>
    ⟨finished, complete_of_finished several (reach.run run) finished⟩

/-- Three messages for two consumers through two slots. -/
private def threeForTwo : Setup where
  version := .enhanced
  dataNum := 3
  consumer := 2
  buf := 2
  dataNum_int := by decide
  buf_pos := by decide
  buffer_int := by decide

theorem three_messages_counted :
    Inevitable (paced threeForTwo)
      (fun t => t.producer.pc = .finished ∧ Complete threeForTwo t) (State.initial threeForTwo) :=
  every_message_counted (by decide) (Reachable.initial rfl)

end RingBuffer
