import NetworkSystemProgramming.RingBuffer.System

/-!
# What a step of the ring can be

The step functions taken apart once: every step is one of the moves below, with
the test that led to it. The invariants go by cases on the move.
-/

namespace RingBuffer

open ByteBuffers ByteMemory StepSystems StepSystem

inductive ConsumerMove (setup : Setup) (c : Consumer) (shared : Shared) : Consumer → Shared → Prop
  | install (pc : c.pc = .install) : ConsumerMove setup c shared { c with pc := .firstPause } shared
  | blockFirst (pc : c.pc = .firstPause) :
    ConsumerMove setup c shared { c with pc := .firstPaused } shared
  | attach (pc : c.pc = .shmOpen) (linked : shared.linked = true) :
    ConsumerMove setup c shared { c with pc := .test, ptr := 0, b := 0 } shared
  | unlinked (pc : c.pc = .shmOpen) (gone : shared.linked = false) :
    ConsumerMove setup c shared { c with pc := .failed, ptr := 0, b := 0 } shared
  | enter (pc : c.pc = .test) (more : c.b < setup.dataNum) :
    ConsumerMove setup c shared { c with pc := setup.version.enter .lock .copy, split := [] } shared
  | acquire (pc : c.pc = .lock) (free : load32 shared.mem setup.lockAddr = 0) :
    ConsumerMove setup c shared { c with pc := .copy }
      { shared with mem := store32 shared.mem setup.lockAddr 1 }
  | spin (pc : c.pc = .lock) : ConsumerMove setup c shared c shared
  | copyByte (pc : c.pc = .copy) (nonzero : shared.mem (c.ptr + c.split.length) ≠ 0) :
    ConsumerMove setup c shared
      { c with split := c.split ++ [shared.mem (c.ptr + c.split.length)] } shared
  | copyEnd (pc : c.pc = .copy) (zero : shared.mem (c.ptr + c.split.length) = 0) :
    ConsumerMove setup c shared
      { c with
        pc := setup.version.enter .unlock .compare
        split := c.split ++ [newline]
        copied := c.copied ++ [(c.ptr / 80, c.split)] } shared
  | release (pc : c.pc = .unlock) : ConsumerMove setup c shared { c with pc := .compare }
      { shared with mem := store32 shared.mem setup.lockAddr 0 }
  | equal (pc : c.pc = .compare) :
    ConsumerMove setup c shared
      { c with pc := .add c.recvSeq, compared := c.compared ++ [c.recvSeq] } shared
  | different (pc : c.pc = .compare) :
    ConsumerMove setup c shared
      { c with pc := .advance, compared := c.compared ++ [c.recvSeq] } shared
  | add (seq : Nat) (pc : c.pc = .add seq) :
    ConsumerMove setup c shared { c with pc := .advance, added := c.added ++ [seq] }
      { shared with
        mem := store32 shared.mem setup.counterAddr (load32 shared.mem setup.counterAddr + 1) }
  | advance (pc : c.pc = .advance) :
    ConsumerMove setup c shared
      { c with
        pc := .testEnd
        ptr := if c.b % setup.buf = setup.buf - 1 then 0 else c.ptr + 80
        b := c.b + 1 } shared
  | exit (pc : c.pc = .testEnd) (done : c.b ≥ setup.dataNum) :
    ConsumerMove setup c shared { c with pc := .exited } { shared with linked := false }
  | again (pc : c.pc = .testEnd) (more : ¬ c.b ≥ setup.dataNum) :
    ConsumerMove setup c shared { c with pc := .pause } shared
  | block (pc : c.pc = .pause) : ConsumerMove setup c shared { c with pc := .paused } shared

inductive ProducerMove (setup : Setup) (s : State) : State → Prop
  | clearLock (pc : s.producer.pc = .clearLock) :
    ProducerMove setup s
      { s with
        producer := { s.producer with pc := .fork 0 }
        shared := { s.shared with mem := store32 s.shared.mem setup.lockAddr 0 } }
  | fork (i : Nat) (pc : s.producer.pc = .fork i) (more : i < setup.consumer) :
    ProducerMove setup s
      { s with
        producer := { s.producer with pc := .fork (i + 1) }
        consumers := Function.update s.consumers i { s.consumers i with pc := .install } }
  | forked (i : Nat) (pc : s.producer.pc = .fork i) (done : ¬ i < setup.consumer) :
    ProducerMove setup s { s with producer := { s.producer with pc := .head 0 } }
  | body (n : Nat) (pc : s.producer.pc = .head n) (more : n < setup.dataNum) :
    ProducerMove setup s
      { s with producer := { s.producer with pc := setup.version.enter (.lock n) (.copy n 0) } }
  | toWait (n : Nat) (pc : s.producer.pc = .head n) (done : ¬ n < setup.dataNum) :
    ProducerMove setup s { s with producer := { s.producer with pc := .wait 0 } }
  | acquire (n : Nat) (pc : s.producer.pc = .lock n)
    (free : load32 s.shared.mem setup.lockAddr = 0) :
    ProducerMove setup s
      { s with
        producer := { s.producer with pc := .copy n 0 }
        shared := { s.shared with mem := store32 s.shared.mem setup.lockAddr 1 } }
  | spin (n : Nat) (pc : s.producer.pc = .lock n) : ProducerMove setup s s
  | copyByte (n j : Nat) (pc : s.producer.pc = .copy n j) (more : j < (message n).length) :
    ProducerMove setup s
      { s with
        producer := { s.producer with pc := .copy n (j + 1) }
        shared := { s.shared with
          mem := store s.shared.mem (s.producer.ptr + j) ((message n).getD j 0) } }
  | copyEnd (n j : Nat) (pc : s.producer.pc = .copy n j) (done : ¬ j < (message n).length) :
    ProducerMove setup s
      { s with
        producer := { s.producer with
          pc := setup.version.enter (.unlock n) (.send n 0)
          written := s.producer.written ++ [(s.producer.ptr / 80, message n)] }
        shared := { s.shared with
          mem := store s.shared.mem (s.producer.ptr + j) ((message n).getD j 0) } }
  | release (n : Nat) (pc : s.producer.pc = .unlock n) :
    ProducerMove setup s
      { s with
        producer := { s.producer with pc := .send n 0 }
        shared := { s.shared with mem := store32 s.shared.mem setup.lockAddr 0 } }
  | send (n i1 : Nat) (pc : s.producer.pc = .send n i1) (more : i1 < setup.consumer) :
    ProducerMove setup s
      { s with
        producer := { s.producer with pc := .send n (i1 + 1) }
        consumers := Function.update s.consumers i1 ((s.consumers i1).sigqueue n) }
  | sent (n i1 : Nat) (pc : s.producer.pc = .send n i1) (done : ¬ i1 < setup.consumer) :
    ProducerMove setup s { s with producer := { s.producer with pc := .sleep n } }
  | sleep (n : Nat) (pc : s.producer.pc = .sleep n) :
    ProducerMove setup s
      { s with producer := { s.producer with
        pc := .head (n + 1)
        ptr := if n % setup.buf = setup.buf - 1 then 0 else s.producer.ptr + 80 } }
  | reap (i1 : Nat) (pc : s.producer.pc = .wait i1) (more : i1 < setup.consumer)
    (ended : (s.consumers i1).pc.ended) :
    ProducerMove setup s { s with producer := { s.producer with pc := .wait (i1 + 1) } }
  | finish (i1 : Nat) (pc : s.producer.pc = .wait i1) (done : ¬ i1 < setup.consumer) :
    ProducerMove setup s
      { s with
        producer := { s.producer with pc := .finished }
        shared := { s.shared with linked := false } }

section
variable {setup : Setup} {outcome : Bool}

theorem consumerStep_move {c c' : Consumer} {shared shared' : Shared}
    (step : consumerStep setup outcome c shared = some (c', shared')) :
    ConsumerMove setup c shared c' shared' := by
  cases hpc : c.pc with
  | notForked | firstPaused | paused | exited | failed | killed => simp [consumerStep, hpc] at step
  | install =>
    obtain ⟨rfl, rfl⟩ : _ ∧ _ := by simpa [consumerStep, hpc] using step
    exact .install hpc
  | firstPause =>
    obtain ⟨rfl, rfl⟩ : _ ∧ _ := by simpa [consumerStep, hpc] using step
    exact .blockFirst hpc
  | shmOpen =>
    cases linked : shared.linked with
    | true =>
      obtain ⟨rfl, rfl⟩ : _ ∧ _ := by simpa [consumerStep, hpc, linked] using step
      exact .attach hpc linked
    | false =>
      obtain ⟨rfl, rfl⟩ : _ ∧ _ := by simpa [consumerStep, hpc, linked] using step
      exact .unlinked hpc linked
  | test =>
    obtain ⟨more, rfl, rfl⟩ : _ ∧ _ ∧ _ := by simpa [consumerStep, hpc] using step
    exact .enter hpc more
  | lock =>
    by_cases free : load32 shared.mem setup.lockAddr = 0
    · obtain ⟨rfl, rfl⟩ : _ ∧ _ := by simpa [consumerStep, hpc, free] using step
      exact .acquire hpc free
    · obtain ⟨rfl, rfl⟩ : _ ∧ _ := by simpa [consumerStep, hpc, free] using step
      exact .spin hpc
  | copy =>
    by_cases zero : shared.mem (c.ptr + c.split.length) = 0
    · obtain ⟨rfl, rfl⟩ : _ ∧ _ := by simpa [consumerStep, hpc, zero] using step
      exact .copyEnd hpc zero
    · obtain ⟨rfl, rfl⟩ : _ ∧ _ := by simpa [consumerStep, hpc, zero] using step
      have move : ConsumerMove setup c shared _ _ := .copyByte hpc zero
      simpa only [hpc] using move
  | unlock =>
    obtain ⟨rfl, rfl⟩ : _ ∧ _ := by simpa [consumerStep, hpc] using step
    exact .release hpc
  | compare =>
    cases same : sameSeq setup.version c.recvSeq c.split outcome with
    | true =>
      obtain ⟨rfl, rfl⟩ : _ ∧ _ := by simpa [consumerStep, hpc, same] using step
      exact .equal hpc
    | false =>
      obtain ⟨rfl, rfl⟩ : _ ∧ _ := by simpa [consumerStep, hpc, same] using step
      exact .different hpc
  | add seq =>
    obtain ⟨rfl, rfl⟩ : _ ∧ _ := by simpa [consumerStep, hpc] using step
    exact .add seq hpc
  | advance =>
    obtain ⟨rfl, rfl⟩ : _ ∧ _ := by simpa [consumerStep, hpc] using step
    exact .advance hpc
  | testEnd =>
    by_cases done : c.b ≥ setup.dataNum
    · obtain ⟨rfl, rfl⟩ : _ ∧ _ := by simpa [consumerStep, hpc, done] using step
      exact .exit hpc done
    · obtain ⟨rfl, rfl⟩ : _ ∧ _ := by simpa [consumerStep, hpc, done] using step
      exact .again hpc done
  | pause =>
    obtain ⟨rfl, rfl⟩ : _ ∧ _ := by simpa [consumerStep, hpc] using step
    exact .block hpc

theorem producerStep_move {s t : State} (step : producerStep setup s = some t) :
    ProducerMove setup s t := by
  cases hpc : s.producer.pc with
  | clearLock =>
    obtain rfl : _ = t := by simpa [producerStep, hpc] using step
    exact .clearLock hpc
  | fork i =>
    by_cases more : i < setup.consumer
    · obtain rfl : _ = t := by simpa [producerStep, hpc, more] using step
      exact .fork i hpc more
    · obtain rfl : _ = t := by simpa [producerStep, hpc, more] using step
      exact .forked i hpc more
  | head n =>
    by_cases more : n < setup.dataNum
    · obtain rfl : _ = t := by simpa [producerStep, hpc, more] using step
      exact .body n hpc more
    · obtain rfl : _ = t := by simpa [producerStep, hpc, more] using step
      exact .toWait n hpc more
  | lock n =>
    by_cases free : load32 s.shared.mem setup.lockAddr = 0
    · obtain rfl : _ = t := by simpa [producerStep, hpc, free] using step
      exact .acquire n hpc free
    · obtain rfl : _ = t := by simpa [producerStep, hpc, free] using step
      exact .spin n hpc
  | copy n j =>
    by_cases more : j < (message n).length
    · obtain rfl : _ = t := by
        simpa only [producerStep, hpc, more, if_true, Option.some.injEq] using step
      exact .copyByte n j hpc more
    · obtain rfl : _ = t := by
        simpa only [producerStep, hpc, more, if_false, Option.some.injEq] using step
      exact .copyEnd n j hpc more
  | unlock n =>
    obtain rfl : _ = t := by simpa [producerStep, hpc] using step
    exact .release n hpc
  | send n i1 =>
    by_cases more : i1 < setup.consumer
    · obtain rfl : _ = t := by simpa [producerStep, hpc, more] using step
      exact .send n i1 hpc more
    · obtain rfl : _ = t := by simpa [producerStep, hpc, more] using step
      exact .sent n i1 hpc more
  | sleep n =>
    obtain rfl : _ = t := by simpa [producerStep, hpc] using step
    exact .sleep n hpc
  | wait i1 =>
    by_cases more : i1 < setup.consumer
    · obtain ⟨ended, rfl⟩ : _ ∧ _ = t := by simpa [producerStep, hpc, more] using step
      exact .reap i1 hpc more ended
    · obtain rfl : _ = t := by simpa [producerStep, hpc, more] using step
      exact .finish i1 hpc more
  | finished => simp [producerStep, hpc] at step

end

/-- What the producer does to a consumer. -/
theorem ProducerMove.consumer {setup : Setup} {s t : State} (move : ProducerMove setup s t)
    (c : Nat) :
    (t.consumers c = s.consumers c ∧ ∀ n, s.producer.pc = .send n c → setup.consumer ≤ c) ∨
    (s.producer.pc = .fork c ∧ c < setup.consumer ∧
      t.consumers c = { s.consumers c with pc := .install }) ∨
    (∃ n, s.producer.pc = .send n c ∧ c < setup.consumer ∧
      t.producer.pc = .send n (c + 1) ∧ t.consumers c = (s.consumers c).sigqueue n) := by
  cases move with
  | fork i pc more =>
    by_cases same : c = i
    · subst same
      exact Or.inr (Or.inl ⟨pc, more, Function.update_self ..⟩)
    · exact Or.inl ⟨Function.update_of_ne same .., by simp [pc]⟩
  | send n i pc more =>
    by_cases same : c = i
    · subst same
      exact Or.inr (Or.inr ⟨n, pc, more, rfl, Function.update_self ..⟩)
    · refine Or.inl ⟨Function.update_of_ne same .., ?_⟩
      intro m pc'
      cases pc.symm.trans pc'
      exact absurd rfl same
  | sent n i pc done =>
    refine Or.inl ⟨rfl, ?_⟩
    intro m pc'
    cases pc.symm.trans pc'
    exact Nat.le_of_not_lt done
  | clearLock pc | forked _ pc | body _ pc | toWait _ pc | acquire _ pc | spin _ pc
  | copyByte _ _ pc | copyEnd _ _ pc | release _ pc | sleep _ pc | reap _ pc | finish _ pc =>
    exact Or.inl ⟨rfl, by simp [pc]⟩

/-- A signal is dropped or becomes the pending one. -/
theorem Consumer.sigqueue_cases (c : Consumer) (n : Nat) :
    c.sigqueue n = c ∨ (c.pending = none ∧ c.sigqueue n = { c with pending := some n }) := by
  unfold Consumer.sigqueue
  by_cases ended : c.pc.ended
  · exact Or.inl (if_pos ended)
  · rw [if_neg ended]
    obtain ⟨pc, recvSeq, pending, ptr, b, split, compared, added, copied⟩ := c
    cases pending with
    | none => exact Or.inr ⟨rfl, rfl⟩
    | some v => exact Or.inl rfl

/-- It changes nothing but what is pending. -/
theorem Consumer.sigqueue_eq (c : Consumer) (n : Nat) :
    c.sigqueue n = { c with pending := (c.sigqueue n).pending } := by
  rcases c.sigqueue_cases n with dropped | ⟨-, pends⟩
  · rw [dropped]
  · rw [pends]

/-- The program counter after a signal is handled. -/
def ConsumerPc.wake : ConsumerPc → ConsumerPc
  | .firstPaused => .shmOpen
  | .paused => .test
  | pc => pc

theorem ConsumerPc.wake_cases (pc : ConsumerPc) :
    pc.wake = pc ∨ pc.wake = .shmOpen ∨ pc.wake = .test := by
  cases pc with
  | firstPaused => exact Or.inr (Or.inl rfl)
  | paused => exact Or.inr (Or.inr rfl)
  | _ => exact Or.inl rfl

/-- The handler is installed and the process runs. -/
def ConsumerPc.handles : ConsumerPc → Bool
  | .notForked | .install | .exited | .failed | .killed => false
  | _ => true

/-- Delivery of a pending signal. -/
inductive DeliverMove (c : Consumer) : Consumer → Prop
  | kill (n : Nat) (pending : c.pending = some n) (pc : c.pc = .install) :
    DeliverMove c { c with pc := .killed, pending := none }
  | handle (n : Nat) (pending : c.pending = some n) (handles : c.pc.handles) :
    DeliverMove c { c with pc := c.pc.wake, recvSeq := n, pending := none }

theorem Consumer.deliver_move {c c' : Consumer} (step : c.deliver = some c') :
    DeliverMove c c' := by
  cases hp : c.pending with
  | none => simp [Consumer.deliver, hp] at step
  | some n =>
    cases hpc : c.pc with
    | notForked | exited | failed | killed => simp [Consumer.deliver, hp, hpc] at step
    | install =>
      obtain rfl : _ = c' := by simpa [Consumer.deliver, hp, hpc] using step
      exact .kill n hp hpc
    | _ =>
      have handles : c.pc.handles := by rw [hpc]; rfl
      obtain rfl : { c with pc := c.pc.wake, recvSeq := n, pending := none } = c' := by
        simpa [Consumer.deliver, hp, hpc, ConsumerPc.wake] using step
      exact .handle n hp handles

/-- A consumer that takes a step is forked, does not block and has not ended. -/
theorem ConsumerMove.running {setup : Setup} {c c' : Consumer} {shared shared' : Shared}
    (move : ConsumerMove setup c shared c' shared') :
    c.pc ≠ .notForked ∧ ¬ c.pc.waiting ∧ ¬ c.pc.ended := by
  cases move with
  | install pc | blockFirst pc | attach pc | unlinked pc | enter pc | acquire pc | spin pc
  | copyByte pc | copyEnd pc | release pc | equal pc | different pc | add _ pc | advance pc
  | exit pc | again pc | block pc => simp [pc, ConsumerPc.waiting, ConsumerPc.ended]

theorem DeliverMove.forked {c c' : Consumer} (move : DeliverMove c c') : c.pc ≠ .notForked := by
  intro notForked
  cases move with
  | kill _ _ pc => simp [notForked] at pc
  | handle _ _ handles => simp [notForked, ConsumerPc.handles] at handles

/-- One step of the system. -/
inductive Move (setup : Setup) (s : State) : Act → State → Prop
  | producer (t : State) (move : ProducerMove setup s t) : Move setup s .producer t
  | consumer (c : Nat) (outcome : Bool) (client : Consumer) (shared : Shared)
    (move : ConsumerMove setup (s.consumers c) s.shared client shared) :
    Move setup s (.consumer c outcome)
      { s with consumers := Function.update s.consumers c client, shared }
  | deliver (c : Nat) (client : Consumer) (move : DeliverMove (s.consumers c) client) :
    Move setup s (.deliver c) { s with consumers := Function.update s.consumers c client }

theorem next_move {setup : Setup} {act : Act} {s t : State} (step : next setup act s = some t) :
    Move setup s act t := by
  cases act with
  | producer => exact .producer t (producerStep_move step)
  | consumer c outcome =>
    obtain ⟨⟨client, shared⟩, move, same⟩ := Option.map_eq_some_iff.mp step
    exact same ▸ .consumer c outcome client shared (consumerStep_move move)
  | deliver c =>
    obtain ⟨client, move, same⟩ := Option.map_eq_some_iff.mp step
    exact same ▸ .deliver c client (Consumer.deliver_move move)

end RingBuffer
