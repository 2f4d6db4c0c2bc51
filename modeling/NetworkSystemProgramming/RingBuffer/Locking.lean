import NetworkSystemProgramming.RingBuffer.Layout
import NetworkSystemProgramming.SpinLock
import Mathlib.Data.List.GetD

/-!
# Whole messages in the enhanced version

The lock lies in the shared buffer, but outside the text of every slot. So it works: at
most one process is between its compare-and-swap and its release, and no consumer reads a
slot while the producer writes one. What it copies is what the slot holds.
-/

namespace RingBuffer

open ByteBuffers ByteMemory SpinLock StepSystems StepSystem

inductive Process where
  | producer
  | consumer (c : Nat)
  deriving DecidableEq

def ProducerPc.inSection : ProducerPc → Bool
  | .copy _ _ | .unlock _ => true
  | _ => false

def ConsumerPc.inSection : ConsumerPc → Bool
  | .copy | .unlock => true
  | _ => false

/-- Between the compare-and-swap that succeeds and the release. -/
def InSection (s : State) : Process → Prop
  | .producer => s.producer.pc.inSection
  | .consumer c => (s.consumers c).pc.inSection

/-! ## What a slot holds -/

/-- Slot `k` holds a string that fits, with its NUL. -/
structure SlotHolds (mem : Memory) (k : Nat) (str : List Byte) : Prop where
  fits : str.length ≤ textRoom
  clean : 0 ∉ str
  bytes : ∀ j ≤ str.length, mem (80 * k + j) = str.getD j 0

/-- A copy of the string at `ptr`, not yet complete. -/
structure ReadSoFar (mem : Memory) (ptr : Nat) (split : List Byte) : Prop where
  clean : 0 ∉ split
  bytes : ∀ j < split.length, mem (ptr + j) = split.getD j 0

theorem SlotHolds.read {mem : Memory} {k : Nat} {str split : List Byte} (h : SlotHolds mem k str)
    (read : ReadSoFar mem (80 * k) split) (zero : mem (80 * k + split.length) = 0) :
    split = str := by
  have notShorter : ¬ split.length < str.length := by
    intro shorter
    have byte := h.bytes split.length shorter.le
    rw [zero, List.getD_eq_getElem _ _ shorter] at byte
    exact h.clean (byte ▸ List.getElem_mem shorter)
  have notLonger : ¬ str.length < split.length := by
    intro longer
    have byte := read.bytes str.length longer
    rw [h.bytes str.length (le_refl _), List.getD_eq_getElem _ _ longer] at byte
    have last : str.getD str.length 0 = 0 := List.getD_eq_default _ _ (le_refl _)
    rw [last] at byte
    exact read.clean (byte ▸ List.getElem_mem longer)
  apply List.ext_getElem (by omega)
  intro j inside inside'
  have byte := (read.bytes j inside).symm.trans (h.bytes j inside'.le)
  rwa [List.getD_eq_getElem _ _ inside, List.getD_eq_getElem _ _ inside'] at byte

/-- What the producer wrote is in the slots, but for the one it is writing. -/
structure Slots (setup : Setup) (p : Producer) (mem : Memory) : Prop where
  written : ∀ e ∈ p.written, ∃ n < setup.dataNum, e = (n % setup.buf, message n)
  writing : ∀ n j, p.pc = .copy n j → ∀ i < j, mem (p.ptr + i) = (message n).getD i 0
  slots : ∀ k, (∀ n j, p.pc = .copy n j → k ≠ n % setup.buf) →
    ∃ str, SlotHolds mem k str ∧ (str = [] ∨ (k, str) ∈ p.written)

structure Consumer.Reads (mem : Memory) (written : List (Nat × List Byte)) (c : Consumer) :
    Prop where
  entering : c.pc = .lock → c.split = []
  copying : c.pc = .copy → ReadSoFar mem c.ptr c.split
  copied : ∀ e ∈ c.copied, e.2 = [] ∨ e ∈ written

structure Untorn (setup : Setup) (s : State) : Prop where
  lock : Excludes (load32 s.shared.mem setup.lockAddr) (InSection s)
  unforked : s.producer.pc = .clearLock → ∀ c, (s.consumers c).pc = .notForked
  slots : Slots setup s.producer s.shared.mem
  reads : ∀ c, (s.consumers c).Reads s.shared.mem s.producer.written

variable {setup : Setup} {s t : State} {c c' : Consumer} {shared shared' : Shared}

theorem SlotHolds.frame {mem mem' : Memory} {k : Nat} {str : List Byte} (h : SlotHolds mem k str)
    (text : ∀ j ≤ textRoom, mem' (80 * k + j) = mem (80 * k + j)) : SlotHolds mem' k str where
  fits := h.fits
  clean := h.clean
  bytes j inside := (text j (inside.trans h.fits)).trans (h.bytes j inside)

/-- The text of the slots stays. -/
theorem Slots.frame {mem' : Memory} (h : Slots setup s.producer s.shared.mem)
    (layout : Layout setup s)
    (text : ∀ k j, j < 40 → mem' (80 * k + j) = s.shared.mem (80 * k + j)) :
    Slots setup s.producer mem' := by
  refine ⟨h.written, ?_, ?_⟩
  · intro n j pc i before
    obtain ⟨room, ptr, -⟩ := layout.target pc
    simp only [textRoom] at room
    rw [← h.writing n j pc i before, ptr]
    exact text _ i (by omega)
  · intro k other
    obtain ⟨str, holds, whole⟩ := h.slots k other
    have same : ∀ j ≤ textRoom, mem' (80 * k + j) = s.shared.mem (80 * k + j) := by
      intro j inside
      apply text k j
      simp only [textRoom] at inside
      omega
    exact ⟨str, holds.frame same, whole⟩

/-- The producer is not copying, and has copied nothing after its step. -/
theorem Slots.goto {p p' : Producer} {mem : Memory} (h : Slots setup p mem)
    (quiet : ∀ n j, p.pc ≠ .copy n j) (begins : ∀ n j, p'.pc = .copy n j → j = 0)
    (written : p'.written = p.written) : Slots setup p' mem := by
  refine ⟨written ▸ h.written, ?_, ?_⟩
  · intro n j pc i before
    have zero := begins n j pc
    omega
  · intro k _
    exact written ▸ h.slots k fun n j pc => absurd pc (quiet n j)

theorem ProducerMove.slots (move : ProducerMove setup s t) (layout : Layout setup s)
    (h : Slots setup s.producer s.shared.mem) : Slots setup t.producer t.shared.mem := by
  -- The slot that the producer is at changes, and no other one.
  have others {n j k i : Nat} (byte : Byte) (pc : s.producer.pc = .copy n j)
      (other : k ≠ n % setup.buf) (inside : i ≤ textRoom) :
      store s.shared.mem (s.producer.ptr + j) byte (80 * k + i) = s.shared.mem (80 * k + i) := by
    obtain ⟨room, ptr, -⟩ := layout.target pc
    apply store_other
    simp only [textRoom] at room inside
    omega
  have sofar {n j : Nat} (pc : s.producer.pc = .copy n j) :
      ∀ i ≤ j, store s.shared.mem (s.producer.ptr + j) ((message n).getD j 0) (s.producer.ptr + i) =
        (message n).getD i 0 := by
    intro i inside
    by_cases now : i = j
    · rw [now, store_same]
    · rw [store_other _ _ (by omega)]
      exact h.writing n j pc i (by omega)
  have text := move.text
  cases move with
  | copyByte n j pc more =>
    refine ⟨h.written, ?_, ?_⟩
    · rintro m i ⟨⟩ i before
      exact sofar pc i (Nat.le_of_lt_succ before)
    · intro k other
      have elsewhere := other n (j + 1) rfl
      have before : ∀ m i, s.producer.pc = .copy m i → k ≠ m % setup.buf := by
        intro m i pc'
        cases pc.symm.trans pc'
        exact elsewhere
      obtain ⟨str, holds, whole⟩ := h.slots k before
      exact ⟨str, holds.frame fun i => others _ pc elsewhere, whole⟩
  | copyEnd n j pc done =>
    obtain ⟨room, ptr, less⟩ := layout.target pc
    have last : j = (message n).length :=
      Nat.le_antisymm (layout.producer.copied n j pc) (Nat.le_of_not_lt done)
    have slot : s.producer.ptr / 80 = n % setup.buf := by omega
    refine ⟨?_, ?_, ?_⟩
    · intro e member
      rcases List.mem_append.mp member with before | now
      · exact h.written e before
      · exact ⟨n, less, by rw [List.mem_singleton.mp now, slot]⟩
    · have ends : ∀ m i, setup.version.enter (ProducerPc.unlock n) (.send n 0) ≠ .copy m i :=
        setup.version.enter_of (P := fun next => ∀ m i, next ≠ ProducerPc.copy m i) (by simp)
          (by simp)
      intro m i pc'
      exact absurd pc' (ends m i)
    · intro k _
      by_cases here : k = n % setup.buf
      · refine ⟨message n, ?_, Or.inr ?_⟩
        · refine ⟨last ▸ room, message_clean n, ?_⟩
          intro i inside
          rw [here, ← ptr]
          exact sofar pc i (last ▸ inside)
        · rw [here, ← slot]
          exact List.mem_append_right _ (List.mem_singleton_self _)
      · have before : ∀ m i, s.producer.pc = .copy m i → k ≠ m % setup.buf := by
          intro m i pc'
          cases pc.symm.trans pc'
          exact here
        obtain ⟨str, holds, whole⟩ := h.slots k before
        exact ⟨str, holds.frame fun i => others _ pc here, whole.imp_right (List.mem_append_left _)⟩
  | spin => exact h
  | body n pc =>
    have quiet : ∀ m j, s.producer.pc ≠ .copy m j := by simp [pc]
    refine (h.frame layout fun k j => text quiet k).goto quiet ?_ rfl
    apply setup.version.enter_of (P := fun next => ∀ m j, next = ProducerPc.copy m j → j = 0)
    · simp
    · rintro m j ⟨⟩
      rfl
  | acquire n pc =>
    have quiet : ∀ m j, s.producer.pc ≠ .copy m j := by simp [pc]
    refine (h.frame layout fun k j => text quiet k).goto quiet ?_ rfl
    rintro m j ⟨⟩
    rfl
  | clearLock pc | fork _ pc | forked _ pc | toWait _ pc | release _ pc | send _ _ pc | sent _ _ pc
  | sleep _ pc | reap _ pc | finish _ pc =>
    have quiet : ∀ m j, s.producer.pc ≠ .copy m j := by simp [pc]
    exact (h.frame layout fun k j => text quiet k).goto quiet (by simp) rfl

/-! ## The lock -/

theorem lockWord_text {n j : Nat} (layout : Layout setup s) (pc : s.producer.pc = .copy n j)
    (byte : Byte) : load32 (store s.shared.mem (s.producer.ptr + j) byte) setup.lockAddr =
      load32 s.shared.mem setup.lockAddr := by
  obtain ⟨room, ptr, -⟩ := layout.target pc
  have slot := Nat.mod_lt n setup.buf_pos
  apply load32_store
  simp only [Setup.lockAddr, textRoom] at room ⊢
  omega

theorem lockWord_counter (mem : Memory) (v : Nat) :
    load32 (store32 mem setup.counterAddr v) setup.lockAddr = load32 mem setup.lockAddr := by
  apply load32_store32_other
  simp only [Setup.lockAddr, Setup.counterAddr]
  omega

/-- After a step of consumer `c`. -/
theorem inSection_update {p : Process} {c : Nat} {client : Consumer} {shared : Shared}
    (h : InSection { s with consumers := Function.update s.consumers c client, shared } p) :
    (p = .consumer c ∧ client.pc.inSection) ∨ (p ≠ .consumer c ∧ InSection s p) := by
  cases p with
  | producer => exact Or.inr ⟨nofun, h⟩
  | consumer k =>
    by_cases same : k = c
    · subst same
      exact Or.inl ⟨rfl, by simpa [InSection] using h⟩
    · exact Or.inr ⟨by simpa using same, by simpa [InSection, same] using h⟩

/-- A consumer that neither acquires nor releases. -/
theorem excludes_update {c word : Nat} {client : Consumer} {shared : Shared}
    (h : Excludes (load32 s.shared.mem setup.lockAddr) (InSection s))
    (same : word = load32 s.shared.mem setup.lockAddr)
    (inside : client.pc.inSection → (s.consumers c).pc.inSection) :
    Excludes word
      (InSection { s with consumers := Function.update s.consumers c client, shared }) := by
  apply h.keep same
  intro p hp
  rcases inSection_update hp with ⟨rfl, now⟩ | ⟨-, before⟩
  · exact inside now
  · exact before

theorem ConsumerMove.lock {c : Nat} (enhanced : setup.version = .enhanced)
    (move : ConsumerMove setup (s.consumers c) s.shared c' shared')
    (h : Excludes (load32 s.shared.mem setup.lockAddr) (InSection s)) :
    Excludes (load32 shared'.mem setup.lockAddr)
      (InSection { s with consumers := Function.update s.consumers c c', shared := shared' }) := by
  cases move with
  | acquire pc free =>
    refine h.acquire free (by simp [load32_store32_same]) (.consumer c) ?_
    intro q hq
    exact (inSection_update hq).imp And.left And.right
  | release pc =>
    refine h.release (p := .consumer c) (by simp [InSection, pc, ConsumerPc.inSection]) ?_
    intro q hq
    rcases inSection_update hq with ⟨-, now⟩ | ⟨other, before⟩
    · exact absurd now Bool.false_ne_true
    · exact ⟨before, other⟩
  | add => exact excludes_update h (lockWord_counter ..) nofun
  | enter => exact excludes_update h rfl (by simp [enhanced, Version.enter, ConsumerPc.inSection])
  | spin => exact excludes_update h rfl id
  | copyByte => exact excludes_update h rfl id
  | copyEnd pc => exact excludes_update h rfl (by simp [pc, ConsumerPc.inSection])
  | _ => exact excludes_update h rfl fun now => absurd now Bool.false_ne_true

theorem DeliverMove.inSection (move : DeliverMove c c') (now : c'.pc.inSection) :
    c.pc.inSection := by
  cases move with
  | kill => exact absurd now Bool.false_ne_true
  | handle n pending handles =>
    rcases c.pc.wake_cases with same | woken | woken
    · exact same ▸ now
    · simp [woken, ConsumerPc.inSection] at now
    · simp [woken, ConsumerPc.inSection] at now

/-- After a step of the producer. -/
theorem ProducerMove.inSection {p : Process} (move : ProducerMove setup s t) (h : InSection t p) :
    (p = .producer ∧ t.producer.pc.inSection) ∨ (p ≠ .producer ∧ InSection s p) := by
  cases p with
  | producer => exact Or.inl ⟨rfl, h⟩
  | consumer c =>
    refine Or.inr ⟨nofun, ?_⟩
    simp only [InSection] at h ⊢
    rcases move.consumer c with ⟨same, -⟩ | ⟨-, -, same⟩ | ⟨n, -, -, -, same⟩
    · rwa [same] at h
    · rw [same] at h
      exact absurd h Bool.false_ne_true
    · rwa [same, Consumer.sigqueue_eq] at h

theorem ProducerMove.lock (enhanced : setup.version = .enhanced) (move : ProducerMove setup s t)
    (layout : Layout setup s)
    (unforked : s.producer.pc = .clearLock → ∀ c, (s.consumers c).pc = .notForked)
    (h : Excludes (load32 s.shared.mem setup.lockAddr) (InSection s)) :
    Excludes (load32 t.shared.mem setup.lockAddr) (InSection t) := by
  have inSection := fun p => move.inSection (p := p)
  have keep (same : load32 t.shared.mem setup.lockAddr = load32 s.shared.mem setup.lockAddr)
      (inside : t.producer.pc.inSection → s.producer.pc.inSection) :
      Excludes (load32 t.shared.mem setup.lockAddr) (InSection t) := by
    apply h.keep same
    intro p hp
    rcases inSection p hp with ⟨rfl, now⟩ | ⟨-, before⟩
    · exact inside now
    · exact before
  cases move with
  | clearLock pc =>
    apply Excludes.empty
    intro p hp
    rcases inSection p hp with ⟨-, now⟩ | ⟨other, before⟩
    · exact absurd now Bool.false_ne_true
    · cases p with
      | producer => exact other rfl
      | consumer c => simp [InSection, unforked pc c, ConsumerPc.inSection] at before
  | acquire n pc free =>
    refine h.acquire free (by simp [load32_store32_same]) .producer ?_
    intro p hp
    exact (inSection p hp).imp And.left And.right
  | release n pc =>
    refine h.release (p := .producer) (by simp [InSection, pc, ProducerPc.inSection]) ?_
    intro p hp
    rcases inSection p hp with ⟨-, now⟩ | ⟨other, before⟩
    · exact absurd now Bool.false_ne_true
    · exact ⟨before, other⟩
  | body => exact keep rfl (by simp [enhanced, Version.enter, ProducerPc.inSection])
  | copyByte n j pc => exact keep (lockWord_text layout pc _) (by simp [pc, ProducerPc.inSection])
  | copyEnd n j pc => exact keep (lockWord_text layout pc _) (by simp [pc, ProducerPc.inSection])
  | spin => exact keep rfl id
  | _ => exact keep rfl fun now => absurd now Bool.false_ne_true

/-! ## What consumers read -/

theorem Consumer.Reads.frame {mem mem' : Memory} {written written' : List (Nat × List Byte)}
    (h : c.Reads mem written) (placed : c.Placed setup)
    (text : c.pc = .copy → ∀ k j, j < 40 → mem' (80 * k + j) = mem (80 * k + j))
    (grows : ∀ e ∈ written, e ∈ written') : c.Reads mem' written' where
  entering := h.entering
  copying pc := by
    obtain ⟨clean, bytes⟩ := h.copying pc
    have room := placed.reading (by rw [pc]; rfl)
    refine ⟨clean, ?_⟩
    intro j inside
    rw [← bytes j inside, placed.ptr]
    apply text pc
    simp only [textRoom] at room
    omega
  copied e member := (h.copied e member).imp_right (grows e)

/-- What is copied from a slot that nobody writes is what the slot holds. -/
theorem ConsumerMove.reads {written : List (Nat × List Byte)} (enhanced : setup.version = .enhanced)
    (move : ConsumerMove setup c shared c' shared') (placed : c.Placed setup)
    (h : c.Reads shared.mem written)
    (slot : c.pc = .copy → ∃ str, SlotHolds shared.mem (c.b % setup.buf) str ∧
      (str = [] ∨ (c.b % setup.buf, str) ∈ written)) :
    c'.Reads shared'.mem written := by
  cases move with
  | enter => exact ⟨fun _ => rfl, by simp [enhanced, Version.enter], h.copied⟩
  | acquire pc =>
    refine ⟨nofun, ?_, h.copied⟩
    intro
    rw [h.entering pc]
    exact ⟨List.not_mem_nil, nofun⟩
  | spin => exact h
  | copyByte pc nonzero =>
    obtain ⟨clean, bytes⟩ := h.copying pc
    refine ⟨by simp [pc], ?_, h.copied⟩
    intro
    refine ⟨by simpa using ⟨clean, Ne.symm nonzero⟩, ?_⟩
    intro j inside
    by_cases before : j < c.split.length
    · rw [List.getD_append _ _ _ _ before]
      exact bytes j before
    · have now : j = c.split.length := by
        simp only [List.length_append, List.length_singleton] at inside
        omega
      simp [now]
  | copyEnd pc zero =>
    obtain ⟨str, holds, whole⟩ := slot pc
    have read := h.copying pc
    rw [placed.ptr] at read zero
    have same := holds.read read zero
    have index : c.ptr / 80 = c.b % setup.buf := by
      rw [placed.ptr]
      omega
    refine ⟨by simp [enhanced, Version.enter], by simp [enhanced, Version.enter], ?_⟩
    intro e member
    rcases List.mem_append.mp member with before | now
    · exact h.copied e before
    · rw [List.mem_singleton.mp now, index, same]
      exact whole
  | _ => exact ⟨nofun, nofun, h.copied⟩

theorem DeliverMove.reads {mem : Memory} {written : List (Nat × List Byte)}
    (move : DeliverMove c c') (h : c.Reads mem written) : c'.Reads mem written := by
  cases move with
  | kill => exact ⟨nofun, nofun, h.copied⟩
  | handle n pending handles =>
    rcases c.pc.wake_cases with same | woken | woken
    · exact ⟨fun pc => h.entering (same ▸ pc), fun pc => h.copying (same ▸ pc), h.copied⟩
    · exact ⟨by simp [woken], by simp [woken], h.copied⟩
    · exact ⟨by simp [woken], by simp [woken], h.copied⟩

theorem ProducerMove.written_grows (move : ProducerMove setup s t) :
    ∀ e ∈ s.producer.written, e ∈ t.producer.written := by
  cases move with
  | copyEnd => exact fun e => List.mem_append_left _
  | _ => exact fun e => id

theorem ProducerMove.cleared (move : ProducerMove setup s t) : t.producer.pc ≠ .clearLock := by
  cases move with
  | body | copyEnd => exact setup.version.enter_of (P := (· ≠ ProducerPc.clearLock)) nofun nofun
  | spin n pc => simp [pc]
  | _ => nofun

/-! ## Every run -/

/-- While a consumer copies, the producer does not. -/
theorem Untorn.quiet (h : Untorn setup s) {c : Nat} (copying : (s.consumers c).pc = .copy) :
    ∀ n j, s.producer.pc ≠ .copy n j := by
  intro n j pc
  have both := h.lock.unique .producer (.consumer c) (by simp [InSection, pc, ProducerPc.inSection])
    (by simp [InSection, copying, ConsumerPc.inSection])
  cases both

theorem Untorn.producer (enhanced : setup.version = .enhanced) (layout : Layout setup s)
    (h : Untorn setup s) (move : ProducerMove setup s t) : Untorn setup t := by
  refine ⟨move.lock enhanced layout h.unforked h.lock, ?_, move.slots layout h.slots, ?_⟩
  · intro pc
    exact absurd pc move.cleared
  · intro c
    have reads := (h.reads c).frame (layout.consumer c) (fun pc => move.text (h.quiet pc))
      move.written_grows
    rcases move.consumer c with ⟨same, -⟩ | ⟨-, -, same⟩ | ⟨n, -, -, -, same⟩
    · rw [same]
      exact reads
    · rw [same]
      exact ⟨nofun, nofun, reads.copied⟩
    · rw [same, Consumer.sigqueue_eq]
      exact ⟨reads.entering, reads.copying, reads.copied⟩

theorem Untorn.consumer {c : Nat} (enhanced : setup.version = .enhanced) (layout : Layout setup s)
    (h : Untorn setup s) (move : ConsumerMove setup (s.consumers c) s.shared c' shared') :
    Untorn setup { s with consumers := Function.update s.consumers c c', shared := shared' } := by
  refine ⟨move.lock enhanced h.lock, ?_, ?_, ?_⟩
  · intro pc
    exact absurd (h.unforked pc c) move.running.1
  · exact h.slots.frame layout fun k j => move.text k
  · apply (Function.forall_update_iff s.consumers fun _ client =>
      Consumer.Reads shared'.mem s.producer.written client).mpr
    refine ⟨?_, ?_⟩
    · apply move.reads enhanced (layout.consumer c) (h.reads c)
      intro pc
      exact h.slots.slots _ fun n j at_ => absurd at_ (h.quiet pc n j)
    · intro k _
      exact (h.reads k).frame (layout.consumer k) (fun _ => move.text) fun _ => id

theorem Untorn.deliver {c : Nat} {client : Consumer} (h : Untorn setup s)
    (move : DeliverMove (s.consumers c) client) :
    Untorn setup { s with consumers := Function.update s.consumers c client } := by
  refine ⟨excludes_update h.lock rfl move.inSection, ?_, h.slots, ?_⟩
  · intro pc
    exact absurd (h.unforked pc c) move.forked
  · apply (Function.forall_update_iff s.consumers fun _ client =>
      Consumer.Reads s.shared.mem s.producer.written client).mpr
    exact ⟨move.reads (h.reads c), fun k _ => h.reads k⟩

theorem untorn (enhanced : setup.version = .enhanced) (reach : (ringBuffer setup).Reachable s) :
    Untorn setup s := by
  refine reach.invariant_of (fun _ => layout) ?_ ?_
  · rintro s rfl
    have pc : (State.initial setup).producer.pc = .clearLock := by
      simp [State.initial, enhanced, Version.enter]
    refine ⟨?_, fun _ _ => rfl, ?_, ?_⟩
    · apply Excludes.empty
      intro p hp
      cases p with
      | producer => simp [InSection, pc, ProducerPc.inSection] at hp
      | consumer => exact absurd hp Bool.false_ne_true
    · refine ⟨fun _ member => absurd member List.not_mem_nil, by simp [pc], ?_⟩
      intro k _
      exact ⟨[], ⟨Nat.zero_le _, List.not_mem_nil, fun _ _ => by simp [State.initial]⟩, Or.inl rfl⟩
    · intro c
      constructor <;> simp [State.initial, Consumer.initial]
  · intro act s t layout h step
    cases next_move step with
    | producer _ move => exact h.producer enhanced layout move
    | consumer c outcome client shared move => exact h.consumer enhanced layout move
    | deliver c client move => exact h.deliver move

/-- At most one process is in the section, and every string that a consumer copies is
empty or one message that the producer wrote into that slot. -/
theorem messages_untorn (enhanced : setup.version = .enhanced)
    (reach : (ringBuffer setup).Reachable s) :
    (∀ p q, InSection s p → InSection s q → p = q) ∧
    ∀ c, ∀ e ∈ (s.consumers c).copied, e.2 = [] ∨
      (e ∈ s.producer.written ∧ ∃ n < setup.dataNum, e = (n % setup.buf, message n)) := by
  have h := untorn enhanced reach
  refine ⟨h.lock.unique, ?_⟩
  intro c e member
  rcases (h.reads c).copied e member with empty | wrote
  · exact Or.inl empty
  · exact Or.inr ⟨wrote, h.slots.written e wrote⟩

theorem first_message_whole :
    ∃ s, (ringBuffer (twoMessages .enhanced)).Reachable s ∧
      (s.consumers 0).copied = [(0, message 0)] ∧ (0, message 0) ∈ s.producer.written := by
  have run : (follow (next (twoMessages .enhanced))
      (List.replicate 3 Act.producer ++ List.replicate 2 (Act.consumer 0 true) ++
        List.replicate 22 Act.producer ++ [Act.deliver 0] ++
        List.replicate 21 (Act.consumer 0 true))
      (State.initial (twoMessages .enhanced))).map (fun s => (s.consumers 0).copied) =
      some [(0, message 0)] := by decide +kernel
  obtain ⟨s, hs, copied⟩ := Option.map_eq_some_iff.mp run
  have reach : (ringBuffer (twoMessages .enhanced)).Reachable s :=
    (Reachable.initial rfl).run (follow_run hs)
  refine ⟨s, reach, copied, ?_⟩
  have member : (0, message 0) ∈ (s.consumers 0).copied := copied ▸ List.mem_singleton_self _
  rcases (messages_untorn rfl reach).2 0 _ member with empty | ⟨wrote, -⟩
  · exact absurd empty (by decide +kernel)
  · exact wrote

end RingBuffer
