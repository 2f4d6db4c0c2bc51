import Mathlib.Data.List.Sort
import NetworkSystemProgramming.Inotify.EventBuffer

/-!
# What the walk over the event buffer shows

The walk visits the multiples of the largest event size. It shows an event exactly when
the event starts at one of them, and it takes whatever else lies there for an event.
-/

namespace FileNotify

open ByteBuffers

/-- Two increasing lists of positions select the same entries exactly when they agree on
the positions that select any. -/
theorem selections_eq_iff {A : Type} (f : Nat → Option A) {xs ys : List Nat}
    (hx : xs.Pairwise (· < ·)) (hy : ys.Pairwise (· < ·)) :
    (xs.filterMap fun x => (f x).map (x, ·)) = (ys.filterMap fun y => (f y).map (y, ·)) ↔
      ∀ x, f x ≠ none → (x ∈ xs ↔ x ∈ ys) := by
  constructor
  · intro same x some_
    obtain ⟨a, ha⟩ := Option.ne_none_iff_exists'.mp some_
    have selected (zs : List Nat) :
        x ∈ zs ↔ (x, a) ∈ zs.filterMap fun z => (f z).map (z, ·) := by
      rw [List.mem_filterMap]
      constructor
      · intro member
        exact ⟨x, member, by rw [ha]; rfl⟩
      · rintro ⟨z, member, hz⟩
        obtain ⟨b, -, pair⟩ := Option.map_eq_some_iff.mp hz
        exact (Prod.mk.inj pair).1 ▸ member
    rw [selected xs, selected ys, same]
  · intro agree
    have only (zs : List Nat) : (zs.filterMap fun z => (f z).map (z, ·)) =
        (zs.filter fun z => (f z).isSome).filterMap fun z => (f z).map (z, ·) := by
      induction zs with
      | nil => rfl
      | cons z zs ih =>
        cases hz : f z with
        | none => simpa [hz] using ih
        | some a => simpa [hz] using ih
    have positions : (xs.filter fun z => (f z).isSome) = ys.filter fun z => (f z).isSome := by
      apply List.Pairwise.eq_of_mem_iff (hx.filter _) (hy.filter _)
      intro x
      simp only [List.mem_filter, Option.isSome_iff_ne_none]
      constructor
      · rintro ⟨member, some_⟩
        exact ⟨(agree x some_).mp member, some_⟩
      · rintro ⟨member, some_⟩
        exact ⟨(agree x some_).mpr member, some_⟩
    rw [only xs, only ys, positions]

@[simp] theorem length_u32Bytes (v : UInt32) : (u32Bytes v).length = 4 := length_leBytes 4 _

/-- A member of a structure that lies at `ptr`. -/
theorem u32At_member {buf rest : List Byte} {ptr i : Nat} {v : UInt32} {members : List UInt32}
    (here : buf.drop ptr = members.flatMap u32Bytes ++ rest) (member : members[i]? = some v) :
    u32At buf (ptr + 4 * i) = v := by
  induction i generalizing ptr members with
  | zero =>
    cases members with
    | nil => cases member
    | cons w others =>
      have same : w = v := by simpa using member
      subst w
      have small : v.toNat % 256 ^ 4 = v.toNat := Nat.mod_eq_of_lt v.toNat_lt
      rw [u32At, Nat.mul_zero, Nat.add_zero, here, List.flatMap_cons, List.append_assoc,
        List.take_left' (length_u32Bytes v), u32Bytes, leValue_leBytes, small, UInt32.ofNat_toNat]
  | succ i ih =>
    cases members with
    | nil => cases member
    | cons w others =>
      have next : buf.drop (ptr + 4) = others.flatMap u32Bytes ++ rest := by
        rw [← List.drop_drop, here, List.flatMap_cons, List.append_assoc,
          List.drop_left' (length_u32Bytes w)]
      have shifted : ptr + 4 * (i + 1) = ptr + 4 + 4 * i := by omega
      rw [shifted]
      exact ih next (by simpa using member)

/-- The events with the offsets at which they start. -/
def placed : Nat → List Event → List (Nat × Event)
  | _, [] => []
  | offset, e :: rest => (offset, e) :: placed (offset + e.bytes.length) rest

def Batch.offsets (b : Batch) : List Nat := (placed 0 b.events).map Prod.fst

/-- What should be printed for an event. -/
def Event.shown (e : Event) : Option Displayed :=
  if e.wd > 0 ∧ e.name ≠ [] then some (.of e.wd e.mask e.cookie (cstr e.name)) else none

/-- What should be printed for the events of a batch, with the places where they lie. -/
def Batch.shown (b : Batch) : List (Nat × Displayed) :=
  (placed 0 b.events).filterMap fun (offset, e) => e.shown.map (offset, ·)

theorem placed_split {base offset : Nat} {e : Event} {events : List Event}
    (h : (offset, e) ∈ placed base events) :
    ∃ before behind, events = before ++ e :: behind ∧
      offset = base + (before.flatMap Event.bytes).length := by
  induction events generalizing base with
  | nil => cases h
  | cons first rest ih =>
    rcases List.mem_cons.mp h with here | later
    · obtain ⟨rfl, rfl⟩ := Prod.mk.inj here
      exact ⟨[], rest, rfl, rfl⟩
    · obtain ⟨before, behind, rfl, rfl⟩ := ih later
      refine ⟨first :: before, behind, rfl, ?_⟩
      rw [List.flatMap_cons, List.length_append]
      omega

theorem Batch.buffer_eq (b : Batch) :
    b.buffer = b.bytes ++ List.replicate (BUF_LEN - b.bytes.length) 0 := by
  rw [Batch.buffer, overwrite, List.drop_replicate]

/-- From the start of an event on the buffer holds the event. -/
theorem Batch.drop_placed (b : Batch) {offset : Nat} {e : Event}
    (h : (offset, e) ∈ placed 0 b.events) :
    (∃ rest, b.buffer.drop offset = e.bytes ++ rest) ∧ offset + e.bytes.length ≤ BUF_LEN := by
  obtain ⟨before, behind, split, rfl⟩ := placed_split h
  have bytes : b.bytes = before.flatMap Event.bytes ++ (e.bytes ++ behind.flatMap Event.bytes) := by
    rw [Batch.bytes, split, List.flatMap_append, List.flatMap_cons]
  constructor
  · refine ⟨behind.flatMap Event.bytes ++ List.replicate (BUF_LEN - b.bytes.length) 0, ?_⟩
    rw [b.buffer_eq, Nat.zero_add, bytes, List.append_assoc, List.drop_left' rfl, List.append_assoc]
  · have fits := b.fits
    rw [← Batch.bytes, bytes] at fits
    simp only [List.length_append] at fits
    omega

@[simp] theorem Event.length_header (e : Event) : e.header.length = EVENT_SIZE := by
  simp [Event.header, Event.members, EVENT_SIZE]

theorem Event.length_bytes (e : Event) : e.bytes.length = EVENT_SIZE + e.name.length := by
  rw [Event.bytes, List.length_append, e.length_header]

/-- The string of a block that holds a NUL ends inside it. -/
theorem cstr_append {block : List Byte} (terminated : 0 ∈ block) (rest : List Byte) :
    cstr (block ++ rest) = cstr block := by
  obtain ⟨tail, split⟩ := cstr_split terminated
  have clean := cstr_clean block
  have whole := cstr_terminated clean (tail ++ rest)
  rw [← List.cons_append, ← List.append_assoc, ← split] at whole
  exact whole

/-- At the start of an event `displayAllEvent` prints what the event says. -/
theorem Batch.display_placed (b : Batch) {offset : Nat} {e : Event}
    (h : (offset, e) ∈ placed 0 b.events) : displayAllEvent b.buffer offset = e.shown := by
  obtain ⟨⟨rest, here⟩, inside⟩ := b.drop_placed h
  have head : b.buffer.drop offset = e.members.flatMap u32Bytes ++ (e.name ++ rest) := by
    rw [here, Event.bytes, Event.header, List.append_assoc]
  have wd : u32At b.buffer offset = e.wd.toUInt32 := u32At_member (i := 0) head rfl
  have mask : u32At b.buffer (offset + 4) = e.mask := u32At_member (i := 1) head rfl
  have cookie : u32At b.buffer (offset + 8) = e.cookie := u32At_member (i := 2) head rfl
  have len : u32At b.buffer (offset + 12) = e.len := u32At_member (i := 3) head rfl
  have name : b.buffer.drop (offset + EVENT_SIZE) = e.name ++ rest := by
    rw [← List.drop_drop, here, Event.bytes, List.append_assoc, List.drop_left' e.length_header]
  have named : e.len > 0 ↔ e.name ≠ [] := by
    rw [e.length_bytes] at inside
    have small : e.name.length < 2 ^ 32 := by
      simp only [BUF_LEN, STRIDE, EVENT_SIZE, NAME_MAX] at inside
      omega
    have value : e.len.toNat = e.name.length := by
      rw [Event.len, UInt32.toNat_ofNat_of_lt' small]
    rw [gt_iff_lt, UInt32.lt_iff_toNat_lt, value]
    exact List.length_pos_iff
  simp only [displayAllEvent, wd, mask, cookie, len, name, named, Event.shown,
    Int32.toInt32_toUInt32]
  split
  · rename_i visible
    rw [cstr_append (e.terminated visible.2)]
  · rfl

theorem Batch.shown_eq (b : Batch) : b.shown = displays b.buffer b.offsets := by
  rw [Batch.shown, displays, Batch.offsets, List.filterMap_map]
  apply List.filterMap_congr
  rintro ⟨offset, e⟩ member
  simp only [Function.comp_apply, b.display_placed member]

theorem placed_increasing (base : Nat) (events : List Event) :
    ((placed base events).map Prod.fst).Pairwise (· < ·) ∧
      ∀ offset ∈ (placed base events).map Prod.fst, base ≤ offset := by
  induction events generalizing base with
  | nil => simp [placed]
  | cons e rest ih =>
    obtain ⟨increasing, above⟩ := ih (base + e.bytes.length)
    have positive : 0 < e.bytes.length := by
      rw [e.length_bytes, EVENT_SIZE]
      omega
    simp only [placed, List.map_cons, List.pairwise_cons]
    refine ⟨⟨?_, increasing⟩, ?_⟩
    · intro offset member
      have := above offset member
      omega
    · intro offset member
      rcases List.mem_cons.mp member with rfl | later
      · exact Nat.le_refl _
      · have := above offset later
        omega

/-- Every event that is to be shown starts at a multiple of the stride, and at no multiple
of the stride that is not the start of an event stand bytes that look like one. -/
def Aligned (b : Batch) : Prop :=
  (∀ offset e, (offset, e) ∈ placed 0 b.events → e.shown ≠ none → STRIDE ∣ offset) ∧
  ∀ k < 10, displayAllEvent b.buffer (k * STRIDE) ≠ none → k * STRIDE ∈ b.offsets

theorem displays_eq_iff (b : Batch) :
    displays b.buffer (walk (BUF_LEN + 1) 0) = b.shown ↔ Aligned b := by
  have strides : (walk (BUF_LEN + 1) 0).Pairwise (· < ·) := by
    rw [walk_all]
    decide
  have starts : b.offsets.Pairwise (· < ·) := (placed_increasing 0 b.events).1
  rw [b.shown_eq, displays, displays, selections_eq_iff _ strides starts]
  have visited (x : Nat) : x ∈ walk (BUF_LEN + 1) 0 ↔ ∃ k < 10, x = k * STRIDE := by
    rw [walk_all, List.mem_map]
    constructor
    · rintro ⟨k, member, rfl⟩
      exact ⟨k, List.mem_range.mp member, rfl⟩
    · rintro ⟨k, less, rfl⟩
      exact ⟨k, List.mem_range.mpr less, rfl⟩
  constructor
  · intro agree
    constructor
    · intro offset e member some_
      have start : offset ∈ b.offsets := List.mem_map_of_mem (f := Prod.fst) member
      rw [← b.display_placed member] at some_
      obtain ⟨k, -, rfl⟩ := (visited offset).mp ((agree offset some_).mpr start)
      exact Nat.dvd_mul_left STRIDE k
    · intro k less some_
      exact (agree _ some_).mp ((visited _).mpr ⟨k, less, rfl⟩)
  · rintro ⟨starts, others⟩ x some_
    constructor
    · intro member
      obtain ⟨k, less, rfl⟩ := (visited x).mp member
      exact others k less some_
    · intro member
      obtain ⟨⟨offset, e⟩, here, rfl⟩ := List.mem_map.mp member
      rw [b.display_placed here] at some_
      obtain ⟨k, rfl⟩ := starts offset e here some_
      have inside := (b.drop_placed here).2
      rw [e.length_bytes] at inside
      refine (visited _).mpr ⟨k, ?_, Nat.mul_comm _ _⟩
      simp only [BUF_LEN, STRIDE, EVENT_SIZE, NAME_MAX] at inside
      omega

/-- The events start at the multiples of the stride, `n` of them, exactly when there are `n`
and all but the last have the largest size. -/
theorem placed_strides_iff (base n : Nat) (events : List Event) :
    (placed base events).map Prod.fst = (List.range n).map (fun k => base + k * STRIDE) ↔
      events.length = n ∧ ∀ e ∈ events.dropLast, e.bytes.length = STRIDE := by
  induction events generalizing base n with
  | nil =>
    constructor
    · intro same
      have size := congrArg List.length same
      exact ⟨by simpa [placed] using size, by simp⟩
    · rintro ⟨rfl, -⟩
      rfl
  | cons e rest ih =>
    cases n with
    | zero => simp [placed]
    | succ m =>
      have tail : (placed base (e :: rest)).map Prod.fst =
            (List.range (m + 1)).map (fun k => base + k * STRIDE) ↔
          (placed (base + e.bytes.length) rest).map Prod.fst =
            (List.range m).map (fun k => base + STRIDE + k * STRIDE) := by
        have shifted (k : Nat) : base + (k + 1) * STRIDE = base + STRIDE + k * STRIDE := by
          rw [Nat.succ_mul]
          omega
        simp [placed, List.range_succ_eq_map, Function.comp_def, shifted]
      rw [tail]
      cases rest with
      | nil =>
        have none : placed (base + e.bytes.length) [] = placed (base + STRIDE) [] := rfl
        rw [none, ih]
        simp [eq_comm]
      | cons second others =>
        rw [List.dropLast_cons_of_ne_nil (List.cons_ne_nil second others)]
        by_cases full : e.bytes.length = STRIDE
        · rw [full, ih]
          simp [full]
        · constructor
          · intro same
            cases m with
            | zero => simp [placed] at same
            | succ m =>
              simp only [placed, List.map_cons, List.range_succ_eq_map, List.cons.injEq] at same
              omega
          · rintro ⟨-, all⟩
            exact absurd (all e List.mem_cons_self) full

/-- For every sequence of reads the loop prints the events that are to be shown, each once
and in order and nothing else, exactly when all batches are aligned. Its calls are made for
the events alone exactly when there are ten events, the first nine of the largest size. -/
theorem loop_shows_iff_aligned (batches : List Batch) :
    (readLoop (List.replicate BUF_LEN 0) (batches.map Batch.bytes) = batches.map Batch.shown ↔
      ∀ b ∈ batches, Aligned b) ∧
    ∀ b ∈ batches, walk (BUF_LEN + 1) 0 = b.offsets ↔
      b.events.length = 10 ∧ ∀ e ∈ b.events.dropLast, e.bytes.length = STRIDE := by
  constructor
  · rw [readLoop_batches, List.map_inj_left]
    constructor
    · intro same b member
      exact (displays_eq_iff b).mp (same b member)
    · intro aligned b member
      exact (displays_eq_iff b).mpr (aligned b member)
  · intro b _
    have strides := placed_strides_iff 0 10 b.events
    simp only [Nat.zero_add] at strides
    rw [walk_all, ← strides]
    exact eq_comm

/-- A file is created and closed: two events with the name `a` in 16 bytes. -/
private def createThenClose : Batch where
  events :=
    [⟨1, 0x100, 0, 97 :: List.replicate 15 0, by decide⟩,
      ⟨1, 0x8, 0, 97 :: List.replicate 15 0, by decide⟩]
  fits := by decide

/-- Only the first one is printed: the walk goes from offset 0 to 272, behind both. -/
theorem second_event_is_skipped :
    ∃ b : Batch, b.events.map (fun e => (e.wd, e.mask, e.name.length)) =
        [(1, 0x100, 16), (1, 0x8, 16)] ∧
      readLoop (List.replicate BUF_LEN 0) [b.bytes] ≠ [b.shown] ∧
      walk (BUF_LEN + 1) 0 ≠ b.offsets := by
  refine ⟨createThenClose, by decide, ?_, by decide⟩
  intro same
  have shown : displays createThenClose.buffer (walk (BUF_LEN + 1) 0) = createThenClose.shown := by
    have batches := readLoop_batches [createThenClose]
    rw [List.map_singleton, same, List.map_singleton] at batches
    exact (List.cons.inj batches).1.symm
  have start := ((displays_eq_iff _).mp shown).1 32 ⟨1, 0x8, 0, 97 :: List.replicate 15 0, by decide⟩
    (by simp [placed, createThenClose, Event.bytes, EVENT_SIZE]) (by decide)
  exact absurd start (by decide)

end FileNotify
