import Mathlib.Algebra.Group.Nat.Defs
import Mathlib.Data.List.TakeWhile
import Mathlib.Tactic.Common

/-!
# Byte buffers and C strings

A buffer is the list of its bytes, and one of declared size carries that size.
A system call or a copy that stores a block at the start of a buffer leaves the
bytes behind the block as they were. A store outside a buffer is undefined in C:
it has no result here.
-/

namespace ByteBuffers

universe u

abbrev Byte := UInt8

def newline : Byte := 10

/-- Store a block at the start of a buffer; the bytes behind it stay. -/
def overwrite {A : Type u} (buf block : List A) : List A := block ++ buf.drop block.length

@[simp] theorem length_overwrite {A : Type u} {buf block : List A}
    (fits : block.length ≤ buf.length) : (overwrite buf block).length = buf.length := by
  simp only [overwrite, List.length_append, List.length_drop]
  omega

@[simp] theorem take_overwrite {A : Type u} (buf block : List A) :
    (overwrite buf block).take block.length = block := by
  simp [overwrite]

section
variable {A : Type u} {p : A → Bool} {s rest : List A}

theorem differ_of_absent [DecidableEq A] {b : A} (absent : b ∉ s) :
    ∀ a ∈ s, decide (a ≠ b) = true := by
  intro a member
  exact decide_eq_true (ne_of_mem_of_not_mem member absent)

/-- A run ends in front of the first element that does not belong to it. -/
theorem takeWhile_run (inside : ∀ a ∈ s, p a = true) (ends : ∀ a ∈ rest.head?, p a = false) :
    (s ++ rest).takeWhile p = s := by
  rw [List.takeWhile_append_of_pos inside, List.append_right_eq_self]
  cases rest with
  | nil => rfl
  | cons a rest => simp [ends a rfl]

theorem dropWhile_run (inside : ∀ a ∈ s, p a = true) (ends : ∀ a ∈ rest.head?, p a = false) :
    (s ++ rest).dropWhile p = rest := by
  rw [List.dropWhile_append_of_pos inside]
  cases rest with
  | nil => rfl
  | cons a rest => simp [ends a rfl]

end

/-- The string that starts at the buffer: its bytes up to the first NUL. -/
def cstr (buf : List Byte) : List Byte := buf.takeWhile (· ≠ 0)

theorem cstr_clean (buf : List Byte) : 0 ∉ cstr buf := by
  intro h
  have := List.mem_takeWhile_imp h
  simp at this

theorem cstr_of_clean {s : List Byte} (clean : 0 ∉ s) : cstr s = s := by
  rw [cstr, List.takeWhile_eq_self_iff]
  exact differ_of_absent clean

theorem cstr_append_nul (s tail : List Byte) : cstr (s ++ 0 :: tail) = cstr s := by
  induction s with
  | nil => simp [cstr]
  | cons c s ih =>
    by_cases zero : c = 0
    · simp [cstr, zero]
    · simpa [cstr, zero] using ih

theorem cstr_terminated {s : List Byte} (clean : 0 ∉ s) (tail : List Byte) :
    cstr (s ++ 0 :: tail) = s := by
  rw [cstr_append_nul, cstr_of_clean clean]

/-- A buffer with a NUL in it is its string, that NUL and what lies behind. -/
theorem cstr_split {buf : List Byte} (terminated : 0 ∈ buf) :
    ∃ tail, buf = cstr buf ++ 0 :: tail := by
  induction buf with
  | nil => cases terminated
  | cons c buf ih =>
    by_cases zero : c = 0
    · exact ⟨buf, by simp [cstr, zero]⟩
    · have later : 0 ∈ buf := by simpa [Ne.symm zero] using terminated
      obtain ⟨tail, split⟩ := ih later
      refine ⟨tail, ?_⟩
      have head : cstr (c :: buf) = c :: cstr buf := by simp [cstr, zero]
      rw [head, List.cons_append, ← split]

theorem cstr_append_clean {s : List Byte} (clean : 0 ∉ s) (tail : List Byte) :
    cstr (s ++ tail) = s ++ cstr tail :=
  List.takeWhile_append_of_pos (differ_of_absent clean)

/-- A string stored without its NUL ends where it should when a NUL was there before. -/
theorem cstr_overwrite_eq_iff {buf s : List Byte} (clean : 0 ∉ s) (room : s.length < buf.length) :
    cstr (overwrite buf s) = s ↔ buf[s.length]? = some 0 := by
  have behind : buf.drop s.length = buf[s.length] :: buf.drop (s.length + 1) :=
    List.drop_eq_getElem_cons room
  rw [overwrite, cstr_append_clean clean, List.append_right_eq_self, behind,
    List.getElem?_eq_getElem room, Option.some.injEq]
  by_cases zero : buf[s.length] = 0
  · simp [cstr, zero]
  · simp only [cstr, List.takeWhile_cons, ne_eq, zero, not_false_eq_true, decide_true, if_true,
      reduceCtorEq]

/-- The string at the start of a block, when its NUL lies inside the block. -/
def stringIn (block : List Byte) : Option (List Byte) :=
  if 0 ∈ block then some (cstr block) else none

theorem stringIn_terminated {s : List Byte} (clean : 0 ∉ s) (tail : List Byte) :
    stringIn (s ++ 0 :: tail) = some s := by
  rw [stringIn, if_pos (by simp), cstr_terminated clean]

theorem stringIn_eq_some_iff {block s : List Byte} (clean : 0 ∉ s) :
    stringIn block = some s ↔ s ++ [0] <+: block := by
  constructor
  · intro found
    obtain ⟨terminated, same⟩ := Option.ite_none_right_eq_some.mp found
    obtain ⟨tail, split⟩ := cstr_split terminated
    rw [Option.some.inj same] at split
    exact ⟨tail, by rw [split, List.append_assoc, List.singleton_append]⟩
  · rintro ⟨tail, rfl⟩
    rw [List.append_assoc, List.singleton_append]
    exact stringIn_terminated clean tail

/-- NUL bytes behind a block do not change its string. -/
theorem cstr_append_zeros (block : List Byte) (n : Nat) :
    cstr (block ++ List.replicate n 0) = cstr block := by
  induction block with
  | nil =>
    cases n with
    | zero => rfl
    | succ n => simp [cstr, List.replicate_succ]
  | cons c block ih =>
    by_cases zero : c = 0
    · simp [cstr, zero]
    · have head (rest : List Byte) : cstr (c :: rest) = c :: cstr rest := by simp [cstr, zero]
      rw [List.cons_append, head, head, ih]

/-- A string and NUL bytes up to `n`. -/
def padded (n : Nat) (s : List Byte) : List Byte := s ++ List.replicate (n - s.length) 0

@[simp] theorem length_padded {n : Nat} {s : List Byte} (fits : s.length ≤ n) :
    (padded n s).length = n := by
  simp only [padded, List.length_append, List.length_replicate]
  omega

theorem cstr_padded {n : Nat} {s : List Byte} (clean : 0 ∉ s) (room : s.length < n) :
    cstr (padded n s) = s := by
  have hn : n - s.length = (n - s.length - 1) + 1 := by omega
  rw [padded, hn, List.replicate_succ]
  exact cstr_terminated clean _

theorem stringIn_padded {n : Nat} {s : List Byte} (clean : 0 ∉ s) (room : s.length < n) :
    stringIn (padded n s) = some s := by
  have hn : n - s.length = (n - s.length - 1) + 1 := by omega
  rw [padded, hn, List.replicate_succ]
  exact stringIn_terminated clean _

/-- The terminating NUL is part of the padding. -/
theorem padded_terminated {n : Nat} {s : List Byte} (room : s.length < n) :
    padded n (s ++ [0]) = padded n s := by
  have hn : n - s.length = (n - (s ++ [0]).length) + 1 := by
    simp only [List.length_append, List.length_singleton]
    omega
  simp only [padded, hn, List.replicate_succ, List.append_assoc, List.singleton_append]

/-- `strcmp`, of which only the sign is used: bytes compare as unsigned numbers. -/
def strcmp (a b : List Byte) : Ordering := compare (cstr a) (cstr b)

theorem strcmp_eq_iff (a b : List Byte) : strcmp a b = .eq ↔ cstr a = cstr b :=
  Std.LawfulEqOrd.compare_eq_iff_eq

/-- `strcmp` byte by byte on the memory that the two pointers lead into; `none` when it
reads behind the end of either. -/
def strcmpMemory : List Byte → List Byte → Option Ordering
  | a :: as, b :: bs =>
    if a ≠ b then some (compare a b) else if a = 0 then some .eq else strcmpMemory as bs
  | _, _ => none

/-- Against a terminated string of `u.length` bytes no more than one byte further is read,
also where the other operand is not terminated. -/
theorem strcmpMemory_terminated {w u : List Byte} (clean : 0 ∉ u) (room : u.length < w.length)
    (behind behind' : List Byte) :
    strcmpMemory (w ++ behind) (u ++ 0 :: behind') = some (compare (cstr w) u) := by
  induction u generalizing w with
  | nil =>
    cases w with
    | nil => simp at room
    | cons c w =>
      by_cases zero : c = 0
      · simp [strcmpMemory, cstr, zero]
      · have above : compare c 0 = .gt := by
          rw [Std.compare_eq_gt]
          exact UInt8.pos_iff_ne_zero.mpr zero
        simp [strcmpMemory, cstr, zero, above]
  | cons b u ih =>
    cases w with
    | nil => simp at room
    | cons c w =>
      have nonzero : b ≠ 0 := by
        rintro rfl
        exact clean List.mem_cons_self
      have rest := ih (w := w) (fun h => clean (List.mem_cons_of_mem b h)) (by simpa using room)
      by_cases same : c = b
      · subst c
        have again : compare b b = .eq := Std.ReflOrd.compare_self
        have head : cstr (b :: w) = b :: cstr w := by simp [cstr, nonzero]
        rw [head, List.compare_cons_cons, again, Ordering.eq_then, ← rest]
        simp [strcmpMemory, nonzero]
      · have decided : strcmpMemory (c :: w ++ behind) (b :: u ++ 0 :: behind') =
            some (compare c b) := by
          simp [strcmpMemory, same]
        rw [decided]
        by_cases zero : c = 0
        · subst c
          have below : compare 0 b = .lt := by
            rw [Std.compare_eq_lt]
            exact UInt8.pos_iff_ne_zero.mpr nonzero
          simp [cstr, below]
        · have head : cstr (c :: w) = c :: cstr w := by simp [cstr, zero]
          have differs : compare c b ≠ .eq := fun h => same (Std.LawfulEqOrd.eq_of_compare h)
          rw [head, List.compare_cons_cons]
          cases order : compare c b with
          | eq => exact absurd order differs
          | lt => rfl
          | gt => rfl

/-- A number in `w` bytes, the least significant one first. -/
def leBytes : Nat → Nat → List Byte
  | 0, _ => []
  | w + 1, m => UInt8.ofNat m :: leBytes w (m / 256)

def leValue (bytes : List Byte) : Nat := bytes.foldr (fun b rest => b.toNat + 256 * rest) 0

@[simp] theorem length_leBytes (w m : Nat) : (leBytes w m).length = w := by
  induction w generalizing m with
  | zero => rfl
  | succ w ih => simp [leBytes, ih]

theorem leValue_leBytes (w m : Nat) : leValue (leBytes w m) = m % 256 ^ w := by
  induction w generalizing m with
  | zero => simp [leBytes, leValue, Nat.mod_one]
  | succ w ih =>
    have rest : leValue (leBytes w (m / 256)) = m / 256 % 256 ^ w := ih (m / 256)
    have low : (UInt8.ofNat m).toNat = m % 256 := UInt8.toNat_ofNat'
    simp only [leBytes, leValue, List.foldr_cons] at rest ⊢
    rw [rest, low, Nat.pow_succ', Nat.mod_mul]

/-- Bytes of one width are read back from their value. -/
theorem leValue_injective {a b : List Byte} (width : a.length = b.length)
    (h : leValue a = leValue b) : a = b := by
  induction a generalizing b with
  | nil =>
    cases b with
    | nil => rfl
    | cons y b => cases width
  | cons x a ih =>
    cases b with
    | nil => cases width
    | cons y b =>
      simp only [leValue, List.foldr_cons] at h
      have hx := x.toNat_lt
      have hy := y.toNat_lt
      have first : x = y := UInt8.toNat_inj.mp (by omega)
      have rest : leValue a = leValue b := by
        simp only [leValue]
        omega
      rw [first, ih (by simpa using width) rest]

/-- A buffer of `n` bytes. -/
structure Buffer (n : Nat) where
  bytes : List Byte
  size_eq : bytes.length = n
  deriving DecidableEq

namespace Buffer
variable {n : Nat}

@[ext] theorem ext {a b : Buffer n} (h : a.bytes = b.bytes) : a = b := by
  cases a
  cases b
  cases h
  rfl

/-- The buffer after `memset` to 0. -/
def zero (n : Nat) : Buffer n := ⟨List.replicate n 0, List.length_replicate⟩

/-- The buffer that holds `s` and NUL bytes behind it. -/
def ofString (n : Nat) (s : List Byte) (fits : s.length ≤ n) : Buffer n :=
  ⟨padded n s, length_padded fits⟩

/-- The string in the buffer. -/
def str (b : Buffer n) : List Byte := cstr b.bytes

/-- `b[i] = c`. -/
def store (b : Buffer n) (i : Nat) (c : Byte) : Option (Buffer n) :=
  if i < n then some ⟨b.bytes.set i c, by rw [List.length_set, b.size_eq]⟩ else none

/-- Copy a block to the start of the buffer. -/
def put (b : Buffer n) (block : List Byte) : Option (Buffer n) :=
  if fits : block.length ≤ n then
    some ⟨overwrite b.bytes block, by
      rw [length_overwrite (by rw [b.size_eq]; exact fits), b.size_eq]⟩
  else none

/-- The kernel copies at most the size that the caller gave. -/
def receive (b : Buffer n) (block : List Byte) : Buffer n :=
  ⟨overwrite b.bytes (block.take n), by
    rw [length_overwrite (by rw [b.size_eq]; exact List.length_take_le n block), b.size_eq]⟩

theorem str_length_lt {b : Buffer n} (terminated : 0 ∈ b.bytes) : b.str.length < n := by
  obtain ⟨tail, split⟩ := cstr_split terminated
  have size := congrArg List.length split
  rw [b.size_eq, List.length_append, List.length_cons] at size
  have : b.str.length = (cstr b.bytes).length := rfl
  omega

theorem put_fits (b : Buffer n) {block : List Byte} (fits : block.length ≤ n) :
    ∃ b', b.put block = some b' ∧ b'.bytes = overwrite b.bytes block :=
  ⟨_, by rw [put, dif_pos fits], rfl⟩

/-- A string is copied with its NUL. -/
theorem put_string (b : Buffer n) {s : List Byte} (clean : 0 ∉ s) (room : s.length < n) :
    ∃ b', b.put (s ++ [0]) = some b' ∧ b'.str = s := by
  have fits : (s ++ [0]).length ≤ n := by
    rw [List.length_append]
    exact room
  obtain ⟨b', put, bytes⟩ := b.put_fits fits
  refine ⟨b', put, ?_⟩
  rw [str, bytes, overwrite, List.append_assoc]
  exact cstr_terminated clean _

theorem receive_bytes (b : Buffer n) {block : List Byte} (fits : block.length ≤ n) :
    (b.receive block).bytes = overwrite b.bytes block := by
  simp only [receive, List.take_of_length_le fits]

/-- A block that fills the buffer replaces its content. -/
theorem receive_block (b c : Buffer n) (rest : List Byte) : b.receive (c.bytes ++ rest) = c := by
  apply Buffer.ext
  have taken : (c.bytes ++ rest).take n = c.bytes := List.take_left' c.size_eq
  simp [Buffer.receive, taken, overwrite, b.size_eq, c.size_eq]

theorem str_of_padded {b : Buffer n} {s : List Byte} (clean : 0 ∉ s) (room : s.length < n)
    (h : b.bytes = padded n s) : b.str = s := by
  rw [str, h, cstr_padded clean room]

/-- A zeroed buffer pads what it receives. -/
theorem receive_zero {s : List Byte} (fits : s.length ≤ n) :
    ((zero n).receive s).bytes = padded n s := by
  rw [receive_bytes _ fits]
  simp [overwrite, padded, zero]

/-- A zeroed buffer has room for a shorter string with its NUL. -/
theorem put_zero {s : List Byte} (room : s.length < n) :
    ∃ b, (zero n).put (s ++ [0]) = some b ∧ b.bytes = padded n s := by
  have fits : (s ++ [0]).length ≤ n := by
    rw [List.length_append]
    exact room
  obtain ⟨b, put, bytes⟩ := (zero n).put_fits fits
  refine ⟨b, put, ?_⟩
  rw [bytes, ← padded_terminated room]
  simp [overwrite, padded, zero]

/-- A loop that stores the bytes one after the other from index `i` on. -/
def storeFrom : Nat → List Byte → Buffer n → Option (Buffer n)
  | _, [], b => some b
  | i, c :: rest, b => (b.store i c).bind (storeFrom (i + 1) rest)

/-- The bytes around the stored block stay. -/
theorem storeFrom_bytes (i : Nat) (data : List Byte) (fits : i + data.length ≤ n)
    (b : Buffer n) : ∃ b', storeFrom i data b = some b' ∧
      b'.bytes = b.bytes.take i ++ (data ++ b.bytes.drop (i + data.length)) := by
  induction data generalizing i b with
  | nil => exact ⟨b, rfl, by simp⟩
  | cons c data ih =>
    simp only [List.length_cons] at fits
    have inside : i < n := by omega
    have held : i < b.bytes.length := by
      rw [b.size_eq]
      exact inside
    let b1 : Buffer n := ⟨b.bytes.set i c, by rw [List.length_set, b.size_eq]⟩
    have stored : b.store i c = some b1 := by simp [store, inside, b1]
    obtain ⟨b2, run, bytes⟩ := ih (i + 1) (by omega) b1
    refine ⟨b2, by rw [storeFrom, stored, Option.bind_some, run], ?_⟩
    have front : b1.bytes.take (i + 1) = b.bytes.take i ++ [c] := by
      have here : b1.bytes[i]? = some c := List.getElem?_set_self held
      rw [List.take_add_one, here, List.take_set_of_le (Nat.le_refl i)]
      rfl
    have back : b1.bytes.drop (i + 1 + data.length) = b.bytes.drop (i + (data.length + 1)) := by
      rw [List.drop_set_of_lt (by omega)]
      congr 1
      omega
    rw [bytes, front, back]
    simp

/-- A loop over the whole buffer leaves nothing of what it held. -/
theorem storeFrom_all {data : List Byte} (size : data.length = n) (b : Buffer n) :
    storeFrom 0 data b = some ⟨data, size⟩ := by
  obtain ⟨b', run, bytes⟩ := b.storeFrom_bytes 0 data (by omega)
  rw [run]
  congr 1
  apply Buffer.ext
  rw [bytes, List.drop_of_length_le (by rw [b.size_eq]; omega)]
  simp

/-- Stores behind what a zeroed buffer already holds append to it. -/
theorem storeFrom_padded (done data : List Byte) (fits : done.length + data.length ≤ n)
    (b : Buffer n) (hb : b.bytes = padded n done) :
    ∃ b', storeFrom done.length data b = some b' ∧ b'.bytes = padded n (done ++ data) := by
  induction data generalizing done b with
  | nil => exact ⟨b, rfl, by simpa using hb⟩
  | cons c data ih =>
    simp only [List.length_cons] at fits
    have inside : done.length < n := by omega
    let b1 : Buffer n := ⟨b.bytes.set done.length c, by rw [List.length_set, b.size_eq]⟩
    have h1 : b1.bytes = padded n (done ++ [c]) := by
      have hn : n - done.length = (n - (done.length + 1)) + 1 := by omega
      simp [b1, hb, padded, hn, List.replicate_succ]
    have stored : b.store done.length c = some b1 := by simp [store, inside, b1]
    have hlen : (done ++ [c]).length = done.length + 1 := by simp
    obtain ⟨b2, hb2, h2⟩ := ih (done ++ [c]) (by omega) b1 h1
    refine ⟨b2, ?_, by simpa using h2⟩
    rw [storeFrom, stored, Option.bind_some, ← hlen]
    exact hb2

theorem storeFrom_append (data more : List Byte) (i : Nat) (b : Buffer n) :
    storeFrom i (data ++ more) b =
      (storeFrom i data b).bind (storeFrom (i + data.length) more) := by
  induction data generalizing i b with
  | nil => rfl
  | cons c data ih =>
    rw [List.cons_append, storeFrom, storeFrom, Option.bind_assoc, List.length_cons,
      ← Nat.add_assoc, Nat.add_right_comm]
    congr 1
    funext b'
    exact ih (i + 1) b'

/-- The stores stay in the buffer if and only if the last one does. -/
theorem storeFrom_isSome_iff {data : List Byte} (nonempty : data ≠ []) (i : Nat) (b : Buffer n) :
    (storeFrom i data b).isSome ↔ i + data.length ≤ n := by
  constructor
  · intro stored
    obtain ⟨front, c, rfl⟩ : ∃ front c, data = front ++ [c] :=
      ⟨_, _, (List.dropLast_concat_getLast nonempty).symm⟩
    rw [storeFrom_append, Option.isSome_bind, Option.any_eq_true] at stored
    obtain ⟨b', -, last⟩ := stored
    rw [storeFrom, Option.isSome_bind, Option.any_eq_true] at last
    obtain ⟨b'', inside, -⟩ := last
    rw [store, Option.ite_none_right_eq_some] at inside
    rw [List.length_append, List.length_singleton]
    omega
  · intro fits
    obtain ⟨b', run, -⟩ := b.storeFrom_bytes i data fits
    rw [run]
    rfl

/-! ## Strings in buffers -/

def strcpy (b : Buffer n) (s : List Byte) : Option (Buffer n) := b.put (s ++ [0])

/-- `strcat` stores from the NUL of the string in the buffer on. -/
def strcat (b : Buffer n) (s : List Byte) : Option (Buffer n) :=
  b.storeFrom b.str.length (s ++ [0])

/-- The buffer starts with `s` and a NUL. -/
structure Holds (b : Buffer n) (s : List Byte) : Prop where
  clean : 0 ∉ s
  starts : s ++ [0] <+: b.bytes

variable {b : Buffer n} {s more : List Byte}

theorem Holds.str (h : b.Holds s) : b.str = s := by
  obtain ⟨tail, bytes⟩ := h.starts
  rw [Buffer.str, ← bytes, List.append_assoc]
  exact cstr_terminated h.clean tail

theorem Holds.room (h : b.Holds s) : s.length < n := by
  have size := h.starts.length_le
  rwa [List.length_append, List.length_singleton, b.size_eq] at size

theorem holds_padded (clean : 0 ∉ s) (room : s.length < n) (bytes : b.bytes = padded n s) :
    b.Holds s := by
  refine ⟨clean, List.replicate (n - (s ++ [0]).length) 0, ?_⟩
  rw [bytes, ← padded_terminated room, padded]

theorem strcpy_holds (b : Buffer n) (clean : 0 ∉ s) (room : s.length < n) :
    ∃ b', b.strcpy s = some b' ∧ b'.Holds s := by
  have fits : (s ++ [0]).length ≤ n := by
    rw [List.length_append]
    exact room
  obtain ⟨b', put, bytes⟩ := b.put_fits fits
  exact ⟨b', put, clean, by rw [bytes]; exact List.prefix_append _ _⟩

theorem strcpy_long (b : Buffer n) (long : n ≤ s.length) : b.strcpy s = none := by
  rw [strcpy, put, dif_neg]
  rw [List.length_append, List.length_singleton]
  omega

theorem strcat_holds (h : b.Holds s) (clean : 0 ∉ more) (room : s.length + more.length < n) :
    ∃ b', b.strcat more = some b' ∧ b'.Holds (s ++ more) := by
  have fits : s.length + (more ++ [0]).length ≤ n := by
    rw [List.length_append, List.length_singleton]
    omega
  obtain ⟨b', run, bytes⟩ := b.storeFrom_bytes s.length (more ++ [0]) fits
  refine ⟨b', by rw [strcat, h.str]; exact run, ?_, ?_⟩
  · rw [List.mem_append, not_or]
    exact ⟨h.clean, clean⟩
  · obtain ⟨tail, same⟩ := h.starts
    have front : b.bytes.take s.length = s := by
      rw [← same, List.append_assoc, List.take_left]
    rw [bytes, front, List.append_assoc]
    exact (List.prefix_append_right_inj s).mpr (List.prefix_append _ _)

end Buffer
end ByteBuffers
