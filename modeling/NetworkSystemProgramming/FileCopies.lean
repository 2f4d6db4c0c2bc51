import Mathlib.Algebra.Group.Nat.Defs
import Mathlib.Algebra.Group.Int.Defs
import Mathlib.Data.List.TakeDrop
import NetworkSystemProgramming.ByteBuffers

/-!
# Copying a file

`hw1-2.c` reads a file into one buffer and writes the buffer out; `49-1.c` maps both files
and copies from one mapping to the other. Several names may stand for one file, so the two
arguments may be one file, and the copy is truncated before it is written.
-/

namespace FileCopies

open ByteBuffers

/-- What one `read` or `write` transfers at most. -/
def MAX_RW_COUNT : Nat := 0x7ffff000

/-- The names of a file system, and the content of each file. -/
structure Files (N : Type) where
  inode : N → Option Nat
  content : Nat → List Byte
  fresh : Nat
  below : ∀ name i, inode name = some i → i < fresh

variable {N : Type} [DecidableEq N]

namespace Files
variable (f : Files N)

def text (name : N) : Option (List Byte) := (f.inode name).map f.content

def write (i : Nat) (bytes : List Byte) : Files N :=
  { f with content := Function.update f.content i bytes }

/-- A new empty file. -/
def add (name : N) : Files N where
  inode := Function.update f.inode name (some f.fresh)
  content := Function.update f.content f.fresh []
  fresh := f.fresh + 1
  below := by
    intro other i named
    by_cases same : other = name
    · rw [same, Function.update_self] at named
      cases named
      exact Nat.lt_succ_self _
    · rw [Function.update_of_ne same] at named
      exact Nat.lt_succ_of_lt (f.below other i named)

/-- The file of a name and the file system after an `open` with O_CREAT. -/
def creat (name : N) : Nat × Files N :=
  match f.inode name with
  | some i => (i, f)
  | none => (f.fresh, f.add name)

/-- `open` with O_CREAT and O_TRUNC. -/
def creatTrunc (name : N) : Nat × Files N :=
  ((f.creat name).1, (f.creat name).2.write (f.creat name).1 [])

end Files

inductive Call where
  | open1
  | lseek
  | stat
  | mmap
  | close1
  | open2
  | ftruncate
  | mmap1
  | read
  | close2
  | open3
  | write
  | close3
  deriving DecidableEq

/-- The calls that fail, and the bytes that the disk still has room for. -/
structure Kernel where
  fails : Call → Bool
  room : Nat

/-- Nothing fails but for want of room. -/
def Kernel.Calm (k : Kernel) : Prop := ∀ call, k.fails call = false

/-- The message before `exit(1)`, or how the program ends otherwise. -/
inductive Exit where
  | success
  | openError
  | lseekError
  | closeError
  | readError
  | writeError
  | statError
  | ftruncateError
  /-- The mapping is not there. -/
  | segmentationFault
  deriving DecidableEq

/-- The conversion of an `off_t` to an `int`. -/
def toInt (n : Int) : Int := n.bmod (2 ^ 32)

/-- `hw1-2.c` behind the first `read`. -/
def writeOut (k : Kernel) (dst : N) (buf : List Byte) (buf_size : Nat) (f : Files N) :
    Exit × Files N :=
  if k.fails .close2 then (.closeError, f)
  else if k.fails .open3 then (.openError, f)
  else
    let (j, f) := f.creatTrunc dst
    if k.fails .write ∨ k.room = 0 ∧ buf_size ≠ 0 then (.writeError, f)
    else
      let f := f.write j (buf.take (min k.room (min buf_size MAX_RW_COUNT)))
      if k.fails .close3 then (.closeError, f) else (.success, f)

/-- `hw1-2.c`. A `read` fills the buffer as far as one call transfers. -/
def copy (k : Kernel) (src dst : N) (f : Files N) : Exit × Files N :=
  if k.fails .open1 then (.openError, f)
  else
    let (i, f) := f.creat src
    let buf_size := toInt (f.content i).length
    if k.fails .lseek ∨ buf_size < 0 then (.lseekError, f)
    else if k.fails .close1 then (.closeError, f)
    else if k.fails .open2 then (.openError, f)
    else if k.fails .read then (.readError, f)
    else writeOut k dst ((f.content i).take (min buf_size.toNat MAX_RW_COUNT)) buf_size.toNat f

/-- `49-1.c`. A mapping that fails is MAP_FAILED, which is not the NULL of the test; one of
no bytes fails, and then nothing is copied either. -/
def mapCopy (k : Kernel) (src dst : N) (f : Files N) : Exit × Files N :=
  match f.inode src with
  | none => (.openError, f)
  | some i =>
    if k.fails .open1 then (.openError, f)
    else if k.fails .stat then (.statError, f)
    else
      let size := (f.content i).length
      if k.fails .open2 then (.openError, f)
      else
        let (j, f) := f.creatTrunc dst
        if k.fails .ftruncate then (.ftruncateError, f)
        else
          let f := f.write j (List.replicate size 0)
          if (k.fails .mmap ∨ k.fails .mmap1) ∧ size ≠ 0 then (.segmentationFault, f)
          -- the source is mapped too, so it is read as it is now
          else (.success, f.write j (f.content i))

/-! ## The file system -/

section
variable {f g : Files N} {name other dst : N} {i j : Nat}

omit [DecidableEq N] in
theorem write_write (i : Nat) (first second : List Byte) :
    (f.write i first).write i second = f.write i second := by
  simp [Files.write]

omit [DecidableEq N] in
theorem text_write (named : f.inode name = some i) (bytes : List Byte) :
    (f.write i bytes).text name = some bytes := by
  simp [Files.text, Files.write, named]

theorem creat_some (named : f.inode name = some i) : f.creat name = (i, f) := by
  rw [Files.creat, named]

theorem creat_none (unnamed : f.inode name = none) : f.creat name = (f.fresh, f.add name) := by
  rw [Files.creat, unnamed]

/-- A name that is opened with O_CREAT has a file, and this has the content from before. -/
theorem creat_spec (f : Files N) (name : N) :
    (f.creat name).2.inode name = some (f.creat name).1 ∧
      (f.creat name).2.content (f.creat name).1 = (f.text name).getD [] := by
  cases named : f.inode name with
  | some i => simp [creat_some named, named, Files.text]
  | none => simp [creat_none named, named, Files.text, Files.add]

theorem creatTrunc_inode (f : Files N) (name : N) :
    (f.creatTrunc name).2.inode name = some (f.creatTrunc name).1 :=
  (creat_spec f name).1

/-- A file that is not that of `dst` is as it was. -/
structure Kept (f g : Files N) (dst other : N) (i : Nat) : Prop where
  named : g.inode other = some i
  same : g.content i = f.content i
  apart : g.inode dst ≠ some i

omit [DecidableEq N] in
theorem Kept.text (h : Kept f g dst other i) (named : f.inode other = some i) :
    g.text other = f.text other := by
  rw [Files.text, Files.text, h.named, named, Option.map_some, Option.map_some, h.same]

theorem Kept.creat (h : Kept f g dst other i) (name : N) :
    Kept f (g.creat name).2 dst other i := by
  cases known : g.inode name with
  | some j => rwa [creat_some known]
  | none =>
    have differs : other ≠ name := by
      rintro rfl
      rw [h.named] at known
      cases known
    have old : i ≠ g.fresh := Nat.ne_of_lt (g.below other i h.named)
    rw [creat_none known]
    refine ⟨?_, ?_, ?_⟩
    · simp only [Files.add, Function.update_of_ne differs, h.named]
    · simp only [Files.add, Function.update_of_ne old, h.same]
    · by_cases created : dst = name
      · simpa [Files.add, created] using old.symm
      · simpa [Files.add, created] using h.apart

omit [DecidableEq N] in
theorem Kept.write (h : Kept f g dst other i) (owner : g.inode dst = some j)
    (bytes : List Byte) : Kept f (g.write j bytes) dst other i := by
  have differs : i ≠ j := by
    rintro rfl
    exact h.apart owner
  exact ⟨h.named, by simp only [Files.write, Function.update_of_ne differs, h.same], h.apart⟩

theorem Kept.creatTrunc (h : Kept f g dst other i) : Kept f (g.creatTrunc dst).2 dst other i :=
  (h.creat dst).write (creat_spec g dst).1 []

end

/-! ## `hw1-2.c` -/

theorem toInt_nat {n : Nat} (small : n ≤ MAX_RW_COUNT) : toInt n = n := by
  rw [toInt, Int.bmod_eq_of_le]
  · omega
  · simp only [MAX_RW_COUNT] at small
    omega

theorem toInt_le (n : Nat) : (toInt n).toNat ≤ n := by
  rw [toInt, Int.bmod_def]
  split <;> omega

section
variable {k : Kernel} {src dst : N} {f : Files N}

/-- The source, which is created when it is missing. -/
def source (f : Files N) (src : N) : List Byte := (f.text src).getD []

theorem copy_calm (calm : k.Calm) : copy k src dst f =
    if toInt (source f src).length < 0 then (.lseekError, (f.creat src).2)
    else writeOut k dst
      ((source f src).take (min (toInt (source f src).length).toNat MAX_RW_COUNT))
      (toInt (source f src).length).toNat (f.creat src).2 := by
  have content : (f.creat src).2.content (f.creat src).1 = source f src := (creat_spec f src).2
  simp only [copy, calm _, content, Bool.false_eq_true, false_or, if_false]

theorem writeOut_calm (calm : k.Calm) (buf : List Byte) (buf_size : Nat) (g : Files N) :
    writeOut k dst buf buf_size g =
      if k.room = 0 ∧ buf_size ≠ 0 then (.writeError, (g.creatTrunc dst).2)
      else (.success, (g.creatTrunc dst).2.write (g.creatTrunc dst).1
        (buf.take (min k.room (min buf_size MAX_RW_COUNT)))) := by
  simp only [writeOut, calm _, Bool.false_eq_true, false_or, if_false]

theorem copy_exact (calm : k.Calm) :
    (copy k src dst f).1 = .success ∧ (copy k src dst f).2.text dst = some (source f src) ↔
      (source f src).length ≤ MAX_RW_COUNT ∧ (source f src).length ≤ k.room := by
  have shorter := toInt_le (source f src).length
  rw [copy_calm calm]
  by_cases negative : toInt (source f src).length < 0
  · rw [if_pos negative]
    constructor
    · rintro ⟨⟨⟩, -⟩
    · rintro ⟨small, -⟩
      rw [toInt_nat small] at negative
      omega
  · rw [if_neg negative, writeOut_calm calm]
    split
    · rename_i full
      constructor
      · rintro ⟨⟨⟩, -⟩
      · rintro ⟨small, fits⟩
        rw [toInt_nat small] at full
        omega
    · rw [text_write (creatTrunc_inode _ dst), List.take_take, Option.some.injEq,
        List.take_eq_self_iff]
      constructor
      · rintro ⟨-, all⟩
        omega
      · rintro ⟨small, fits⟩
        rw [toInt_nat small]
        exact ⟨rfl, by omega⟩

theorem writeOut_kept {other : N} {i : Nat} {g : Files N} (h : Kept f g dst other i)
    (buf : List Byte) (buf_size : Nat) :
    Kept f (writeOut k dst buf buf_size g).2 dst other i := by
  have truncated := h.creatTrunc
  have written := truncated.write (creatTrunc_inode g dst)
  unfold writeOut
  split
  · exact h
  · split
    · exact h
    · dsimp only
      split
      · exact truncated
      · split
        · exact written _
        · exact written _

theorem copy_kept {other : N} {i : Nat} (named : f.inode other = some i)
    (apart : f.inode dst ≠ some i) : Kept f (copy k src dst f).2 dst other i := by
  have start : Kept f f dst other i := ⟨named, rfl, apart⟩
  have opened := start.creat src
  unfold copy
  split
  · exact start
  · dsimp only
    split
    · exact opened
    · split
      · exact opened
      · split
        · exact opened
        · split
          · exact opened
          · exact writeOut_kept opened _ _

/-- When no call fails, the copy has the content of the source exactly when one `read` and one
`write` can transfer it, also when both names stand for one file. Whatever fails, no other
file changes. -/
theorem copy_exact_iff (k : Kernel) (src dst : N) (f : Files N) :
    (k.Calm →
      ((copy k src dst f).1 = .success ∧ (copy k src dst f).2.text dst = some (source f src) ↔
        (source f src).length ≤ MAX_RW_COUNT ∧ (source f src).length ≤ k.room)) ∧
    ∀ other i, f.inode other = some i → f.inode dst ≠ some i →
      (copy k src dst f).2.text other = f.text other :=
  ⟨copy_exact, fun _ _ named apart => (copy_kept named apart).text named⟩

/-- One file with the names 0 and 1. -/
private def twoNames : Files Nat where
  inode name := if name < 2 then some 0 else none
  content _ := [104, 105]
  fresh := 1
  below name i named := by
    split at named
    · cases named
      exact Nat.zero_lt_one
    · cases named

private def emptyDisk : Kernel := ⟨fun _ => false, 100⟩

/-- A file with two names is copied onto itself. -/
theorem copied_onto_itself : (copy emptyDisk 0 1 twoNames).1 = .success ∧
    (copy emptyDisk 0 1 twoNames).2.text 1 = some [104, 105] :=
  ((copy_exact_iff emptyDisk 0 1 twoNames).1 fun _ => rfl).mpr (by decide)

/-! ## `49-1.c` -/

theorem mapCopy_calm (dst : N) (calm : k.Calm) {i : Nat} (named : f.inode src = some i) :
    mapCopy k src dst f = (.success,
      (f.creatTrunc dst).2.write (f.creatTrunc dst).1
        (if f.inode dst = some i then List.replicate (f.content i).length 0 else f.content i)) := by
  simp only [mapCopy, named, calm _, Bool.false_eq_true, if_false, false_or, false_and]
  rw [write_write]
  by_cases aliased : f.inode dst = some i
  · have same : (f.creatTrunc dst).1 = i := by
      simp [Files.creatTrunc, creat_some aliased]
    simp [aliased, same, Files.write]
  · have kept := (Kept.mk named rfl aliased : Kept f f dst src i).creatTrunc.write
      (creatTrunc_inode f dst) (List.replicate (f.content i).length 0)
    rw [kept.same, if_neg aliased]

theorem mapCopy_missing (missing : f.inode src = none) :
    mapCopy k src dst f = (.openError, f) := by
  rw [mapCopy, missing]

/-- The mapping of a file that is copied onto itself shows zeros after the truncation. -/
theorem mapCopy_exact (calm : k.Calm) :
    (mapCopy k src dst f).1 = .success ∧ (mapCopy k src dst f).2.text dst = f.text src ↔
      ∃ i, f.inode src = some i ∧
        (f.inode dst = some i → f.content i = List.replicate (f.content i).length 0) := by
  cases named : f.inode src with
  | none =>
    rw [mapCopy_missing named]
    simp
  | some i =>
    rw [mapCopy_calm dst calm named, text_write (creatTrunc_inode f dst)]
    have text : f.text src = some (f.content i) := by simp [Files.text, named]
    simp only [text, Option.some.injEq, true_and]
    constructor
    · intro same
      refine ⟨i, rfl, fun aliased => ?_⟩
      rw [if_pos aliased] at same
      exact same.symm
    · rintro ⟨_, rfl, zeros⟩
      split
      · rename_i aliased
        exact (zeros aliased).symm
      · rfl

/-- What `hw1-2.c` writes out is never more than one `write` transfers. -/
theorem copy_bounded (calm : k.Calm) (done : (copy k src dst f).1 = .success) :
    ∃ bytes, (copy k src dst f).2.text dst = some bytes ∧ bytes.length ≤ MAX_RW_COUNT := by
  rw [copy_calm calm] at done ⊢
  split at done
  · cases done
  · rename_i nonneg
    rw [if_neg nonneg] at *
    rw [writeOut_calm calm] at done ⊢
    split at done
    · cases done
    · rename_i room
      rw [if_neg room]
      refine ⟨_, text_write (creatTrunc_inode _ dst) _, ?_⟩
      rw [List.length_take, List.length_take]
      omega

/-- The two programs do the same exactly when the source is there, one `write` transfers it,
and it is another file than the copy or all zeros. -/
theorem copies_agree_iff (calm : k.Calm) (room : (source f src).length ≤ k.room) :
    copy k src dst f = mapCopy k src dst f ↔
      (source f src).length ≤ MAX_RW_COUNT ∧ ∃ i, f.inode src = some i ∧
        (f.inode dst = some i → f.content i = List.replicate (f.content i).length 0) := by
  have exact_ : (copy k src dst f).1 = .success ∧
      (copy k src dst f).2.text dst = some (source f src) ↔
        (source f src).length ≤ MAX_RW_COUNT ∧ (source f src).length ≤ k.room := copy_exact calm
  cases named : f.inode src with
  | none =>
    have empty : source f src = [] := by simp [source, Files.text, named]
    rw [empty] at exact_
    have done := (exact_.mpr ⟨Nat.zero_le _, Nat.zero_le _⟩).1
    rw [mapCopy_missing named]
    constructor
    · intro same
      rw [same] at done
      cases done
    · rintro ⟨-, i, ⟨⟩, -⟩
  | some i =>
    have content : source f src = f.content i := by simp [source, Files.text, named]
    have text : f.text src = some (source f src) := by simp [source, Files.text, named]
    constructor
    · intro same
      have mapped := mapCopy_calm dst calm named
      by_cases small : (source f src).length ≤ MAX_RW_COUNT
      · have copied := exact_.mpr ⟨small, room⟩
        rw [same, ← text] at copied
        exact ⟨small, named ▸ (mapCopy_exact calm).mp copied⟩
      · have done : (copy k src dst f).1 = .success := by rw [same, mapped]
        obtain ⟨bytes, there, short⟩ := copy_bounded calm done
        rw [same, mapped, text_write (creatTrunc_inode f dst), Option.some.injEq] at there
        have long : bytes.length = (f.content i).length := by
          rw [← there]
          split
          · exact List.length_replicate
          · rfl
        rw [content] at small
        omega
    · rintro ⟨small, _, ⟨rfl⟩, zeros⟩
      have nonneg : ¬ toInt (source f src).length < 0 := by
        rw [toInt_nat small]
        omega
      have enough : ¬ (k.room = 0 ∧ (source f src).length ≠ 0) := by omega
      rw [copy_calm calm, if_neg nonneg, writeOut_calm calm, toInt_nat small, Int.toNat_natCast,
        if_neg enough, mapCopy_calm dst calm named, creat_some named, List.take_take, content]
      rw [content] at small room
      rw [List.take_of_length_le (by omega)]
      split
      · rename_i aliased
        rw [← zeros aliased]
      · rfl

end

theorem copies_agree_on_new_name : copy emptyDisk 0 5 twoNames = mapCopy emptyDisk 0 5 twoNames :=
  (copies_agree_iff (fun _ => rfl) (by decide)).mpr ⟨by decide, 0, rfl, by rintro ⟨⟩⟩

/-- Onto itself `49-1.c` leaves zeros. -/
example : (mapCopy emptyDisk 0 1 twoNames).2.text 0 = some [0, 0] := by decide

end FileCopies
