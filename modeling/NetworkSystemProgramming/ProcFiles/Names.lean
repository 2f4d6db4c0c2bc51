import NetworkSystemProgramming.Shell.Tokens

/-!
# Names in /proc

What `hw3_part1.c` and `hw3_part3.c` find in a directory, in the order of `readdir`, and
the paths that they build from it. Both take a name for a number if `atoi` is not 0.
-/

namespace ProcFiles

open ByteBuffers Texts
open Shell (isDelim)

/-- An entry of a directory of numbers, which begin at `least`. -/
inductive Entry (least : Nat) where
  | number (n : Nat) (low : least ≤ n) (int : n < 2 ^ 31)
  | other (name : List Byte) (noNumber : atoi name = 0)
    (start : name.head?.any isdigit = false)

namespace Entry
variable {least : Nat}

/-- `d_name`. -/
def name : Entry least → List Byte
  | number n _ _ => decimal n
  | other name _ _ => name

def number? : Entry least → Option Nat
  | number n _ _ => some n
  | other _ _ _ => none

end Entry

/-- The numeric entries of a listing. -/
def numbers {least : Nat} (listing : List (Entry least)) : List Nat :=
  listing.filterMap Entry.number?

theorem numbers_number {least n : Nat} (low : least ≤ n) (int : n < 2 ^ 31)
    (listing : List (Entry least)) :
    numbers (.number n low int :: listing) = n :: numbers listing := rfl

/-- `char path[100] = "/proc/"`, with the name and what stands behind it appended. -/
def procPath (dName behind : List Byte) : Option (Buffer 100) :=
  ((Buffer.ofString 100 (ascii "/proc/") (by decide)).strcat dName).bind (·.strcat behind)

/-! ## Numbers as names -/

section
variable {n : Nat}

theorem atoi_number_ne_zero (low : 1 ≤ n) (int : n < 2 ^ 31) : atoi (decimal n) ≠ 0 := by
  rw [atoi_decimal int]
  omega

theorem decimal_word (n : Nat) : ∀ c ∈ decimal n, isDelim c = false ∧ c ≠ 0 := by
  intro c member
  obtain ⟨low, high⟩ := isdigit_iff.mp (decimal_digit member)
  have other : ∀ m < 48, c ≠ UInt8.ofNat m := by
    rintro m small rfl
    rw [UInt8.toNat_ofNat', Nat.mod_eq_of_lt (by omega)] at low
    omega
  have blank := other 32 (by omega)
  have tab := other 9 (by omega)
  have line : c ≠ newline := other 10 (by omega)
  refine ⟨?_, other 0 (by omega)⟩
  simp only [isDelim, Bool.or_eq_false_iff, decide_eq_false_iff_not]
  exact ⟨⟨blank, tab⟩, line⟩

theorem procPath_holds (int : n < 2 ^ 31) {behind : List Byte} (clean : 0 ∉ behind)
    (short : behind.length ≤ 10) :
    ∃ path, procPath (decimal n) behind = some path ∧
      path.Holds (ascii "/proc/" ++ decimal n ++ behind) := by
  have digits := decimal_length int
  have text : (ascii "/proc/").length = 6 := by decide
  have start : (Buffer.ofString 100 (ascii "/proc/") (by decide)).Holds (ascii "/proc/") :=
    Buffer.holds_padded (by decide) (by decide) rfl
  obtain ⟨path, named, holds⟩ := Buffer.strcat_holds start (decimal_clean n) (by omega)
  obtain ⟨path', whole, holds'⟩ := Buffer.strcat_holds holds clean (by
    rw [List.length_append]
    omega)
  exact ⟨path', by rw [procPath, named, Option.bind_some, whole], holds'⟩

end

/-- A listing with one process. -/
def exampleListing : List (Entry 1) := [.number 42 (by decide) (by decide)]

end ProcFiles
