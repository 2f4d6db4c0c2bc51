import Mathlib.Data.Nat.Digits.Lemmas
import NetworkSystemProgramming.ByteBuffers

/-!
# Numbers in texts

The texts of numbers, and the numbers that texts begin with, in the locale "C".
-/

namespace Texts

open ByteBuffers

def ascii (s : String) : List Byte := s.toUTF8.data.toList

theorem ascii_inj {a b : String} : ascii a = ascii b ↔ a = b := by
  constructor
  · intro same
    apply String.toByteArray_inj.mp
    apply ByteArray.ext
    exact Array.toList_inj.mp same
  · rintro rfl
    rfl

/-- `sprintf` with "%d". -/
def decimal (n : Nat) : List Byte := (Nat.toDigits 10 n).map fun c => UInt8.ofNat c.toNat

def isspace (c : Byte) : Bool := c = 32 || (9 ≤ c && c ≤ 13)

def isdigit (c : Byte) : Bool := 48 ≤ c && c ≤ 57

def leadingDigits (s : List Byte) : Int :=
  ((s.takeWhile isdigit).foldl (fun value c => 10 * value + (c.toNat - 48)) 0 : Nat)

/-- The integer that a text begins with behind white space, or 0. -/
def leadingInteger (s : List Byte) : Int :=
  match s.dropWhile isspace with
  | [] => 0
  | c :: rest => if c = 45 then - leadingDigits rest else if c = 43 then leadingDigits rest
    else leadingDigits (c :: rest)

/-- `strtol` stops at the ends of 64 bits, and `atoi` takes the low 32 bits of that. -/
def atoi (s : List Byte) : Int :=
  (max (-2 ^ 63) (min (leadingInteger s) (2 ^ 63 - 1))).bmod (2 ^ 32)

/-! ## Digits -/

section
variable {c : Byte} {n : Nat}

theorem isdigit_iff : isdigit c = true ↔ 48 ≤ c.toNat ∧ c.toNat ≤ 57 := by
  rw [isdigit, Bool.and_eq_true, decide_eq_true_eq, decide_eq_true_eq, UInt8.le_iff_toNat_le,
    UInt8.le_iff_toNat_le]
  rfl

/-- From the digits on there is no white space and no sign. -/
theorem plain_char (high : 48 ≤ c.toNat) : isspace c = false ∧ c ≠ 45 ∧ c ≠ 43 := by
  refine ⟨?_, ?_, ?_⟩
  · have above : ¬ c ≤ 13 := by
      have last : (13 : Byte).toNat = 13 := rfl
      rw [UInt8.le_iff_toNat_le, last]
      omega
    have noBlank : c ≠ 32 := by
      rintro rfl
      exact absurd high (by decide)
    simp [isspace, above, noBlank]
  · rintro rfl
    exact absurd high (by decide)
  · rintro rfl
    exact absurd high (by decide)

theorem digit_plain (digit : isdigit c = true) : isspace c = false ∧ c ≠ 45 ∧ c ≠ 43 :=
  plain_char (isdigit_iff.mp digit).1

/-- The characters of a number are stored as they are. -/
theorem digit_stored {d : Char} (digit : d ∈ Nat.toDigits 10 n) :
    (UInt8.ofNat d.toNat).toNat = d.toNat ∧ isdigit (UInt8.ofNat d.toNat) = true := by
  have isDigit := Nat.isDigit_of_mem_toDigits (by omega) (by omega) digit
  simp only [Char.isDigit, Bool.and_eq_true, decide_eq_true_eq, UInt32.le_iff_toNat_le] at isDigit
  have low : 48 ≤ d.toNat := isDigit.1
  have high : d.toNat ≤ 57 := isDigit.2
  have same : (UInt8.ofNat d.toNat).toNat = d.toNat := by
    rw [UInt8.toNat_ofNat', Nat.mod_eq_of_lt (by omega)]
  exact ⟨same, isdigit_iff.mpr (by omega)⟩

theorem decimal_digit (member : c ∈ decimal n) : isdigit c = true := by
  obtain ⟨d, digit, rfl⟩ := List.mem_map.mp member
  exact (digit_stored digit).2

theorem decimal_clean (n : Nat) : 0 ∉ decimal n := by
  intro nul
  exact absurd (decimal_digit nul) (by decide)

theorem decimal_ne_nil (n : Nat) : decimal n ≠ [] := by
  rw [decimal, ne_eq, List.map_eq_nil_iff]
  exact Nat.toDigits_ne_nil

theorem decimal_length (small : n < 2 ^ 31) : (decimal n).length ≤ 10 := by
  rw [decimal, List.length_map]
  apply (Nat.length_toDigits_le_iff (by omega) (by omega)).mpr
  omega

/-! ## Reading a number back -/

/-- The loop over the digits of a stored number is that over its characters. -/
theorem foldl_stored {digits : List Char}
    (stored : ∀ d ∈ digits, (UInt8.ofNat d.toNat).toNat = d.toNat) (value : Nat) :
    (digits.map fun d => UInt8.ofNat d.toNat).foldl (fun v c => 10 * v + (c.toNat - 48)) value =
      Nat.ofDigitChars 10 digits value := by
  induction digits generalizing value with
  | nil => rw [Nat.ofDigitChars_nil, List.map_nil, List.foldl_nil]
  | cons d digits ih =>
    rw [List.map_cons, List.foldl_cons, stored d List.mem_cons_self,
      ih fun e member => stored e (List.mem_cons_of_mem d member), Nat.ofDigitChars_cons]
    rfl

/-- A number is read back, up to what follows its digits. -/
theorem leadingInteger_decimal_append (n : Nat) {rest : List Byte}
    (ends : ∀ c ∈ rest.head?, isdigit c = false) : leadingInteger (decimal n ++ rest) = n := by
  have taken : (decimal n ++ rest).takeWhile isdigit = decimal n :=
    takeWhile_run (fun c member => decimal_digit member) ends
  have digits : leadingDigits (decimal n ++ rest) = n := by
    rw [leadingDigits, taken, decimal, foldl_stored fun d digit => (digit_stored digit).1,
      Nat.ofDigitChars_ten_toDigits]
  obtain ⟨c, more, same⟩ := List.exists_cons_of_ne_nil (decimal_ne_nil n)
  obtain ⟨noSpace, minus, plus⟩ :=
    digit_plain (decimal_digit (show c ∈ decimal n by rw [same]; exact List.mem_cons_self))
  rw [same, List.cons_append] at digits ⊢
  have kept : (c :: (more ++ rest)).dropWhile isspace = c :: (more ++ rest) :=
    List.dropWhile_cons_of_neg (by rw [noSpace]; exact Bool.false_ne_true)
  simp only [leadingInteger, kept, if_neg minus, if_neg plus, digits]

theorem leadingInteger_decimal (n : Nat) : leadingInteger (decimal n) = n := by
  have whole : leadingInteger (decimal n ++ []) = n := leadingInteger_decimal_append n (by simp)
  rwa [List.append_nil] at whole

/-- `atoi` reads the numbers of 31 bits back. -/
theorem atoi_decimal (int : n < 2 ^ 31) : atoi (decimal n) = n := by
  rw [atoi, leadingInteger_decimal, Int.min_eq_left (by omega), Int.max_eq_right (by omega),
    Int.bmod_eq_of_le (by omega) (by omega)]

/-- `atoi` reads the numbers of 32 bits back, when the result is taken as unsigned. -/
theorem atoi_decimal_unsigned (small : n < 2 ^ 32) : (atoi (decimal n)) % 2 ^ 32 = n := by
  have whole : max (-2 ^ 63) (min (n : Int) (2 ^ 63 - 1)) = n := by omega
  have modulus : ((2 ^ 32 : Nat) : Int) = 2 ^ 32 := rfl
  rw [atoi, leadingInteger_decimal, whole, ← modulus, Int.bmod_emod, modulus]
  exact Int.emod_eq_of_lt (by omega) (by omega)

end
end Texts
