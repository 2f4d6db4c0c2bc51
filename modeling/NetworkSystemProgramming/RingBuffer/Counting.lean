import NetworkSystemProgramming.RingBuffer.Layout
import Mathlib.Algebra.Order.Field.Rat

/-!
# What is counted

The number that `seqcmp` finds in a message, and the loss rate that is printed in the end.
Both versions take the text behind the third word for the number, but 0 is no number to
`seqcmp`, and the enhanced version divides integers.
-/

namespace RingBuffer

open ByteBuffers Texts

/-! ## The number in a message -/

theorem atoi_decimal (n : Nat) : atoi (decimal n ++ [newline]) = n :=
  leadingInteger_decimal_append n fun c member => by
    obtain rfl := Option.some.inj member
    rfl

theorem tokens_append (s rest : List Byte) :
    tokens (s ++ 32 :: rest) = tokens s ++ tokens rest := by
  rw [tokens, List.splitOnP_append_cons s rest rfl, List.filter_append]
  rfl

theorem tokens_word {s : List Byte} (nonempty : s ≠ [])
    (word : ∀ c ∈ s, (decide (c = 32) || decide (c = 9)) = false) : tokens s = [s] := by
  rw [tokens, List.splitOnP_eq_singleton word]
  simp [nonempty]

/-- The number of a message is its fourth token, with the newline that `sprintf` puts
behind it. -/
theorem tokens_message (n : Nat) :
    tokens (message n ++ [newline]) =
      tokens messageText.dropLast ++ [decimal n ++ [newline]] := by
  have split : message n ++ [newline] = messageText.dropLast ++ 32 :: (decimal n ++ [newline]) :=
    rfl
  have word : ∀ c ∈ decimal n ++ [newline], (decide (c = 32) || decide (c = 9)) = false := by
    intro c member
    rcases List.mem_append.mp member with digit | last
    · obtain ⟨noSpace, -⟩ := digit_plain (decimal_digit digit)
      simp only [isspace, Bool.or_eq_false_iff] at noSpace
      have noTab : c ≠ 9 := by
        rintro rfl
        exact absurd noSpace.2 (by decide)
      simp [noSpace.1, noTab]
    · rw [List.mem_singleton.mp last]
      decide
  rw [split, tokens_append, tokens_word (by simp) word]

/-- The three words are no numbers, and neither is 0. -/
theorem seqcmp_message (version : Version) (n : Nat) :
    seqcmp version (message n ++ [newline]) = if n = 0 then none else some (n : Int) := by
  have words : tokens messageText.dropLast =
      [[84, 104, 105, 115], [105, 115], [109, 101, 115, 115, 97, 103, 101]] := by decide
  have this_ : atoi [84, 104, 105, 115] = 0 := by decide
  have is_ : atoi [105, 115] = 0 := by decide
  have message_ : atoi [109, 101, 115, 115, 97, 103, 101] = 0 := by decide
  rw [seqcmp, tokens_message, words]
  simp [seqcmpLoop, this_, is_, message_, atoi_decimal]

/-- The number that was sent is found in its message, and a consumer that was sent it
counts the message, whatever a call without a value would return. -/
structure Counts (version : Version) (n : Nat) : Prop where
  returned : seqcmp version (message n ++ [newline]) = some (n : Int)
  counted : ∀ outcome, sameSeq version n (message n ++ [newline]) outcome = true

/-- Every message is counted but the first one, for which `seqcmp` returns no value. -/
theorem counts_iff (n : Nat) : (∀ version, Counts version n) ↔ n ≠ 0 := by
  constructor
  · rintro all rfl
    have returned := (all .plain).returned
    rw [seqcmp_message, if_pos rfl] at returned
    cases returned
  · intro positive version
    have returned : seqcmp version (message n ++ [newline]) = some (n : Int) := by
      rw [seqcmp_message, if_neg positive]
    refine ⟨returned, fun outcome => ?_⟩
    rw [sameSeq, returned]
    exact decide_eq_true rfl

theorem first_message_not_counted :
    ¬ ∀ n < 2 ^ 31, ∀ version, Counts version n := by
  intro claim
  have returned := (claim 0 (by decide) .enhanced).returned
  revert returned
  decide

/-! ## The loss rate -/

/-- `loss`, with exact quotients in place of those of floats. -/
def Version.loss (version : Version) (p dataNum consumer : Int) : ℚ :=
  match version with
  | .plain => 1 - p / (dataNum * consumer)
  | .enhanced => (1 - p.tdiv ((dataNum * consumer).bmod (2 ^ 32)) : Int)

section
variable {p dataNum consumer : Int}

theorem loss_enhanced (product : 0 < dataNum * consumer) (small : dataNum * consumer < 2 ^ 31)
    (low : 0 ≤ p) (high : p ≤ dataNum * consumer) :
    Version.enhanced.loss p dataNum consumer = if p = dataNum * consumer then 0 else 1 := by
  have int : (dataNum * consumer).bmod (2 ^ 32) = dataNum * consumer := by
    rw [Int.bmod_eq_of_le (by omega) (by omega)]
  by_cases whole : p = dataNum * consumer
  · rw [Version.loss, int, whole, Int.tdiv_self (by omega), if_pos rfl]
    rfl
  · rw [Version.loss, int, Int.tdiv_eq_zero_of_lt low (by omega), if_neg whole]
    rfl

/-- Both versions print the exact loss, if and only if no message was counted or all were. -/
theorem loss_iff (data : 0 < dataNum) (consumers : 0 < consumer)
    (small : dataNum * consumer < 2 ^ 31) (low : 0 ≤ p) (high : p ≤ dataNum * consumer) :
    (∀ version : Version, version.loss p dataNum consumer =
        1 - (p : ℚ) / ((dataNum * consumer : Int) : ℚ)) ↔
      p = 0 ∨ p = dataNum * consumer := by
  have product : 0 < dataNum * consumer := Int.mul_pos data consumers
  have nonzero : ((dataNum * consumer : Int) : ℚ) ≠ 0 := by exact_mod_cast product.ne'
  have plain : Version.plain.loss p dataNum consumer =
      1 - (p : ℚ) / ((dataNum * consumer : Int) : ℚ) := by
    rw [Version.loss, Int.cast_mul]
  have enhanced := loss_enhanced product small low high
  constructor
  · intro all
    have same := (all .enhanced).symm.trans enhanced
    by_cases whole : p = dataNum * consumer
    · exact Or.inr whole
    · rw [if_neg whole, sub_eq_self, div_eq_zero_iff] at same
      exact Or.inl (by exact_mod_cast same.resolve_right nonzero)
  · rintro ends (_ | _)
    · exact plain
    · rw [enhanced]
      rcases ends with rfl | rfl
      · rw [if_neg product.ne]
        simp
      · rw [if_pos rfl, div_self nonzero, sub_self]

end

theorem nothing_counted_loss :
    Version.plain.loss 0 10 3 = 1 - ((0 : Int) : ℚ) / ((10 * 3 : Int) : ℚ) ∧
      Version.enhanced.loss 0 10 3 = 1 - ((0 : Int) : ℚ) / ((10 * 3 : Int) : ℚ) := by
  have all : ∀ version : Version,
      version.loss 0 10 3 = 1 - ((0 : Int) : ℚ) / ((10 * 3 : Int) : ℚ) :=
    (loss_iff (by decide) (by decide) (by decide) (by decide) (by decide)).mpr (Or.inl rfl)
  exact ⟨all .plain, all .enhanced⟩

/-- With 15 of 30 messages counted, the enhanced version prints a loss of 1. -/
theorem half_counted_loss :
    ¬ ∀ p dataNum consumer : Int, 0 < dataNum → 0 < consumer → dataNum * consumer < 2 ^ 31 →
      0 ≤ p → p ≤ dataNum * consumer → ∀ version : Version, version.loss p dataNum consumer =
        1 - (p : ℚ) / ((dataNum * consumer : Int) : ℚ) := by
  intro claim
  have same := claim 15 10 3 (by decide) (by decide) (by decide) (by decide) (by decide) .enhanced
  revert same
  decide +kernel

end RingBuffer
