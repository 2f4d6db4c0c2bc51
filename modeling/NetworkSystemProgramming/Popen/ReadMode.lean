import NetworkSystemProgramming.ByteBuffers

/-!
# The output of a command

The loop of `main` in `popen_pclose.c` for the mode "r": `fread` fills `buf1` as far as the
output goes, and `printf` prints the string in it. `buf1` is zero when the loop begins and is
not cleared afterwards.
-/

namespace Popen

open ByteBuffers

/-- The size of `buf1`. -/
def BUF1_SIZE : Nat := 200

/-- The text printed for an output, from a content of `buf1` on; `none` when `printf` reads
behind `buf1`. -/
def readLoop (buf1 : Buffer BUF1_SIZE) (output : List Byte) : Option (List Byte) :=
  if output = [] then some []
  else
    let buf1 := buf1.receive (output.take BUF1_SIZE)
    (stringIn buf1.bytes).bind fun text =>
      (readLoop buf1 (output.drop BUF1_SIZE)).map (text ++ ·)
termination_by output.length
decreasing_by
  rename_i nonempty
  have := List.length_pos_iff.mpr nonempty
  rw [List.length_drop]
  exact Nat.sub_lt this (by decide)

/-- The loop that is entered with a new `buf1` for every command. -/
def printed (output : List Byte) : Option (List Byte) := readLoop (Buffer.zero _) output

section
variable {output : List Byte}

/-- A first block that fills `buf1` leaves no room for a NUL. -/
theorem printed_full (clean : 0 ∉ output) (full : BUF1_SIZE ≤ output.length) :
    printed output = none := by
  have nonempty : output ≠ [] := by
    rintro rfl
    exact absurd full (by decide)
  have length : (output.take BUF1_SIZE).length = BUF1_SIZE := by
    rw [List.length_take, Nat.min_eq_left full]
  have content : ((Buffer.zero BUF1_SIZE).receive (output.take BUF1_SIZE)).bytes =
      output.take BUF1_SIZE := by
    rw [Buffer.receive_bytes _ (by rw [length]), overwrite, length]
    simp [Buffer.zero]
  have no_end : stringIn (output.take BUF1_SIZE) = none :=
    if_neg (fun zero => clean (List.mem_of_mem_take zero))
  rw [printed, readLoop, if_neg nonempty]
  simp only [content, no_end, Option.bind_none]

/-- A shorter output comes in one block, with a NUL behind it. -/
theorem printed_short (clean : 0 ∉ output) (short : output.length < BUF1_SIZE) :
    printed output = some output := by
  by_cases nonempty : output = []
  · rw [printed, readLoop, if_pos nonempty, nonempty]
  · have taken : output.take BUF1_SIZE = output := List.take_of_length_le (Nat.le_of_lt short)
    have behind : output.drop BUF1_SIZE = [] := List.drop_of_length_le (Nat.le_of_lt short)
    have text : stringIn ((Buffer.zero BUF1_SIZE).receive output).bytes = some output := by
      rw [Buffer.receive_zero (Nat.le_of_lt short)]
      exact stringIn_padded clean short
    rw [printed, readLoop, if_neg nonempty]
    simp only [taken, behind, text, Option.bind_some]
    rw [readLoop, if_pos rfl, Option.map_some, List.append_nil]

/-- What is printed is the output exactly when that is shorter than `buf1`. -/
theorem printed_iff_short (clean : 0 ∉ output) :
    printed output = some output ↔ output.length < BUF1_SIZE := by
  constructor
  · intro same
    by_contra full
    rw [printed_full clean (Nat.le_of_not_lt full)] at same
    cases same
  · exact printed_short clean

end

theorem hi_printed : printed [104, 105, 10] = some [104, 105, 10] :=
  (printed_iff_short (by decide)).mpr (by decide)

/-- The string of 200 bytes in `buf1` has no end there. -/
theorem full_block_not_printed : 0 ∉ List.replicate 200 (97 : Byte) ∧
    printed (List.replicate 200 97) = none ∧
    printed (List.replicate 200 97) ≠ some (List.replicate 200 97) := by
  have clean : 0 ∉ List.replicate 200 (97 : Byte) := by
    intro member
    exact absurd (List.eq_of_mem_replicate member) (by decide)
  have undefined := printed_full clean (by rw [List.length_replicate]; decide)
  refine ⟨clean, undefined, ?_⟩
  intro whole
  rw [undefined] at whole
  cases whole

end Popen
