import NetworkSystemProgramming.Shell.Tokens

/-!
# The lines of a stream

What the loop of `main`, which is the same in both shells, makes of the bytes that are still
to come from `stdin`, when the shell is the only one that reads them. A line that does not
fit the buffer is read in several turns, and each of them makes a command of its part of the
line.
-/

namespace Shell

open ByteBuffers

def LONGLINE : Nat := 255

/-- The bytes up to and with the first newline, but no more than there is room for. -/
def upToNewline : Nat → List Byte → List Byte
  | room + 1, c :: rest => if c = newline then [c] else c :: upToNewline room rest
  | _, _ => []

/-- A line of the stream, as far as there is room, and what is left of the stream; there is
none at the end. -/
def takeLine (size : Nat) (stream : List Byte) : Option (List Byte × List Byte) :=
  if stream = [] then none
  else
    let line := upToNewline (size - 1) stream
    some (line, stream.drop line.length)

/-- The words that so many turns of the loop make of the stream, when each command returns to
the loop and leaves the stream alone. -/
def turnWords (v : Version) : Nat → List Byte → List (List Word)
  | 0, _ => []
  | turns + 1, stream =>
    match takeLine LONGLINE stream with
    | none => []
    | some (line, rest) =>
      match v.parse (cstr line) with
      | none => turnWords v turns rest
      | some myArgv => leadingWords myArgv.cells :: turnWords v turns rest

/-- The lines of the stream that contain a token. -/
def commandLines (stdin : List Byte) : List (List Byte) :=
  (stdin.splitOn newline).filter (tokenise · ≠ [])

/-- The bytes that one turn takes of a line are those of a block, counted from the start of
the line. -/
def blockSize : Nat := LONGLINE - 1

/-- All bytes of a line that are no blanks lie in one block. -/
def InOneBlock (bytes : List Byte) : Prop :=
  ∃ k, ∀ i c, bytes[i]? = some c → isDelim c = false → i / blockSize = k

/-- The blocks of a line. -/
def blocks (line : List Byte) : List (List Byte) :=
  (List.range (line.length / blockSize + 1)).map fun k =>
    (line.drop (blockSize * k)).take blockSize

/-- The commands that the loop makes of a line. -/
def lineCommands (line : List Byte) : List (List Word) :=
  ((blocks line).map tokenise).filter (· ≠ [])

section
variable {line : List Byte}

theorem blocks_short (short : line.length < blockSize) : blocks line = [line] := by
  simp [blocks, Nat.div_eq_of_lt short, List.take_of_length_le (Nat.le_of_lt short)]

theorem blocks_long (long : blockSize ≤ line.length) :
    blocks line = line.take blockSize :: blocks (line.drop blockSize) := by
  have count : line.length / blockSize = (line.drop blockSize).length / blockSize + 1 := by
    rw [List.length_drop]
    exact Nat.div_eq_sub_div (by decide) long
  rw [blocks, count, List.range_succ_eq_map, List.map_cons, List.map_map]
  congr 1
  refine List.map_congr_left fun k _ => ?_
  rw [Function.comp_apply, List.drop_drop, Nat.mul_succ, Nat.add_comm]

theorem lineCommands_short (short : line.length < blockSize) :
    lineCommands line = [tokenise line].filter (· ≠ []) := by
  rw [lineCommands, blocks_short short, List.map_singleton]

theorem lineCommands_long (long : blockSize ≤ line.length) :
    lineCommands line = [tokenise (line.take blockSize)].filter (· ≠ []) ++
      lineCommands (line.drop blockSize) := by
  rw [lineCommands, blocks_long long, List.map_cons, ← List.singleton_append, List.filter_append]
  rfl

/-! ## One turn of the loop -/

theorem upToNewline_clean {room : Nat} (clean : newline ∉ line) (rest : List Byte)
    (long : room ≤ line.length) : upToNewline room (line ++ rest) = line.take room := by
  induction line generalizing room with
  | nil =>
    obtain rfl : room = 0 := Nat.le_zero.mp long
    rfl
  | cons c line ih =>
    cases room with
    | zero => rfl
    | succ room =>
      have other : c ≠ newline := fun same => clean (by simp [same])
      have tail := ih (fun h => clean (List.mem_cons_of_mem c h)) (Nat.le_of_succ_le_succ long)
      rw [List.cons_append, upToNewline, if_neg other, tail, List.take_succ_cons]

theorem upToNewline_line {room : Nat} (clean : newline ∉ line) (short : line.length < room) :
    upToNewline room line = line ∧
      ∀ rest, upToNewline room (line ++ newline :: rest) = line ++ [newline] := by
  induction line generalizing room with
  | nil =>
    obtain ⟨room, rfl⟩ := Nat.exists_eq_succ_of_ne_zero (Nat.ne_of_gt short)
    exact ⟨rfl, fun rest => by simp [upToNewline]⟩
  | cons c line ih =>
    obtain ⟨room, rfl⟩ := Nat.exists_eq_succ_of_ne_zero (Nat.ne_of_gt (Nat.zero_lt_of_lt short))
    have other : c ≠ newline := fun same => clean (by simp [same])
    have tail := ih (fun h => clean (List.mem_cons_of_mem c h)) (Nat.lt_of_succ_lt_succ short)
    constructor
    · rw [upToNewline, if_neg other, tail.1]
    · intro rest
      rw [List.cons_append, upToNewline, if_neg other, tail.2, List.cons_append]

/-- What a turn hands over of the part of a line that it took. -/
theorem turnWords_turn (v : Version) (turns : Nat) {stdin rest : List Byte} (clean : 0 ∉ line)
    (got : takeLine LONGLINE stdin = some (line, rest)) :
    turnWords v (turns + 1) stdin =
      [tokenise line].filter (· ≠ []) ++ turnWords v turns rest := by
  rw [turnWords, got]
  simp only [cstr_of_clean clean]
  rcases parse_cases v line with ⟨null, blank⟩ | ⟨argv, parsed, cells, nonempty⟩
  · simp [null, blank]
  · have words : leadingWords argv.cells = tokenise line := by
      rw [cells]
      exact leadingWords_append (tokenise line) rfl
    simp [parsed, words, nonempty]

/-- A turn at a line that is longer than a block. -/
theorem turn_long (v : Version) (turns : Nat) (tail : List Byte) (full : newline ∉ line)
    (long : blockSize ≤ line.length) (clean : 0 ∉ line ++ tail) :
    turnWords v (turns + 1) (line ++ tail) =
      [tokenise (line.take blockSize)].filter (· ≠ []) ++
        turnWords v turns (line.drop blockSize ++ tail) := by
  have positive : 0 < line.length := Nat.lt_of_lt_of_le (by decide) long
  have some_bytes : line ++ tail ≠ [] := by
    intro empty
    rw [(List.append_eq_nil_iff.mp empty).1] at positive
    exact Nat.lt_irrefl 0 positive
  have taken : upToNewline (LONGLINE - 1) (line ++ tail) = line.take blockSize :=
    upToNewline_clean full tail long
  have left : (line ++ tail).drop (line.take blockSize).length = line.drop blockSize ++ tail := by
    rw [List.length_take_of_le long, List.drop_append_of_le_length long]
  refine turnWords_turn v turns ?_ ?_
  · exact fun zero => clean (List.mem_append_left tail (List.mem_of_mem_take zero))
  · simp only [takeLine, if_neg some_bytes, taken, left]

/-- A turn that takes a line with its newline. -/
theorem turn_line (v : Version) (turns : Nat) {rest : List Byte} (full : newline ∉ line)
    (short : line.length < blockSize) (clean : 0 ∉ line ++ newline :: rest) :
    turnWords v (turns + 1) (line ++ newline :: rest) =
      lineCommands line ++ turnWords v turns rest := by
  have taken : upToNewline (LONGLINE - 1) (line ++ newline :: rest) = line ++ [newline] :=
    (upToNewline_line full short).2 rest
  have left : (line ++ newline :: rest).drop (line ++ [newline]).length = rest := by
    rw [List.append_cons line newline rest, List.drop_left]
  have words : tokenise (line ++ [newline]) = tokenise line := by
    rw [tokenise_append_delim rfl, show tokenise [] = [] from rfl, List.append_nil]
  rw [lineCommands_short short, ← words]
  refine turnWords_turn v turns ?_ ?_
  · intro zero
    refine clean ?_
    rw [List.append_cons line newline rest]
    exact List.mem_append_left rest zero
  · simp only [takeLine, List.append_eq_nil_iff, List.cons_ne_nil, and_false, if_false, taken, left]

/-- A turn that takes the end of the stream. -/
theorem turn_last (v : Version) (turns : Nat) (full : newline ∉ line)
    (short : line.length < blockSize) (clean : 0 ∉ line) :
    turnWords v (turns + 1) line = lineCommands line := by
  by_cases empty : line = []
  · subst empty
    rfl
  · have taken : upToNewline (LONGLINE - 1) line = line := (upToNewline_line full short).1
    have none_left : turnWords v turns [] = [] := by cases turns <;> rfl
    have got : takeLine LONGLINE line = some (line, []) := by
      simp only [takeLine, if_neg empty, taken, List.drop_length]
    have turn := turnWords_turn v turns clean got
    rw [turn, none_left, List.append_nil, lineCommands_short short]

end

/-- What the loop hands over are the commands of the lines, in order. -/
theorem turnWords_lines (v : Version) {turns : Nat} {stdin : List Byte}
    (enough : stdin.length ≤ turns) (clean : 0 ∉ stdin) :
    turnWords v turns stdin = (stdin.splitOn newline).flatMap lineCommands := by
  induction turns generalizing stdin with
  | zero =>
    obtain rfl : stdin = [] := List.length_eq_zero_iff.mp (Nat.le_zero.mp enough)
    rfl
  | succ turns ih =>
    by_cases more : newline ∈ stdin
    · obtain ⟨line, rest, rfl, full⟩ := List.eq_append_cons_of_mem more
      have clean' : 0 ∉ rest := fun zero =>
        clean (List.mem_append_right line (List.mem_cons_of_mem newline zero))
      rw [List.length_append, List.length_cons] at enough
      rw [List.splitOn_append_cons_self_of_not_mem full, List.flatMap_cons]
      by_cases short : line.length < blockSize
      · rw [turn_line v turns full short clean, ih (by omega) clean']
      · have long : blockSize ≤ line.length := Nat.le_of_not_lt short
        have full' : newline ∉ line.drop blockSize := fun h => full (List.mem_of_mem_drop h)
        have fewer : (line.drop blockSize ++ newline :: rest).length ≤ turns := by
          rw [List.length_append, List.length_drop, List.length_cons, blockSize, LONGLINE] at *
          omega
        have later := ih fewer
          (fun zero => clean ((List.drop_sublist blockSize line).append_right _ |>.mem zero))
        rw [turn_long v turns _ full long clean, later, lineCommands_long long,
          List.splitOn_append_cons_self_of_not_mem full', List.flatMap_cons, List.append_assoc]
    · rw [List.splitOn_eq_singleton more, List.flatMap_singleton]
      by_cases short : stdin.length < blockSize
      · exact turn_last v turns more short clean
      · have long : blockSize ≤ stdin.length := Nat.le_of_not_lt short
        have full' : newline ∉ stdin.drop blockSize := fun h => more (List.mem_of_mem_drop h)
        have turn := turn_long v turns [] more long (by rwa [List.append_nil])
        have fewer : (stdin.drop blockSize).length ≤ turns := by
          rw [List.length_drop, blockSize, LONGLINE] at *
          omega
        have later := ih fewer (fun zero => clean (List.mem_of_mem_drop zero))
        rw [List.append_nil, List.append_nil] at turn
        rw [turn, later, lineCommands_long long, List.splitOn_eq_singleton full',
          List.flatMap_singleton]

/-! ## Lines in one block -/

section
variable {line : List Byte}

theorem inOneBlock_short (short : line.length < blockSize) : InOneBlock line := by
  refine ⟨0, fun i c at_i _ => ?_⟩
  have inside := (List.getElem?_eq_some_iff.mp at_i).1
  exact Nat.div_eq_of_lt (Nat.lt_trans inside short)

theorem inOneBlock_blank (blank : ∀ c ∈ line, isDelim c) : InOneBlock line := by
  refine ⟨0, fun i c at_i other => ?_⟩
  rw [blank c (List.mem_of_getElem? at_i)] at other
  cases other

/-- Behind a blank block. -/
theorem inOneBlock_drop (blank : ∀ c ∈ line.take blockSize, isDelim c) :
    InOneBlock line ↔ InOneBlock (line.drop blockSize) := by
  have shifted (i : Nat) : (blockSize + i) / blockSize = i / blockSize + 1 :=
    Nat.add_div_left i (by decide)
  constructor
  · rintro ⟨k, block⟩
    refine ⟨k - 1, fun i c at_i word => ?_⟩
    rw [List.getElem?_drop] at at_i
    have own := block _ c at_i word
    rw [shifted] at own
    exact Nat.eq_sub_of_add_eq own
  · rintro ⟨k, block⟩
    refine ⟨k + 1, fun i c at_i word => ?_⟩
    by_cases first : i < blockSize
    · rw [← List.getElem?_take_of_lt first] at at_i
      rw [blank c (List.mem_of_getElem? at_i)] at word
      cases word
    · obtain ⟨j, rfl⟩ := Nat.exists_eq_add_of_le (Nat.le_of_not_lt first)
      rw [← List.getElem?_drop] at at_i
      rw [shifted, block j c at_i word]

/-- With a token in the first block. -/
theorem inOneBlock_take (word : ¬ ∀ c ∈ line.take blockSize, isDelim c) :
    InOneBlock line ↔ ∀ c ∈ line.drop blockSize, isDelim c := by
  constructor
  · rintro ⟨k, block⟩ c hc
    obtain ⟨d, hd, begins⟩ : ∃ d ∈ line.take blockSize, ¬ isDelim d = true := by
      simpa only [not_forall, exists_prop] using word
    obtain ⟨i, at_i⟩ := List.mem_iff_getElem?.mp hd
    obtain ⟨j, at_j⟩ := List.mem_iff_getElem?.mp hc
    rw [List.getElem?_drop] at at_j
    rw [List.getElem?_take] at at_i
    split at at_i
    · rename_i first
      by_contra other
      have own := block i d at_i (by simpa using begins)
      have later := block _ c at_j (by simpa using other)
      rw [Nat.div_eq_of_lt first] at own
      rw [Nat.add_div_left j (by decide), ← own] at later
      exact Nat.succ_ne_zero _ later
    · cases at_i
  · intro blank
    refine ⟨0, fun i c at_i other => ?_⟩
    refine Nat.div_eq_of_lt (Nat.lt_of_not_le fun later => ?_)
    obtain ⟨j, rfl⟩ := Nat.exists_eq_add_of_le later
    rw [← List.getElem?_drop] at at_i
    rw [blank c (List.mem_of_getElem? at_i)] at other
    cases other

theorem tokenise_blocks (line : List Byte) :
    tokenise (line.take blockSize ++ line.drop blockSize) = tokenise line := by
  rw [List.take_append_drop]

/-- A line in one block is one command, or none when it is blank. -/
theorem lineCommands_inOneBlock (block : InOneBlock line) :
    lineCommands line = [tokenise line].filter (· ≠ []) := by
  induction n : line.length using Nat.strong_induction_on generalizing line with
  | _ n ih =>
    subst n
    by_cases short : line.length < blockSize
    · exact lineCommands_short short
    · have long : blockSize ≤ line.length := Nat.le_of_not_lt short
      have smaller : (line.drop blockSize).length < line.length := by
        rw [List.length_drop]
        exact Nat.sub_lt (Nat.lt_of_lt_of_le (by decide) long) (by decide)
      rw [lineCommands_long long, ← tokenise_blocks line]
      by_cases blank : ∀ c ∈ line.take blockSize, isDelim c
      · rw [ih _ smaller ((inOneBlock_drop blank).mp block) rfl, tokenise_eq_nil.mpr blank,
          tokenise_blank blank]
        rfl
      · have rest := (inOneBlock_take blank).mp block
        rw [ih _ smaller (inOneBlock_blank rest) rfl, tokenise_eq_nil.mpr rest,
          tokenise_append_blank rest]
        simp

/-- The first command that is made of any other line has too few bytes. -/
theorem lineCommands_cut (cut : ¬ InOneBlock line) :
    ∃ first more, lineCommands line = first :: more ∧ first ≠ tokenise line := by
  induction n : line.length using Nat.strong_induction_on generalizing line with
  | _ n ih =>
    subst n
    have long : blockSize ≤ line.length :=
      Nat.le_of_not_lt fun short => cut (inOneBlock_short short)
    have smaller : (line.drop blockSize).length < line.length := by
      rw [List.length_drop]
      exact Nat.sub_lt (Nat.lt_of_lt_of_le (by decide) long) (by decide)
    rw [lineCommands_long long, ← tokenise_blocks line]
    by_cases blank : ∀ c ∈ line.take blockSize, isDelim c
    · obtain ⟨first, more, commands, differs⟩ :=
        ih _ smaller (fun block => cut ((inOneBlock_drop blank).mpr block)) rfl
      rw [commands, tokenise_eq_nil.mpr blank, tokenise_blank blank]
      exact ⟨first, more, rfl, differs⟩
    · have words : tokenise (line.take blockSize) ≠ [] := fun none =>
        blank (tokenise_eq_nil.mp none)
      have first : [tokenise (line.take blockSize)].filter (· ≠ []) =
          [tokenise (line.take blockSize)] := by simp [words]
      rw [first]
      refine ⟨_, _, rfl, ?_⟩
      intro same
      have bytes := congrArg List.flatten same
      rw [flatten_tokenise, flatten_tokenise, List.filter_append, List.self_eq_append_right,
        List.filter_eq_nil_iff] at bytes
      exact cut ((inOneBlock_take blank).mpr fun c hc => by simpa using bytes c hc)

/-- The commands consist of bytes of the stream. -/
theorem lineCommands_clean {stream : List Byte} (clean : 0 ∉ stream) :
    ∀ words ∈ (stream.splitOn newline).flatMap lineCommands, ∀ s ∈ words, 0 ∉ s := by
  intro words member
  obtain ⟨line, isLine, command⟩ := List.mem_flatMap.mp member
  obtain ⟨block, isBlock, rfl⟩ := List.mem_map.mp (List.mem_filter.mp command).1
  obtain ⟨k, -, rfl⟩ := List.mem_map.mp isBlock
  refine tokenise_clean fun zero => clean ?_
  have bytes : (0 : Byte) ∈ (stream.splitOn newline).flatten :=
    List.mem_flatten_of_mem isLine (List.mem_of_mem_drop (List.mem_of_mem_take zero))
  rw [List.splitOn, flatten_splitOnP] at bytes
  exact (List.mem_filter.mp bytes).1

theorem take_commands_iff (lines : List (List Byte)) (n : Nat) :
    (lines.flatMap lineCommands).take n =
        ((lines.filter (tokenise · ≠ [])).map tokenise).take n ↔
      ∀ line ∈ (lines.filter (tokenise · ≠ [])).take n, InOneBlock line := by
  induction lines generalizing n with
  | nil => simp
  | cons line lines ih =>
    rw [List.flatMap_cons]
    by_cases blank : tokenise line = []
    · have commands := lineCommands_inOneBlock (inOneBlock_blank (tokenise_eq_nil.mp blank))
      simpa [commands, blank] using ih n
    · have kept : (line :: lines).filter (tokenise · ≠ []) =
          line :: lines.filter (tokenise · ≠ []) := by simp [blank]
      rw [kept]
      cases n with
      | zero => simp
      | succ n =>
        rw [List.map_cons, List.take_succ_cons, List.take_succ_cons, List.forall_mem_cons]
        by_cases block : InOneBlock line
        · have command : lineCommands line = [tokenise line] := by
            rw [lineCommands_inOneBlock block]
            simp [blank]
          rw [command, List.singleton_append, List.take_succ_cons, List.cons.injEq, ih n]
          simp [block]
        · obtain ⟨first, more, commands, differs⟩ := lineCommands_cut block
          rw [commands, List.cons_append, List.take_succ_cons, List.cons.injEq]
          simp [block, differs]

end

end Shell
