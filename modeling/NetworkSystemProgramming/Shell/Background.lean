import NetworkSystemProgramming.Shell.MissingCommand
import NetworkSystemProgramming.Shell.Redirection
import NetworkSystemProgramming.Shell.Tokens

/-!
# Commands in the background

Both versions of `is_background` and of the child of `run_command`. SP_HW2 looks for "&"
once more in the child. SP_HW4/part2 keeps the index that `is_background` returned, and
takes 0 for a command without "&".
-/

namespace Shell

open DescriptorTables

variable {E : Type}

/-- The loop of `is_background` in SP_HW2. -/
def ampersandFound : List Cell → Nat
  | .str s :: rest => if s = ampersand then 1 else ampersandFound rest
  | _ => 0

/-- The loop of `is_background` in SP_HW4/part2, at the index `i`. -/
def ampersandIndex (i : Nat) : List Cell → Nat
  | .str s :: rest => if s = ampersand then i else ampersandIndex (i + 1) rest
  | _ => 0

def Version.isBackground (v : Version) (myArgv : List Cell) : Nat :=
  match v with
  | .hw2 => ampersandFound myArgv
  | .part2 => ampersandIndex 0 myArgv

/-- What the parent calls: `waitpid` with 0 or with WNOHANG, or nothing. -/
inductive Wait where
  | blocking
  | nohang
  | skipped
  deriving DecidableEq, Repr

def Version.parentWaits (v : Version) (myArgv : List Cell) : Wait :=
  if v.isBackground myArgv = 0 then .blocking
  else match v with
    | .hw2 => .nohang
    | .part2 => .skipped

/-- How a child has ended, as `waitpid` tells. -/
inductive ExitStatus where
  | exited (code : Nat)
  | signaled (sig : Nat)
  deriving DecidableEq, Repr

/-- The loop over the vector in the child of SP_HW2, and the store where it ends. -/
def cutLoop : List Cell → List Cell
  | .str s :: rest => if s = ampersand then .null :: rest else .str s :: cutLoop rest
  | _ :: rest => .null :: rest
  | [] => []

/-- The store in the child of SP_HW4/part2. -/
def cutAt (runInBackground : Nat) (myArgv : List Cell) : List Cell :=
  if runInBackground ≠ 0 then myArgv.set runInBackground .null else myArgv

/-- What a child goes on to, with its vector. -/
inductive Call where
  | execvp (argv : List Cell)
  | pipeAndExec (argv : List Cell)
  deriving DecidableEq, Repr

/-- The end of the child in SP_HW4/part2. `pipe_present` compares `myArgv[0]` without
asking whether it is NULL: then the child does not come back from it. -/
def pipeOrExec (myArgv : List Cell) : Option Call :=
  match leadingWords myArgv with
  | [] => none
  | words =>
    if 0 < pipePresent words then some (.pipeAndExec myArgv) else some (.execvp myArgv)

/-- The child of `run_command`, up to what it calls. -/
def Version.child (opens : Word → String → Bool) (v : Version) (c : Command E) :
    Command E × Option Call :=
  match v with
  | .hw2 => ({ c with argv := cutLoop c.argv }, some (.execvp (cutLoop c.argv)))
  | .part2 =>
    let c := redirections opens { c with argv := cutAt (v.isBackground c.argv) c.argv }
    (c, pipeOrExec c.argv)

/-- The parent does not wait if and only if there is an "&", and `execvp` finds the words
before the first one. -/
structure Backgrounded (opens : Word → String → Bool) (fds : Table (Target E)) (v : Version)
    (argv : List Word) : Prop where
  background : v.parentWaits (tokenVector argv).cells ≠ .blocking ↔ ampersand ∈ argv
  vector : ∃ behind, (v.child opens ⟨(tokenVector argv).cells, fds⟩).2 =
    some (.execvp ((argv.takeWhile (· ≠ ampersand)).map .str ++ .null :: behind))

/-! ## The loops -/

section
variable {front : List Word} {rest : List Cell}

/-- Word by word, over words without "&". -/
@[elab_as_elim]
theorem absent_induction {motive : List Word → Prop} (absent : ampersand ∉ front)
    (nil : motive []) (cons : ∀ s front, s ≠ ampersand → motive front → motive (s :: front)) :
    motive front := by
  induction front with
  | nil => exact nil
  | cons s front ih =>
    have other : s ≠ ampersand := fun same => absent (by simp [same])
    exact cons s front other (ih fun member => absent (List.mem_cons_of_mem _ member))

theorem ampersandFound_found (absent : ampersand ∉ front) :
    ampersandFound (front.map .str ++ .str ampersand :: rest) = 1 := by
  refine absent_induction absent (by simp [ampersandFound]) fun s front other ih => ?_
  simpa [ampersandFound, other] using ih

theorem ampersandFound_absent (absent : ampersand ∉ front) :
    ampersandFound (front.map .str ++ .null :: rest) = 0 := by
  refine absent_induction absent rfl fun s front other ih => ?_
  simpa [ampersandFound, other] using ih

theorem ampersandIndex_found (absent : ampersand ∉ front) :
    ∀ i, ampersandIndex i (front.map .str ++ .str ampersand :: rest) = i + front.length := by
  refine absent_induction absent (by simp [ampersandIndex]) fun s front other ih i => ?_
  rw [List.map_cons, List.cons_append, ampersandIndex, if_neg other, ih, List.length_cons]
  omega

theorem ampersandIndex_absent (absent : ampersand ∉ front) :
    ∀ i, ampersandIndex i (front.map .str ++ .null :: rest) = 0 := by
  refine absent_induction absent (fun _ => rfl) fun s front other ih i => ?_
  rw [List.map_cons, List.cons_append, ampersandIndex, if_neg other, ih]

theorem cutLoop_found (absent : ampersand ∉ front) :
    cutLoop (front.map .str ++ .str ampersand :: rest) = front.map .str ++ .null :: rest := by
  refine absent_induction absent (by simp [cutLoop]) fun s front other ih => ?_
  simpa [cutLoop, other] using ih

/-- Without "&" the loop comes to the NULL at the end. -/
theorem cutLoop_absent (absent : ampersand ∉ front) :
    cutLoop (front.map .str ++ .null :: rest) = front.map .str ++ .null :: rest := by
  refine absent_induction absent rfl fun s front other ih => ?_
  simpa [cutLoop, other] using ih

theorem cutAt_found (front : List Word) (rest : List Cell) :
    cutAt front.length (front.map .str ++ .str ampersand :: rest) =
      if front = [] then .str ampersand :: rest else front.map .str ++ .null :: rest := by
  cases front with
  | nil => rfl
  | cons s front => simp [cutAt]

theorem takeWhile_absent (absent : ampersand ∉ front) :
    front.takeWhile (· ≠ ampersand) = front := by
  rw [List.takeWhile_eq_self_iff]
  exact ByteBuffers.differ_of_absent absent

theorem takeWhile_found (absent : ampersand ∉ front) (behind : List Word) :
    (front ++ ampersand :: behind).takeWhile (· ≠ ampersand) = front :=
  ByteBuffers.takeWhile_run (ByteBuffers.differ_of_absent absent) (by simp)

theorem ampersand_cases (argv : List Word) :
    ampersand ∉ argv ∨ ∃ front behind, ampersand ∉ front ∧ argv = front ++ ampersand :: behind := by
  by_cases member : ampersand ∈ argv
  · obtain ⟨front, behind, split, absent⟩ := List.eq_append_cons_of_mem member
    exact Or.inr ⟨front, behind, absent, split⟩
  · exact Or.inl member

/-- The vector of a command with an "&". -/
theorem tokenVector_found (front behind : List Word) :
    (tokenVector (front ++ ampersand :: behind)).cells =
      front.map .str ++ .str ampersand :: (behind.map .str ++ [.null]) := by
  simp [tokenVector]

end

/-! ## The two shells -/

section
variable {opens : Word → String → Bool} {fds : Table (Target E)} {argv front : List Word}
  {behind : List Cell}

theorem parentWaits_iff (v : Version) (myArgv : List Cell) :
    v.parentWaits myArgv ≠ .blocking ↔ v.isBackground myArgv ≠ 0 := by
  by_cases zero : v.isBackground myArgv = 0
  · simp [Version.parentWaits, zero]
  · cases v <;> simp [Version.parentWaits, zero]

/-- SP_HW2 finds every "&". -/
theorem backgrounded_hw2 (argv : List Word) : Backgrounded opens fds .hw2 argv := by
  rcases ampersand_cases argv with absent | ⟨front, behind, absent, rfl⟩
  · constructor
    · rw [parentWaits_iff, Version.isBackground, tokenVector, ampersandFound_absent absent]
      simp [absent]
    · refine ⟨[], ?_⟩
      rw [takeWhile_absent absent, Version.child, tokenVector, cutLoop_absent absent]
  · constructor
    · rw [parentWaits_iff, Version.isBackground, tokenVector_found, ampersandFound_found absent]
      simp
    · refine ⟨behind.map .str ++ [.null], ?_⟩
      rw [takeWhile_found absent, Version.child, tokenVector_found, cutLoop_found absent]

theorem pipeOrExec_words (nonempty : front ≠ []) (behind : List Cell) :
    pipeOrExec (front.map .str ++ .null :: behind) =
      if 0 < pipePresent front then some (.pipeAndExec (front.map .str ++ .null :: behind))
      else some (.execvp (front.map .str ++ .null :: behind)) := by
  rw [pipeOrExec, leadingWords_cut]
  cases front with
  | nil => exact absurd rfl nonempty
  | cons s front => rfl

/-- Words that are left without operators reach `execvp` as they are. -/
theorem child_plain (nonempty : front ≠ []) (input : less ∉ front) (output : greater ∉ front)
    (noPipe : bar ∉ front) :
    pipeOrExec (redirections opens ⟨front.map .str ++ .null :: behind, fds⟩).argv =
      some (.execvp (front.map .str ++ .null :: behind)) := by
  rw [redirections, redirectIn, redirect_absent input, redirectOut, redirect_absent output,
    pipeOrExec_words nonempty, pipePresent_stage ⟨nonempty, noPipe⟩, if_neg (by omega)]

/-- SP_HW4/part2 takes an "&" at index 0 for none. -/
theorem backgrounded_part2_iff (nonempty : argv ≠ []) (input : less ∉ argv)
    (output : greater ∉ argv)
    (noPipe : bar ∉ argv) :
    Backgrounded opens fds .part2 argv ↔ argv.head? ≠ some ampersand := by
  rcases ampersand_cases argv with absent | ⟨front, behind, absent, rfl⟩
  · have index : Version.part2.isBackground (tokenVector argv).cells = 0 :=
      ampersandIndex_absent absent 0
    refine iff_of_true ⟨?_, [], ?_⟩ fun head => absent (List.mem_of_mem_head? head)
    · rw [parentWaits_iff, index]
      simp [absent]
    · rw [takeWhile_absent absent, Version.child, index]
      exact child_plain nonempty input output noPipe
  · have index : Version.part2.isBackground (tokenVector (front ++ ampersand :: behind)).cells =
        front.length := by
      rw [Version.isBackground, tokenVector_found, ampersandIndex_found absent, Nat.zero_add]
    cases front with
    | nil =>
      refine iff_of_false (fun right => ?_) (by simp)
      have waits := right.background.mpr (by simp)
      rw [parentWaits_iff, index] at waits
      exact waits rfl
    | cons s front =>
      have other : s ≠ ampersand := fun same => absent (by simp [same])
      have sub : s :: front ⊆ s :: front ++ ampersand :: behind := List.subset_append_left _ _
      refine iff_of_true ⟨?_, behind.map .str ++ [.null], ?_⟩ (by simpa using other)
      · rw [parentWaits_iff, index]
        simp
      · rw [takeWhile_found absent, Version.child, index, tokenVector_found, cutAt_found,
          if_neg (by simp)]
        exact child_plain (by simp) (fun h => input (sub h)) (fun h => output (sub h))
          fun h => noPipe (sub h)

theorem backgrounded_iff (nonempty : argv ≠ []) (input : less ∉ argv) (output : greater ∉ argv)
    (noPipe : bar ∉ argv) :
    (∀ v, Backgrounded opens fds v argv) ↔ argv.head? ≠ some ampersand := by
  have part2 : Backgrounded opens fds .part2 argv ↔ argv.head? ≠ some ampersand :=
    backgrounded_part2_iff nonempty input output noPipe
  rw [← part2]
  constructor
  · intro all
    exact all .part2
  · rintro right (_ | _)
    · exact backgrounded_hw2 argv
    · exact right

end

private def anyFile (_ : Word) (_ : String) : Bool := true

private def childStreams : Table (Target Nat) := [some (.entry 0), some (.entry 1), some (.entry 2)]

theorem sleep_backgrounded :
    Backgrounded anyFile childStreams .hw2 ["sleep", "10", ampersand] ∧
      Backgrounded anyFile childStreams .part2 ["sleep", "10", ampersand] := by
  have all : ∀ v, Backgrounded anyFile childStreams v ["sleep", "10", ampersand] :=
    (backgrounded_iff (by decide) (by decide) (by decide) (by decide)).mpr (by decide)
  exact ⟨all .hw2, all .part2⟩

/-- The parent waits for "& ls", whose "&" stays in the vector. -/
theorem leading_ampersand_waits :
    ¬ ∀ argv : List Word, argv ≠ [] → less ∉ argv → greater ∉ argv → bar ∉ argv →
      ∀ (opens : Word → String → Bool) (fds : Table (Target Nat)) (v : Version),
        Backgrounded opens fds v argv := by
  intro claim
  have right := claim [ampersand, "ls"] (by decide) (by decide) (by decide) (by decide)
    (fun _ _ => true) [] .part2
  exact right.background.mpr (by decide) (by decide)

end Shell
