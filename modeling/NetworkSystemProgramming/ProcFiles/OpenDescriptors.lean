import NetworkSystemProgramming.ProcFiles.Names

/-!
# The open descriptors of all processes

`hw3_part3.c` reads the links in the directory of descriptors of each process. Both loops
ask `atoi` for a number, so descriptor 0 is passed over, and no directory is closed.
-/

namespace ProcFiles

open ByteBuffers Texts

/-- What `printf` is called with. -/
inductive Printed where
  /-- "pid %d:\n" -/
  | pid (n : Int)
  /-- " %s\n", with the path of the link -/
  | target (path buf : List Byte)
  deriving DecidableEq

/-- The loop over a directory of descriptors: what it prints, and whether it comes to its
end. A store behind a buffer and a string without NUL end the model. -/
def fdLoop (readlink : List Byte → Option (List Byte)) (path1 : Buffer 100) :
    List (List Byte) → Buffer 100 → Option (List Printed × Bool)
  | [], _ => some ([], true)
  | dName :: names, path =>
    if atoi dName ≠ 0 then
      (path.strcat dName).bind fun path =>
        match readlink path.str with
        | none => some ([], false)
        | some link =>
          (stringIn ((Buffer.zero 200).receive link).bytes).bind fun buf =>
            (path.strcpy path1.str).bind fun restored =>
              (fdLoop readlink path1 names restored).map fun (printed, done) =>
                (.target path.str buf :: printed, done)
    else (path.strcpy path1.str).bind (fdLoop readlink path1 names)

/-- The loop over /proc. No more than `limit` directories can be open at a time, and when
`opendir` returns NULL, `readdir` does not come back from it. -/
def descriptorsLoop (limit : Nat) (opendir : List Byte → Option (List (List Byte)))
    (readlink : List Byte → Option (List Byte)) :
    List (List Byte) → Nat → Option (List Printed)
  | [], _ => some []
  | dName :: names, opened =>
    if atoi dName ≠ 0 then
      (procPath dName (ascii "/fd")).bind fun path =>
        (if opened < limit then opendir path.str else none).bind fun dir1 =>
          (path.strcat (ascii "/")).bind fun path =>
            ((Buffer.zero 100).strcpy path.str).bind fun path1 =>
              (fdLoop readlink path1 dir1 path).bind fun (printed, done) =>
                if done then
                  (descriptorsLoop limit opendir readlink names (opened + 1)).map fun more =>
                    .pid (atoi dName) :: (printed ++ more)
                else some (.pid (atoi dName) :: printed)
    else descriptorsLoop limit opendir readlink names opened

/-! ## What is to be printed -/

/-- `/proc/<pid>/fd` -/
def fdDirPath (pid : Nat) : List Byte := ascii "/proc/" ++ decimal pid ++ ascii "/fd"

/-- `/proc/<pid>/fd/<n>` -/
def fdPath (pid n : Nat) : List Byte := fdDirPath pid ++ ascii "/" ++ decimal n

/-- The lines for the descriptors `ns` of a process. -/
def processLines (target : Nat → Nat → List Byte) (ns : Nat → List Nat) (pid : Nat) :
    List Printed :=
  .pid pid :: (ns pid).map fun n => .target (fdPath pid n) (target pid n)

/-- Every numeric entry of every process. -/
def descriptorLines (target : Nat → Nat → List Byte) (fds : Nat → List (Entry 0))
    (pids : List Nat) : List Printed :=
  pids.flatMap (processLines target fun pid => numbers (fds pid))

/-- The directories and links of the processes can be read, and the targets are shorter
than `buf`. -/
structure Readable (opendir : List Byte → Option (List (List Byte)))
    (readlink : List Byte → Option (List Byte)) (fds : Nat → List (Entry 0))
    (target : Nat → Nat → List Byte) (pids : List Nat) : Prop where
  dirs : ∀ pid ∈ pids, opendir (fdDirPath pid) = some ((fds pid).map Entry.name)
  links : ∀ pid ∈ pids, ∀ n ∈ numbers (fds pid), readlink (fdPath pid n) = some (target pid n)
  strings : ∀ pid ∈ pids, ∀ n ∈ numbers (fds pid),
    0 ∉ target pid n ∧ (target pid n).length < 200

/-! ## The loops -/

section
variable {opendir : List Byte → Option (List (List Byte))}
  {readlink : List Byte → Option (List Byte)} {base : List Byte} {path path1 : Buffer 100}

/-- The path is extended by each number but 0, and restored behind it. -/
theorem fdLoop_entries {dir : List (Entry 0)} (link : Nat → List Byte)
    (links : ∀ n ∈ numbers dir, readlink (base ++ decimal n) = some (link n))
    (strings : ∀ n ∈ numbers dir, 0 ∉ link n ∧ (link n).length < 200)
    (short : base.length ≤ 80) (kept : path1.Holds base) (holds : path.Holds base) :
    fdLoop readlink path1 (dir.map Entry.name) path =
      some (((numbers dir).filter (· ≠ 0)).map fun n => .target (base ++ decimal n) (link n),
        true) := by
  induction dir generalizing path with
  | nil => rfl
  | cons entry dir ih =>
    have restore (b : Buffer 100) : ∃ b', b.strcpy path1.str = some b' ∧ b'.Holds base := by
      rw [kept.str]
      exact b.strcpy_holds kept.clean kept.room
    cases entry with
    | other name noNumber start =>
      obtain ⟨restored, copied, holds'⟩ := restore path
      rw [List.map_cons, Entry.name, fdLoop, if_neg (not_not.mpr noNumber), copied,
        Option.bind_some]
      exact ih links strings holds'
    | number n low int =>
      rw [numbers_number] at links strings ⊢
      have tail {b : Buffer 100} (held : b.Holds base) :=
        ih (fun m member => links m (List.mem_cons_of_mem n member))
          (fun m member => strings m (List.mem_cons_of_mem n member)) held
      rw [List.map_cons, Entry.name, fdLoop, atoi_decimal int]
      by_cases zero : n = 0
      · obtain ⟨restored, copied, holds'⟩ := restore path
        subst zero
        rw [if_neg (by simp), copied, Option.bind_some, tail holds']
        simp
      · obtain ⟨clean, fits⟩ := strings n List.mem_cons_self
        have digits := decimal_length int
        obtain ⟨extended, appended, named⟩ :=
          Buffer.strcat_holds holds (decimal_clean n) (by omega)
        obtain ⟨restored, copied, holds'⟩ := restore extended
        have read : stringIn ((Buffer.zero 200).receive (link n)).bytes = some (link n) := by
          rw [Buffer.receive_zero (Nat.le_of_lt fits), stringIn_padded clean fits]
        rw [if_pos (by simpa using zero), appended, Option.bind_some, named.str,
          links n List.mem_cons_self]
        simp only [read, Option.bind_some, copied, tail holds', Option.map_some]
        simp [zero]

theorem descriptorsLoop_other {limit opened : Nat} {name : List Byte} {names : List (List Byte)}
    (noNumber : atoi name = 0) :
    descriptorsLoop limit opendir readlink (name :: names) opened =
      descriptorsLoop limit opendir readlink names opened := by
  rw [descriptorsLoop, if_neg (not_not.mpr noNumber)]

variable {fds : Nat → List (Entry 0)} {target : Nat → Nat → List Byte}

/-- The descriptors that are printed. -/
def nonzero (fds : Nat → List (Entry 0)) (pid : Nat) : List Nat :=
  (numbers (fds pid)).filter (· ≠ 0)

/-- One turn of the loop over a process. -/
theorem descriptorsLoop_process {limit opened n : Nat} {names : List (List Byte)} {pids : List Nat}
    (low : 1 ≤ n) (int : n < 2 ^ 31) (readable : Readable opendir readlink fds target pids)
    (member : n ∈ pids) :
    descriptorsLoop limit opendir readlink (decimal n :: names) opened =
      if opened < limit then
        (descriptorsLoop limit opendir readlink names (opened + 1)).map fun more =>
          processLines target (nonzero fds) n ++ more
      else none := by
  have digits := decimal_length int
  have text : (ascii "/proc/").length = 6 ∧ (ascii "/fd").length = 3 ∧ (ascii "/").length = 1 := by
    decide
  have length : (fdDirPath n).length ≤ 19 := by
    simp only [fdDirPath, List.length_append]
    omega
  obtain ⟨path, built, holds⟩ := procPath_holds int (show 0 ∉ ascii "/fd" by decide) (by decide)
  change path.Holds (fdDirPath n) at holds
  obtain ⟨base, slash, baseHolds⟩ :=
    Buffer.strcat_holds holds (show 0 ∉ ascii "/" by decide) (by omega)
  obtain ⟨path1, copied, kept⟩ := (Buffer.zero 100).strcpy_holds baseHolds.clean baseHolds.room
  have printed := fdLoop_entries (target n) (readable.links n member) (readable.strings n member)
    (by rw [List.length_append]; omega) kept baseHolds
  rw [descriptorsLoop, if_pos (atoi_number_ne_zero low int), built, Option.bind_some]
  by_cases room : opened < limit
  · have dir : opendir path.str = some ((fds n).map Entry.name) := by
      rw [holds.str]
      exact readable.dirs n member
    rw [if_pos room, if_pos room, dir, Option.bind_some, slash, Option.bind_some, baseHolds.str,
      copied, Option.bind_some, printed, Option.bind_some, atoi_decimal int]
    rfl
  · rw [if_neg room, if_neg room, Option.bind_none]

/-- The loop prints the descriptors but 0, as long as it can open directories. -/
theorem descriptorsLoop_entries {limit opened : Nat} {listing : List (Entry 1)} {pids : List Nat}
    (readable : Readable opendir readlink fds target pids)
    (members : ∀ pid ∈ numbers listing, pid ∈ pids) (bounded : opened ≤ limit) :
    descriptorsLoop limit opendir readlink (listing.map Entry.name) opened =
      if opened + (numbers listing).length ≤ limit then
        some ((numbers listing).flatMap (processLines target (nonzero fds)))
      else none := by
  induction listing generalizing opened with
  | nil => exact (if_pos bounded).symm
  | cons entry listing ih =>
    cases entry with
    | other name noNumber start =>
      rw [List.map_cons, Entry.name, descriptorsLoop_other noNumber]
      exact ih members bounded
    | number n low int =>
      rw [numbers_number] at members ⊢
      rw [List.map_cons, Entry.name,
        descriptorsLoop_process low int readable (members n List.mem_cons_self), List.flatMap_cons,
        List.length_cons]
      by_cases room : opened < limit
      · rw [if_pos room, ih (fun m member => members m (List.mem_cons_of_mem n member)) room]
        by_cases fits : opened + ((numbers listing).length + 1) ≤ limit
        · rw [if_pos fits, if_pos (by omega), Option.map_some]
        · rw [if_neg fits, if_neg (by omega), Option.map_none]
      · rw [if_neg room, if_neg (by omega)]

theorem nonzero_eq_iff {pid : Nat} :
    nonzero fds pid = numbers (fds pid) ↔ 0 ∉ numbers (fds pid) := by
  rw [nonzero, List.filter_eq_self]
  constructor
  · intro all zero
    simpa using all 0 zero
  · intro none n member
    have other : n ≠ 0 := by
      rintro rfl
      exact none member
    simpa using other

theorem processLines_length (ns : Nat → List Nat) (pid : Nat) :
    (processLines target ns pid).length = (ns pid).length + 1 := by
  rw [processLines, List.length_cons, List.length_map]

theorem nonzero_length (fds : Nat → List (Entry 0)) (pid : Nat) :
    (nonzero fds pid).length ≤ (numbers (fds pid)).length :=
  List.length_filter_le _ _

/-- Nothing is printed that is not asked for. -/
theorem printed_length (target : Nat → Nat → List Byte) (fds : Nat → List (Entry 0))
    (pids : List Nat) :
    (pids.flatMap (processLines target (nonzero fds))).length ≤
      (descriptorLines target fds pids).length := by
  induction pids with
  | nil => exact le_refl _
  | cons pid pids ih =>
    have own := nonzero_length fds pid
    rw [descriptorLines] at ih ⊢
    rw [List.flatMap_cons, List.flatMap_cons, List.length_append, List.length_append,
      processLines_length, processLines_length]
    omega

/-- Lines are missing exactly where a process has descriptor 0. -/
theorem printed_eq_iff {pids : List Nat} :
    pids.flatMap (processLines target (nonzero fds)) = descriptorLines target fds pids ↔
      ∀ pid ∈ pids, 0 ∉ numbers (fds pid) := by
  induction pids with
  | nil => exact iff_of_true rfl nofun
  | cons pid pids ih =>
    rw [List.forall_mem_cons, ← ih, ← nonzero_eq_iff]
    rw [descriptorLines, List.flatMap_cons, List.flatMap_cons, ← descriptorLines]
    constructor
    · intro same
      have own := nonzero_length fds pid
      have others := printed_length target fds pids
      have total := congrArg List.length same
      rw [List.length_append, List.length_append, processLines_length, processLines_length] at total
      have lengths : (nonzero fds pid).length = (numbers (fds pid)).length := by omega
      have kept : nonzero fds pid = numbers (fds pid) :=
        List.filter_eq_self.mpr (List.length_filter_eq_length_iff.mp lengths)
      refine ⟨kept, ?_⟩
      rw [processLines, processLines, kept] at same
      exact List.append_cancel_left same
    · rintro ⟨kept, rest⟩
      rw [rest, processLines, processLines, kept]

/-- What is printed is complete, if and only if no process has descriptor 0 and there are
not more processes than directories can be open. -/
theorem descriptors_complete_iff {limit : Nat} {listing : List (Entry 1)}
    (readable : Readable opendir readlink fds target (numbers listing)) :
    descriptorsLoop limit opendir readlink (listing.map Entry.name) 0 =
        some (descriptorLines target fds (numbers listing)) ↔
      (numbers listing).length ≤ limit ∧ ∀ pid ∈ numbers listing, 0 ∉ numbers (fds pid) := by
  rw [descriptorsLoop_entries readable (fun _ member => member) (Nat.zero_le limit), Nat.zero_add]
  by_cases room : (numbers listing).length ≤ limit
  · rw [if_pos room, Option.some.injEq, printed_eq_iff]
    simp [room]
  · rw [if_neg room]
    exact iff_of_false nofun fun right => room right.1

end

/-! ## One process -/

private def daemonTarget (_ _ : Nat) : List Byte := ascii "/dev/null"

private def opensDaemon (fds : Nat → List (Entry 0)) (path : List Byte) :
    Option (List (List Byte)) :=
  if path = fdDirPath 42 then some ((fds 42).map Entry.name) else none

/-- The directories of a process whose descriptors all refer to /dev/null. -/
private theorem daemon_readable (fds : Nat → List (Entry 0)) :
    Readable (opensDaemon fds) (fun _ => some (ascii "/dev/null")) fds daemonTarget
      (numbers exampleListing) := by
  have only : numbers exampleListing = [42] := rfl
  have short : 0 ∉ ascii "/dev/null" ∧ (ascii "/dev/null").length < 200 := by decide
  rw [only]
  refine ⟨?_, fun _ _ _ _ => rfl, fun _ _ _ _ => short⟩
  intro pid member
  rw [List.mem_singleton.mp member, opensDaemon, if_pos rfl]

private def stdoutOnly (_ : Nat) : List (Entry 0) :=
  [.other (ascii ".") (by decide) (by decide), .number 1 (by decide) (by decide)]

private def stdinOnly (_ : Nat) : List (Entry 0) :=
  [.other (ascii ".") (by decide) (by decide), .number 0 (by decide) (by decide)]

theorem stdout_is_printed :
    descriptorsLoop 1 (opensDaemon stdoutOnly) (fun _ => some (ascii "/dev/null"))
      (exampleListing.map Entry.name) 0 =
        some (descriptorLines daemonTarget stdoutOnly (numbers exampleListing)) :=
  (descriptors_complete_iff (daemon_readable stdoutOnly)).mpr ⟨by decide, by decide⟩

/-- The target of descriptor 0 is not printed. -/
theorem stdin_is_missing :
    ¬ ∀ (limit : Nat) (opendir : List Byte → Option (List (List Byte)))
      (readlink : List Byte → Option (List Byte)) (listing : List (Entry 1))
      (fds : Nat → List (Entry 0)) (target : Nat → Nat → List Byte),
      (numbers listing).length ≤ limit →
      Readable opendir readlink fds target (numbers listing) →
      descriptorsLoop limit opendir readlink (listing.map Entry.name) 0 =
        some (descriptorLines target fds (numbers listing)) := by
  intro claim
  have run := claim 1 _ _ exampleListing stdinOnly daemonTarget (by decide)
    (daemon_readable stdinOnly)
  have printed : descriptorsLoop 1 (opensDaemon stdinOnly) (fun _ => some (ascii "/dev/null"))
      (exampleListing.map Entry.name) 0 = some [.pid 42] := by decide +kernel
  rw [printed] at run
  exact absurd run (by decide)

end ProcFiles
