import NetworkSystemProgramming.ProcFiles.Names

/-!
# The processes of a user

`hw3_part1.c` reads the status file of each process up to the line with its real uid. It
closes the file if that is not the user's. If it is, it prints the process, reads on to
the end of the file, and does not close it.
-/

namespace ProcFiles

open ByteBuffers Texts
open Shell (strtok isDelim)

abbrev Line := List Byte

/-- "Name: %s  Pid: %s\n" -/
def userLine (pName pid : List Byte) : List Byte :=
  ascii "Name: " ++ pName ++ ascii "  Pid: " ++ pid ++ [newline]

/-- The loop over the lines of a status file: what it prints, and whether it closes the
file. Reading a string through NULL and storing behind a buffer end the model. -/
def statusLoop (pwUid : Nat) :
    List Line → Buffer 100 → Buffer 50 → Option (List (List Byte) × Bool)
  | [], _, _ => some ([], false)
  | buf :: lines, pName, pid =>
    (strtok (cstr buf)).bind fun (key, more) =>
      if key = ascii "Name:" then
        (strtok more).bind fun (value, _) =>
          (pName.strcpy value).bind fun pName => statusLoop pwUid lines pName pid
      else if key = ascii "Pid:" then
        (strtok more).bind fun (value, _) =>
          (pid.strcpy value).bind fun pid => statusLoop pwUid lines pName pid
      else if key = ascii "Uid:" then
        (strtok more).bind fun (uid, _) =>
          if atoi uid % 2 ^ 32 = pwUid then
            (statusLoop pwUid lines pName pid).map fun (printed, closed) =>
              (userLine pName.str pid.str :: printed, closed)
          else some ([], true)
      else statusLoop pwUid lines pName pid

/-- The loop over /proc: what it prints, and how many status files are open in the end. At
most `limit` of them can be open at a time, and `main` returns when one cannot be opened. -/
def usersLoop (pwUid limit : Nat) (fopen : List Byte → Option (List Line)) :
    List (List Byte) → Nat → Option (List (List Byte) × Nat)
  | [], opened => some ([], opened)
  | dName :: names, opened =>
    if atoi dName ≠ 0 then
      (procPath dName (ascii "/status")).bind fun path =>
        match if opened < limit then fopen path.str else none with
        | none => some ([], opened)
        | some lines =>
          (statusLoop pwUid lines (Buffer.zero 100) (Buffer.zero 50)).bind
            fun (printed, closed) =>
              (usersLoop pwUid limit fopen names (if closed then opened else opened + 1)).map
                fun (more, left) => (printed ++ more, left)
    else usersLoop pwUid limit fopen names opened

/-! ## Status files -/

/-- A line of another field. -/
def Other (line : Line) : Prop :=
  ∃ key more, strtok (cstr line) = some (key, more) ∧
    key ≠ ascii "Name:" ∧ key ≠ ascii "Pid:" ∧ key ≠ ascii "Uid:"

/-- A string that `strtok` returns whole. -/
structure Word (s : List Byte) : Prop where
  nonempty : s ≠ []
  word : ∀ c ∈ s, isDelim c = false ∧ c ≠ 0

/-- What the status file of a process tells, with the lines around its three fields. -/
structure Status where
  name : List Byte
  name_word : Word name
  uid : Nat
  uid_small : uid < 2 ^ 32
  /-- What stands behind the real uid in its line. -/
  uids : List Byte
  before : List Line
  middle : List Line
  between : List Line
  after : List Line
  others : ∀ line ∈ before ++ (middle ++ (between ++ after)), Other line

/-- A line of the key, a tab, the value and what stands behind it. -/
def field (key value behind : List Byte) : Line := key ++ 9 :: (value ++ behind)

def Status.lines (st : Status) (pid : Nat) : List Line :=
  st.before ++ field (ascii "Name:") st.name [newline] ::
    (st.middle ++ field (ascii "Pid:") (decimal pid) [newline] ::
      (st.between ++ field (ascii "Uid:") (decimal st.uid) (9 :: st.uids) :: st.after))

/-- `/proc/<pid>/status` -/
def statusPath (pid : Nat) : List Byte := ascii "/proc/" ++ decimal pid ++ ascii "/status"

/-- The processes of a listing whose status files can be opened. -/
def remaining (status : Nat → Option Status) (pids : List Nat) : List (Nat × Status) :=
  pids.filterMap fun pid => (status pid).map (pid, ·)

/-- Those before the first one that has exited. -/
def beforeVanished (status : Nat → Option Status) : List Nat → List Status
  | [] => []
  | pid :: pids =>
    match status pid with
    | none => []
    | some st => st :: beforeVanished status pids

/-- The lines for the remaining processes of the user. -/
def userLines (pwUid : Nat) (status : Nat → Option Status) (pids : List Nat) :
    List (List Byte) :=
  ((remaining status pids).filter fun (_, st) => st.uid = pwUid).map
    fun (pid, st) => userLine st.name (decimal pid)

/-! ## Reading a status file -/

section
variable {key value behind rest : List Byte} {d : Byte} {pwUid : Nat} {lines tail : List Line}
  {pName : Buffer 100} {pid : Buffer 50}

theorem strtok_word (nonempty : value ≠ []) (word : ∀ c ∈ value, isDelim c = false)
    (delim : isDelim d = true) : strtok (value ++ d :: rest) = some (value, rest) := by
  obtain ⟨c, more, rfl⟩ := List.exists_cons_of_ne_nil nonempty
  have first := word c List.mem_cons_self
  have start : (c :: more ++ d :: rest).dropWhile isDelim = c :: more ++ d :: rest :=
    List.dropWhile_cons_of_neg (by rw [first]; exact Bool.false_ne_true)
  have inside : ∀ e ∈ c :: more, (!isDelim e) = true := by
    intro e member
    rw [word e member]
    rfl
  have ends : ∀ e ∈ (d :: rest).head?, (!isDelim e) = false := by simp [delim]
  have taken : (c :: more ++ d :: rest).takeWhile (!isDelim ·) = c :: more :=
    takeWhile_run inside ends
  have dropped : (c :: more ++ d :: rest).dropWhile (!isDelim ·) = d :: rest :=
    dropWhile_run inside ends
  rw [List.cons_append] at start taken dropped ⊢
  simp only [strtok, start, taken, dropped]
  rfl

theorem Word.clean (h : Word value) : 0 ∉ value := fun nul => (h.word 0 nul).2 rfl

/-- A field is read as its key and its value. -/
theorem strtok_field (keyWord : Word key) (valueWord : Word value) (delim : isDelim d = true)
    (rest : List Byte) :
    ∃ more left, strtok (cstr (field key value (d :: rest))) = some (key, more) ∧
      strtok more = some (value, left) := by
  have nonzero : d ≠ 0 := by
    rintro rfl
    exact absurd delim (by decide)
  have clean : 0 ∉ key ++ 9 :: (value ++ [d]) := by
    simp [keyWord.clean, valueWord.clean, nonzero.symm]
  have whole : field key value (d :: rest) = (key ++ 9 :: (value ++ [d])) ++ rest := by
    simp [field]
  have string : cstr (field key value (d :: rest)) = key ++ 9 :: (value ++ d :: cstr rest) := by
    rw [whole, cstr_append_clean clean]
    simp
  refine ⟨value ++ d :: cstr rest, cstr rest, ?_, ?_⟩
  · rw [string]
    exact strtok_word keyWord.nonempty (fun c member => (keyWord.word c member).1) (by decide)
  · exact strtok_word valueWord.nonempty (fun c member => (valueWord.word c member).1) delim

theorem nameKey_word : Word (ascii "Name:") := ⟨by decide, by decide +kernel⟩
theorem pidKey_word : Word (ascii "Pid:") := ⟨by decide, by decide +kernel⟩
theorem uidKey_word : Word (ascii "Uid:") := ⟨by decide, by decide +kernel⟩

theorem statusLoop_others (pwUid : Nat) (others : ∀ line ∈ lines, Other line) (tail : List Line)
    (pName : Buffer 100) (pid : Buffer 50) :
    statusLoop pwUid (lines ++ tail) pName pid = statusLoop pwUid tail pName pid := by
  induction lines with
  | nil => rfl
  | cons line lines ih =>
    obtain ⟨key, more, read, noName, noPid, noUid⟩ := others line List.mem_cons_self
    simp only [List.cons_append, statusLoop, read, Option.bind_some, if_neg noName, if_neg noPid,
      if_neg noUid]
    exact ih fun l member => others l (List.mem_cons_of_mem line member)

theorem statusLoop_name (word : Word value) (delim : isDelim d = true) :
    statusLoop pwUid (field (ascii "Name:") value (d :: rest) :: tail) pName pid =
      (pName.strcpy value).bind fun pName => statusLoop pwUid tail pName pid := by
  obtain ⟨more, left, read, found⟩ := strtok_field nameKey_word word delim rest
  simp only [statusLoop, read, found, Option.bind_some, if_true]

theorem statusLoop_pid (word : Word value) (delim : isDelim d = true) :
    statusLoop pwUid (field (ascii "Pid:") value (d :: rest) :: tail) pName pid =
      (pid.strcpy value).bind fun pid => statusLoop pwUid tail pName pid := by
  obtain ⟨more, left, read, found⟩ := strtok_field pidKey_word word delim rest
  have noName : ascii "Pid:" ≠ ascii "Name:" := by decide
  simp only [statusLoop, read, found, Option.bind_some, if_neg noName, if_true]

theorem statusLoop_uid (word : Word value) (delim : isDelim d = true) :
    statusLoop pwUid (field (ascii "Uid:") value (d :: rest) :: tail) pName pid =
      if atoi value % 2 ^ 32 = pwUid then
        (statusLoop pwUid tail pName pid).map fun (printed, closed) =>
          (userLine pName.str pid.str :: printed, closed)
      else some ([], true) := by
  obtain ⟨more, left, read, found⟩ := strtok_field uidKey_word word delim rest
  have noName : ascii "Uid:" ≠ ascii "Name:" := by decide
  have noPid : ascii "Uid:" ≠ ascii "Pid:" := by decide
  simp only [statusLoop, read, found, Option.bind_some, if_neg noName, if_neg noPid, if_true]

theorem word_decimal (n : Nat) : Word (decimal n) :=
  ⟨decimal_ne_nil n, decimal_word n⟩

/-- What comes of a status file: it is closed, unless the process is the user's. -/
theorem statusLoop_lines (st : Status) {n : Nat} (int : n < 2 ^ 31) :
    statusLoop pwUid (st.lines n) (Buffer.zero 100) (Buffer.zero 50) =
      if st.name.length < 100 then
        some (if st.uid = pwUid then ([userLine st.name (decimal n)], false) else ([], true))
      else none := by
  have others : ∀ line ∈ st.before ++ (st.middle ++ (st.between ++ st.after)), Other line :=
    st.others
  simp only [List.forall_mem_append] at others
  obtain ⟨before, middle, between, after⟩ := others
  rw [Status.lines, statusLoop_others pwUid before, statusLoop_name st.name_word (by decide)]
  by_cases short : st.name.length < 100
  · have digits := decimal_length int
    obtain ⟨pName, named, nameHolds⟩ := (Buffer.zero 100).strcpy_holds st.name_word.clean short
    obtain ⟨pid, numbered, pidHolds⟩ :=
      (Buffer.zero 50).strcpy_holds (decimal_clean n) (by omega)
    have rest : statusLoop pwUid st.after pName pid = some ([], false) := by
      have whole := statusLoop_others pwUid after [] pName pid
      rw [List.append_nil] at whole
      exact whole
    rw [named, Option.bind_some, statusLoop_others pwUid middle,
      statusLoop_pid (word_decimal n) (by decide), numbered, Option.bind_some,
      statusLoop_others pwUid between, statusLoop_uid (word_decimal st.uid) (by decide),
      atoi_decimal_unsigned st.uid_small, rest, if_pos short, nameHolds.str, pidHolds.str]
    simp only [Nat.cast_inj]
    split <;> rfl
  · rw [Buffer.strcpy_long _ (by omega), if_neg short]
    rfl

end

/-! ## The loop over /proc -/

section
variable {pwUid limit opened : Nat} {fopen : List Byte → Option (List Line)}
  {names : List (List Byte)} {status : Nat → Option Status} {listing : List (Entry 1)}

/-- Files that are left open stay open. -/
theorem usersLoop_opened {printed : List (List Byte)} {left : Nat}
    (run : usersLoop pwUid limit fopen names opened = some (printed, left)) : opened ≤ left := by
  induction names generalizing opened printed with
  | nil =>
    obtain ⟨-, rfl⟩ := Prod.mk.inj (Option.some.inj run)
    exact le_refl opened
  | cons dName names ih =>
    rw [usersLoop] at run
    split at run
    · obtain ⟨path, -, run⟩ := Option.bind_eq_some_iff.mp run
      split at run
      · obtain ⟨-, rfl⟩ := Prod.mk.inj (Option.some.inj run)
        exact le_refl opened
      · obtain ⟨⟨first, closed⟩, -, run⟩ := Option.bind_eq_some_iff.mp run
        obtain ⟨⟨more, last⟩, tail, same⟩ := Option.map_eq_some_iff.mp run
        obtain ⟨-, rfl⟩ := Prod.mk.inj same
        have grown := ih tail
        split at grown
        · exact grown
        · omega
    · exact ih run

theorem usersLoop_other {name : List Byte} (noNumber : atoi name = 0) :
    usersLoop pwUid limit fopen (name :: names) opened =
      usersLoop pwUid limit fopen names opened := by
  rw [usersLoop, if_neg (not_not.mpr noNumber)]

/-- One turn of the loop over a process. -/
theorem usersLoop_process {n : Nat} (low : 1 ≤ n) (int : n < 2 ^ 31)
    (file : fopen (statusPath n) = (status n).map (·.lines n)) :
    usersLoop pwUid limit fopen (decimal n :: names) opened =
      match if opened < limit then status n else none with
      | none => some ([], opened)
      | some st =>
        if st.name.length < 100 then
          if st.uid = pwUid then
            (usersLoop pwUid limit fopen names (opened + 1)).map fun (more, left) =>
              (userLine st.name (decimal n) :: more, left)
          else usersLoop pwUid limit fopen names opened
        else none := by
  obtain ⟨path, built, holds⟩ := procPath_holds int (show 0 ∉ ascii "/status" by decide) (by decide)
  have here : fopen path.str = (status n).map (·.lines n) := by
    rw [holds.str]
    exact file
  have opens : (if opened < limit then fopen path.str else none) =
      (if opened < limit then status n else none).map (·.lines n) := by
    rw [here]
    split <;> rfl
  rw [usersLoop, if_pos (atoi_number_ne_zero low int), built, Option.bind_some, opens]
  cases (if opened < limit then status n else none) with
  | none => rfl
  | some st =>
    simp only [Option.map_some, statusLoop_lines st int]
    by_cases short : st.name.length < 100
    · by_cases own : st.uid = pwUid
      · simp only [if_pos short, if_pos own]
        rfl
      · simp only [if_pos short, if_neg own]
        simp
    · simp only [if_neg short]
      rfl

theorem userLines_cons (n : Nat) (pids : List Nat) :
    userLines pwUid status (n :: pids) =
      (match status n with
        | some st => if st.uid = pwUid then [userLine st.name (decimal n)] else []
        | none => []) ++ userLines pwUid status pids := by
  cases found : status n with
  | none => simp [userLines, remaining, found]
  | some st => by_cases own : st.uid = pwUid <;> simp [userLines, remaining, found, own]

/-- What is printed is right, as far as it goes. -/
theorem usersLoop_prefix {printed : List (List Byte)} {left : Nat}
    (files : ∀ n ∈ numbers listing, fopen (statusPath n) = (status n).map (·.lines n))
    (run : usersLoop pwUid limit fopen (listing.map Entry.name) opened = some (printed, left)) :
    printed <+: userLines pwUid status (numbers listing) := by
  induction listing generalizing opened printed with
  | nil =>
    obtain ⟨rfl, -⟩ := Prod.mk.inj (Option.some.inj run)
    exact List.nil_prefix
  | cons entry listing ih =>
    cases entry with
    | other name noNumber start =>
      rw [List.map_cons, Entry.name, usersLoop_other noNumber] at run
      exact ih files run
    | number n low int =>
      rw [numbers_number] at files ⊢
      have tail : ∀ m ∈ numbers listing, fopen (statusPath m) = (status m).map (·.lines m) :=
        fun m member => files m (List.mem_cons_of_mem n member)
      rw [List.map_cons, Entry.name, usersLoop_process low int (files n List.mem_cons_self)] at run
      rw [userLines_cons]
      cases found : (if opened < limit then status n else none) with
      | none =>
        simp only [found] at run
        obtain ⟨rfl, -⟩ := Prod.mk.inj (Option.some.inj run)
        exact List.nil_prefix
      | some st =>
        simp only [found] at run
        obtain ⟨short, run⟩ := Option.ite_none_right_eq_some.mp run
        have here : status n = some st := (Option.ite_none_right_eq_some.mp found).2
        by_cases own : st.uid = pwUid
        · rw [if_pos own] at run
          obtain ⟨⟨more, last⟩, rest, same⟩ := Option.map_eq_some_iff.mp run
          obtain ⟨rfl, rfl⟩ := Prod.mk.inj same
          simp only [here, if_pos own]
          exact (List.prefix_append_right_inj [_]).mpr (ih tail rest)
        · rw [if_neg own] at run
          simp only [here, if_neg own]
          exact ih tail run

theorem userLines_eq_nil_iff {pids : List Nat} :
    userLines pwUid status pids = [] ↔ ∀ p ∈ remaining status pids, p.2.uid ≠ pwUid := by
  rw [userLines, List.map_eq_nil_iff, List.filter_eq_nil_iff]
  simp

/-- What is printed is complete and no status file is left open, if and only if no
remaining process is the user's, and no name that is read overflows `p_name`. -/
theorem complete_iff (room : 0 < limit)
    (files : ∀ n ∈ numbers listing, fopen (statusPath n) = (status n).map (·.lines n)) :
    usersLoop pwUid limit fopen (listing.map Entry.name) 0 =
        some (userLines pwUid status (numbers listing), 0) ↔
      (∀ p ∈ remaining status (numbers listing), p.2.uid ≠ pwUid) ∧
        ∀ st ∈ beforeVanished status (numbers listing), st.name.length < 100 := by
  induction listing with
  | nil => exact iff_of_true rfl ⟨nofun, nofun⟩
  | cons entry listing ih =>
    cases entry with
    | other name noNumber start =>
      rw [List.map_cons, Entry.name, usersLoop_other noNumber]
      exact ih files
    | number n low int =>
      rw [numbers_number] at files ⊢
      have tail := ih fun m member => files m (List.mem_cons_of_mem n member)
      rw [List.map_cons, Entry.name, usersLoop_process low int (files n List.mem_cons_self),
        if_pos room, userLines_cons]
      cases found : status n with
      | none =>
        have gone :
            remaining status (n :: numbers listing) = remaining status (numbers listing) := by
          simp [remaining, found]
        have nothing : beforeVanished status (n :: numbers listing) = [] := by
          simp only [beforeVanished, found]
        rw [gone, nothing, List.nil_append, ← userLines_eq_nil_iff]
        constructor
        · intro run
          exact ⟨(Prod.mk.inj (Option.some.inj run)).1.symm, nofun⟩
        · rintro ⟨empty, -⟩
          rw [empty]
      | some st =>
        have here : remaining status (n :: numbers listing) =
            (n, st) :: remaining status (numbers listing) := by
          simp [remaining, found]
        have reads : beforeVanished status (n :: numbers listing) =
            st :: beforeVanished status (numbers listing) := by
          simp only [beforeVanished, found]
        rw [here, reads, List.forall_mem_cons, List.forall_mem_cons]
        by_cases short : st.name.length < 100
        · by_cases own : st.uid = pwUid
          · simp only [if_pos short, if_pos own]
            refine iff_of_false ?_ fun right => right.1.1 own
            intro run
            obtain ⟨⟨more, left⟩, grown, same⟩ := Option.map_eq_some_iff.mp run
            have stays := usersLoop_opened grown
            have none : left = 0 := (Prod.mk.inj same).2
            omega
          · simp only [if_pos short, if_neg own, List.nil_append, tail]
            simp [short, own]
        · simp only [if_neg short]
          exact iff_of_false nofun fun right => short right.2.1

end

/-! ## A few processes -/

private def shellStatus : Status where
  name := ascii "sh"
  name_word := ⟨by decide, by decide +kernel⟩
  uid := 1000
  uid_small := by decide
  uids := ascii "1000\t1000\t1000\n"
  before := []
  middle := []
  between := []
  after := []
  others := nofun

private def shellFiles (path : List Byte) : Option (List Line) :=
  if path = statusPath 42 then some (shellStatus.lines 42)
  else if path = statusPath 44 then some (shellStatus.lines 44)
  else none

private def shellRuns (n : Nat) : Option Status :=
  if n = 42 ∨ n = 44 then some shellStatus else none

/-- Process 43 has exited since the directory was read. -/
private def shellListing : List (Entry 1) :=
  exampleListing ++ [.other (ascii "self") (by decide) (by decide),
    .number 43 (by decide) (by decide), .number 44 (by decide) (by decide)]

theorem others_to_list :
    usersLoop 0 1 shellFiles (shellListing.map Entry.name) 0 =
      some (userLines 0 shellRuns (numbers shellListing), 0) :=
  (complete_iff (by decide) (by decide +kernel)).mpr ⟨by decide, by decide⟩

/-- The status file of the user's process is left open. -/
theorem own_file_left_open :
    ¬ ∀ (pwUid limit : Nat) (fopen : List Byte → Option (List Line)) (listing : List (Entry 1))
      (status : Nat → Option Status), 0 < limit →
      (∀ n ∈ numbers listing, fopen (statusPath n) = (status n).map (·.lines n)) →
      usersLoop pwUid limit fopen (listing.map Entry.name) 0 =
        some (userLines pwUid status (numbers listing), 0) := by
  intro claim
  have run := claim 1000 1 shellFiles exampleListing shellRuns (by decide) (by decide +kernel)
  have left :
      (usersLoop 1000 1 shellFiles (exampleListing.map Entry.name) 0).map Prod.snd = some 1 := by
    decide +kernel
  rw [run] at left
  exact absurd left (by decide)

end ProcFiles
