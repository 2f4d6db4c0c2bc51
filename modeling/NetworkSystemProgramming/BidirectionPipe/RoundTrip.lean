import NetworkSystemProgramming.BidirectionPipe.Chunks

/-!
# The round trip of a chunk

In every run whose chunks leave room for a NUL, the strings of all processes end in their
buffers, and what a process writes to the original stdout is the chunk that it has read,
mapped through `toupper`. The parent and the child of a chunk come to that in every order.
-/

namespace BidirectionPipe

open ByteBuffers DescriptorTables Pipes StepSystems StepSystem

section
variable {E : Type} [DecidableEq E] {behind : List Byte} {entry : Table E}
  {stdin : List (List Byte)} {s t : State E} {log : List (Nat × List Byte)} {pid : Nat}

/-- The runs of the filter, with the chunks that the processes have read. -/
def chunkRuns (behind : List Byte) (entry : Table E) (stdin : List (List Byte)) :
    StepSystem (State E × List (Nat × List Byte)) Act :=
  (plainRuns behind entry stdin).logged readsOf

omit [DecidableEq E] in
/-- In front of `main`. -/
theorem Flowing.start (standard : FirstOpen 2 entry) : Flowing (State.initial entry stdin) [] := by
  have low (fd : Nat) (below : fd < 2) :
      ∃ e, lookup (entry.map (Option.map End.entry)) fd = some (.entry e) := by
    obtain ⟨e, opened⟩ := Option.ne_none_iff_exists'.mp (standard fd below)
    exact ⟨e, by rw [lookup_map, opened, Option.map_some]⟩
  constructor
  · exact Nat.zero_lt_one
  · intro n below
    obtain rfl : n = 0 := Nat.lt_one_iff.mp below
    constructor
    · exact ⟨nofun, fun h => absurd rfl h, fun h => absurd rfl h, fun _ => rfl, nofun, nofun⟩
    · intro fd below
      obtain ⟨e, opened⟩ := low fd below
      exact fun free => absurd (opened.symm.trans free) nofun
    · exact fun _ => low
    · exact fun other => absurd rfl other
    · exact fun other => absurd rfl other
    · nofun
  · intro n above
    have other : n ≠ 0 := Nat.ne_of_gt above
    simp only [State.initial, if_neg other]
  · intro n below
    exact absurd below (Nat.not_lt_of_le (Nat.le_add_left 1 n))
  · intro n last
    obtain rfl : n = 0 := Nat.succ_inj.mp last
    exact ⟨rfl, rfl, rfl, nofun, nofun, nofun⟩

/-! ## The parent and the child come to the answer -/

/-- The place behind a statement whose call succeeds. -/
def Pc.following : Pc → Pc
  | .dupOut => .dupIn
  | .dupIn => .read
  | .read => .pipe1
  | .pipe1 => .pipe2
  | .pipe2 => .fork
  | .fork => .closeP1Read
  | .childCloseP1Write => .childDupStdin
  | .childDupStdin => .childRead
  | .childRead => .childCloseP1Read
  | .childCloseP1Read => .childUpper
  | .childUpper => .childCloseP2Read
  | .childCloseP2Read => .childDupStdout
  | .childDupStdout => .childWrite
  | .childWrite => .childCloseP2Write
  | .childCloseP2Write => .memset
  | .closeP1Read => .dupStdout
  | .dupStdout => .write
  | .write => .closeP1Write
  | .closeP1Write => .closeP2Write
  | .closeP2Write => .dupStdin
  | .dupStdin => .readBack
  | .readBack => .closeP2Read
  | .closeP2Read => .writeOut
  | .writeOut => .wait
  | .wait => .memset
  | .memset => .read
  | .exited => .exited

/-- What a statement does to the places of the processes and to stdout. -/
structure Goes (s t : State E) (pid : Nat) : Prop where
  nextPid : s.nextPid ≤ t.nextPid
  pc : (t.procs pid).pc = (s.procs pid).pc.following ∨ (t.procs pid).pc = .exited
  others : ∀ n, n ≠ pid → t.procs n = s.procs n ∨
    (s.procs pid).pc = .fork ∧ (t.procs n).pc = .childCloseP1Write
  stdout : (s.procs pid).pc ∉ [.write, .childWrite, .writeOut] → t.stdout = s.stdout
  stdin : (s.procs pid).pc ∉ [.read, .childRead, .readBack] → t.stdin = s.stdin

omit [DecidableEq E] in
theorem Goes.of_set {u : State E} {p : Process E} (nextPid : u.nextPid = s.nextPid)
    (procs : u.procs = s.procs) (pc : p.pc = (s.procs pid).pc.following ∨ p.pc = .exited)
    (stdout : (s.procs pid).pc ∉ [.write, .childWrite, .writeOut] → u.stdout = s.stdout)
    (stdin : (s.procs pid).pc ∉ [.read, .childRead, .readBack] → u.stdin = s.stdin) :
    Goes s (u.set pid p) pid := by
  refine ⟨Nat.le_of_eq nextPid.symm, ?_, ?_, stdout, stdin⟩
  · rw [set_self]
    exact pc
  · intro n other
    rw [set_other _ _ other, procs]
    exact Or.inl rfl

theorem readFd_keeps {fd : Nat} {got : Option (List Byte)} {u : State E}
    (h : readFd s pid fd = some (got, u)) :
    u.nextPid = s.nextPid ∧ u.procs = s.procs ∧ u.stdout = s.stdout := by
  unfold readFd at h
  split at h
  · split at h <;> cases h <;> exact ⟨rfl, rfl, rfl⟩
  · split at h
    · cases h
      exact ⟨rfl, rfl, rfl⟩
    · split at h
      · cases h
      · cases h
        exact ⟨rfl, rfl, rfl⟩
  · cases h
    exact ⟨rfl, rfl, rfl⟩

theorem readStep_goes {fd : Nat} {got : List Byte → Process E}
    (reads : (s.procs pid).pc ∈ [.read, .childRead, .readBack])
    (pc : ∀ bytes, (got bytes).pc = (s.procs pid).pc.following)
    (h : readStep s pid fd got = some t) : Goes s t pid := by
  unfold readStep at h
  split at h
  · cases h
  · cases h
    exact .of_set rfl rfl (Or.inr rfl) (fun _ => rfl) (fun other => absurd reads other)
  · next bytes u read =>
    cases h
    obtain ⟨nextPid, procs, stdout⟩ := readFd_keeps read
    exact .of_set nextPid procs (Or.inl (pc bytes)) (fun _ => stdout)
      (fun other => absurd reads other)

theorem writeStep_goes (fd : Nat) (bytes : List Byte) {p : Process E}
    (writes : (s.procs pid).pc ∈ [.write, .childWrite, .writeOut])
    (pc : p.pc = (s.procs pid).pc.following) : Goes s (writeStep s pid fd bytes p) pid := by
  unfold writeStep
  split
  · exact .of_set rfl rfl (Or.inr rfl) (fun _ => rfl) (fun _ => rfl)
  · next u written =>
    have same : u.nextPid = s.nextPid ∧ u.procs = s.procs ∧ u.stdin = s.stdin := by
      unfold writeFd at written
      split at written
      · cases written
        exact ⟨rfl, rfl, rfl⟩
      · obtain ⟨-, same⟩ := Option.ite_none_right_eq_some.mp written
        cases same
        exact ⟨rfl, rfl, rfl⟩
      · cases written
    obtain ⟨nextPid, procs, stdin⟩ := same
    exact .of_set nextPid procs (Or.inl pc) (fun other => absurd writes other) (fun _ => stdin)

theorem statement_goes (known : pid < s.nextPid)
    (h : statement behind s pid (s.procs pid) = some t) : Goes s t pid := by
  cases pc : (s.procs pid).pc with
  | read | childRead | readBack =>
    simp only [statement, pc] at h
    exact readStep_goes (by simp [pc]) (fun _ => by rw [pc]; rfl) h
  | write | childWrite | writeOut =>
    simp only [statement, pc, Option.some.injEq] at h
    subst h
    exact writeStep_goes _ _ (by simp [pc]) (by rw [pc]; rfl)
  | fork =>
    simp only [statement, pc, Option.some.injEq] at h
    subst h
    refine ⟨Nat.le_succ _, Or.inl ?_, ?_, fun _ => rfl, fun _ => rfl⟩
    · rw [set_other _ _ (Nat.ne_of_lt known), set_self, pc]
      rfl
    · intro n other
      by_cases new : n = s.nextPid
      · rw [new, set_self]
        exact Or.inr ⟨pc, rfl⟩
      · rw [set_other _ _ new, set_other _ _ other]
        exact Or.inl rfl
  | wait =>
    simp only [statement, pc] at h
    obtain ⟨-, h⟩ := Option.ite_none_right_eq_some.mp h
    cases h
    exact .of_set rfl rfl (Or.inl (by rw [pc]; rfl)) (fun _ => rfl) (fun _ => rfl)
  | exited => simp [statement, pc] at h
  | _ =>
    simp only [statement, pc, Option.some.injEq] at h
    subst h
    exact .of_set rfl rfl (Or.inl (by rw [pc]; rfl)) (fun _ => rfl) (fun _ => rfl)

/-- A process between the `read` of a chunk and the end of its round. -/
def Pc.UnderWay (pc : Pc) : Prop := pc ∈ [.pipe1, .pipe2, .fork] ∨ pc.parentStage ≠ .none

instance (pc : Pc) : Decidable pc.UnderWay := inferInstanceAs (Decidable (_ ∨ _))

/-- The statements that are left of a round. -/
def Pc.left : Pc → Nat
  | .pipe1 => 20
  | .pipe2 => 19
  | .fork => 18
  | .closeP1Read => 9
  | .dupStdout => 8
  | .write => 7
  | .closeP1Write => 6
  | .closeP2Write => 5
  | .dupStdin => 4
  | .readBack => 3
  | .closeP2Read => 2
  | .writeOut => 1
  | .childCloseP1Write => 8
  | .childDupStdin => 7
  | .childRead => 6
  | .childCloseP1Read => 5
  | .childUpper => 4
  | .childCloseP2Read => 3
  | .childDupStdout => 2
  | .childWrite => 1
  | _ => 0

/-- The process `pid` goes on, or its child up to the answer. -/
def OfPair (pid : Nat) (act : Act) (s : State E) : Prop :=
  act = .run pid ∨ act = .run (pid + 1) ∧ (s.procs (pid + 1)).pc.childStage ≠ .past

def pairRuns (pid : Nat) (behind : List Byte) (entry : Table E) (stdin : List (List Byte)) :
    StepSystem (State E) Act :=
  (plainRuns behind entry stdin).restrict (OfPair pid)

/-- A round with the chunk `c`, when stdout held `out` before. -/
structure Pending (log : List (Nat × List Byte)) (pid : Nat) (c out : List Byte) (s : State E) :
    Prop where
  flowing : Flowing s log
  known : pid < s.nextPid
  underWay : (s.procs pid).pc.UnderWay
  stdout : s.stdout = if (s.procs pid).pc = .wait then out ++ c.map toupper else out

theorem statement_enabled (behind : List Byte) {p : Process E}
    (waits : p.pc ∉ [.read, .childRead, .readBack, .wait, .exited]) :
    ∃ t, statement behind s pid p = some t := by
  cases pc : p.pc with
  | read | childRead | readBack | wait | exited => simp [pc] at waits
  | _ => simp only [statement, pc, Option.some.injEq, exists_eq']

variable {c out : List Byte}

/-- While the parent waits for the answer, the child can go on: what it reads has been written. -/
theorem Flowing.child_enabled (flowing : Flowing s log) (behind : List Byte)
    (below : pid + 1 < s.nextPid) (parent : (s.procs pid).pc.parentStage = .between)
    (child : (s.procs (pid + 1)).pc.childStage ≠ .past) :
    ∃ t, statement behind s (pid + 1) (s.procs (pid + 1)) = some t := by
  by_cases takes : (s.procs (pid + 1)).pc = .childRead
  · have waits : (s.procs (pid + 1)).pc.childStage = .waits := by
      rw [takes]
      rfl
    obtain ⟨c, _, _, passing⟩ := flowing.pairs pid below
    have opened := (flowing.child_holds below child (ends_waits waits (2 * pid))).1
    rcases passing.of_waits waits with ⟨ahead, -⟩ | ⟨-, pipeA, -⟩
    · rw [parent] at ahead
      cases ahead
    · simp only [statement, takes]
      exact ⟨_, readStep_pipe opened (by simp [pipeA])⟩
  · refine statement_enabled behind ?_
    simp only [List.mem_cons, List.not_mem_nil, or_false, not_or]
    refine ⟨?_, takes, ?_, ?_, ?_⟩ <;> intro other <;> simp [other, Pc.childStage] at child

/-- One of the two can go on. -/
theorem Pending.moves (pending : Pending log pid c out s) (read : lastRead log pid = some c)
    (nonempty : c ≠ []) (before : (s.procs pid).pc ≠ .wait) :
    ∃ act t, (pairRuns pid behind entry stdin).step act s t := by
  obtain ⟨flowing, known, underWay, -⟩ := pending
  have own (h : ∃ t, statement behind s pid (s.procs pid) = some t) :
      ∃ act t, (pairRuns pid behind entry stdin).step act s t := by
    obtain ⟨t, h⟩ := h
    exact ⟨.run pid, t, Or.inl rfl, run_step rfl h⟩
  -- of the statements of a round, only the `read` of the answer can wait
  by_cases reads : (s.procs pid).pc = .readBack
  · have stage : (s.procs pid).pc.parentStage = .between := by
      rw [reads]
      rfl
    have below := flowing.below known (by rw [stage]; decide)
    obtain ⟨c', read', short, passing⟩ := flowing.pairs pid below
    obtain rfl : c' = c := Option.some.inj (read'.symm.trans read)
    rcases passing.of_between stage with ⟨child, -⟩ | ⟨-, -, pipeB⟩
    · obtain ⟨t, h⟩ := flowing.child_enabled behind below stage child
      exact ⟨.run (pid + 1), t, Or.inr ⟨rfl, child⟩, run_step rfl h⟩
    · have opened := (flowing.parent_holds known (by rw [stage]; decide)
        (ends_between stage (2 * pid))).1
      refine own ?_
      simp only [statement, reads]
      exact ⟨_, readStep_pipe opened (by simp [pipeB, nonempty])⟩
  · refine own (statement_enabled behind ?_)
    simp only [List.mem_cons, List.not_mem_nil, or_false, not_or]
    refine ⟨?_, ?_, reads, before, ?_⟩ <;> intro other <;> rw [other] at underWay <;>
      exact absurd underWay (by decide)

omit [DecidableEq E] in
/-- No process ends. -/
theorem Goes.pc_next (goes : Goes s t pid) (known : pid < s.nextPid) (after : Flowing t log) :
    (t.procs pid).pc = (s.procs pid).pc.following := by
  rcases goes.pc with next | exited
  · exact next
  · exact absurd exited (after.ready pid (Nat.lt_of_lt_of_le known goes.nextPid)).placed.runs


/-- A statement that reads nothing from stdin. -/
theorem Flowing.unread (flowing : Flowing s log) (other : (s.procs pid).pc ≠ .read)
    (h : statement behind s pid (s.procs pid) = some t) : Flowing t log := by
  have after := flowing.step (fun reads => absurd reads other) h
  rw [readsOf_other other, List.append_nil] at after
  exact after

/-- Only one statement writes to the original stdout. -/
theorem Flowing.quiet (flowing : Flowing s log) (known : pid < s.nextPid)
    (other : (s.procs pid).pc ≠ .writeOut)
    (h : statement behind s pid (s.procs pid) = some t) : t.stdout = s.stdout := by
  by_cases hands : (s.procs pid).pc = .write
  · obtain ⟨c, -, -, -, rfl⟩ := flowing.write_next known hands h
    rfl
  · by_cases answers : (s.procs pid).pc = .childWrite
    · obtain ⟨n, rfl⟩ : ∃ n, pid = n + 1 :=
        Nat.exists_eq_add_one.mpr ((flowing.ready pid known).placed.child (by rw [answers]; decide))
      obtain ⟨c, -, -, -, rfl⟩ := flowing.childWrite_next known answers h
      rfl
    · exact (statement_goes known h).stdout (by simp [hands, answers, other])

theorem Pc.left_following {pc : Pc}
    (round : pc.UnderWay ∧ pc ≠ .wait ∨ pc.childStage ≠ .past) :
    pc.following.left < pc.left := by
  revert round
  cases pc <;> decide

theorem Pc.underWay_following {pc : Pc} (underWay : pc.UnderWay) (before : pc ≠ .wait) :
    pc.following.UnderWay := by
  revert underWay before
  cases pc <;> decide

/-- The statements that are left to the parent and its child. -/
def State.left (pid : Nat) (s : State E) : Nat :=
  (s.procs pid).pc.left + (s.procs (pid + 1)).pc.left

/-- The parent goes on. -/
theorem Pending.parent_down (pending : Pending log pid c out s)
    (read : lastRead log pid = some c) (h : statement behind s pid (s.procs pid) = some t) :
    Pending log pid c out t ∧ t.left pid < s.left pid := by
  obtain ⟨flowing, known, underWay, stdout⟩ := pending
  have before : (s.procs pid).pc ≠ .wait := by
    intro waits
    rw [flowing.waits known waits] at h
    cases h
  have after : Flowing t log := by
    refine flowing.unread (fun reads => ?_) h
    rw [reads] at underWay
    exact absurd underWay (by decide)
  have goes := statement_goes known h
  have pc := goes.pc_next known after
  refine ⟨⟨after, Nat.lt_of_lt_of_le known goes.nextPid, ?_, ?_⟩, ?_⟩
  · rw [pc]
    exact Pc.underWay_following underWay before
  · rw [if_neg before] at stdout
    by_cases writes : (s.procs pid).pc = .writeOut
    · obtain ⟨c', read', written⟩ := flowing.writeOut_eq behind known writes
      obtain rfl : c' = c := Option.some.inj (read'.symm.trans read)
      have last : (t.procs pid).pc = .wait := by
        rw [pc, writes]
        rfl
      rw [if_pos last, ← stdout, Option.some.inj (h.symm.trans written)]
    · have other : (t.procs pid).pc ≠ .wait := by
        rw [pc]
        cases place : (s.procs pid).pc <;> simp_all [Pc.following]
      rw [if_neg other, ← stdout]
      exact flowing.quiet known writes h
  · have less := Pc.left_following (Or.inl ⟨underWay, before⟩)
    rw [State.left, State.left, pc]
    rcases goes.others (pid + 1) (Nat.succ_ne_self pid) with same | ⟨forks, born⟩
    · rw [same]
      omega
    · rw [forks, born]
      have fewer : Pc.fork.following.left + Pc.childCloseP1Write.left < Pc.fork.left := by decide
      omega

/-- The child goes on. -/
theorem Pending.child_down (pending : Pending log pid c out s)
    (child : (s.procs (pid + 1)).pc.childStage ≠ .past)
    (h : statement behind s (pid + 1) (s.procs (pid + 1)) = some t) :
    Pending log pid c out t ∧ t.left pid < s.left pid := by
  obtain ⟨flowing, known, underWay, stdout⟩ := pending
  have below : pid + 1 < s.nextPid := by
    by_contra above
    rw [flowing.unborn (pid + 1) (by omega)] at child
    exact absurd rfl child
  have after : Flowing t log := by
    refine flowing.unread (fun reads => ?_) h
    rw [reads] at child
    exact absurd rfl child
  have goes := statement_goes below h
  have same : t.procs pid = s.procs pid := by
    rcases goes.others pid (Nat.ne_of_lt (Nat.lt_succ_self pid)) with same | ⟨forks, -⟩
    · exact same
    · rw [forks] at child
      exact absurd rfl child
  refine ⟨⟨after, Nat.lt_of_lt_of_le known goes.nextPid, ?_, ?_⟩, ?_⟩
  · rw [same]
    exact underWay
  · rw [same, ← stdout]
    refine flowing.quiet below (fun writes => ?_) h
    rw [writes] at child
    exact absurd rfl child
  · rw [State.left, State.left, same, goes.pc_next below after]
    exact Nat.add_lt_add_left (Pc.left_following (Or.inr child)) _

theorem Pending.inevitable (pending : Pending log pid c out s) (read : lastRead log pid = some c)
    (nonempty : c ≠ []) :
    Inevitable (pairRuns pid behind entry stdin)
      (fun t => (t.procs pid).pc = .wait ∧ t.stdout = out ++ c.map toupper) s := by
  refine Inevitable.of_measure (Pending log pid c out) Nat.lt_wfRel.wf
    (State.left pid) ?_ ?_ s pending
  · intro s pending unfinished
    refine pending.moves read nonempty (fun waits => unfinished ⟨waits, ?_⟩)
    rw [pending.stdout, if_pos waits]
  · rintro act s t pending ⟨ofPair, -, h⟩
    obtain rfl | ⟨rfl, child⟩ := ofPair
    · exact pending.parent_down read h
    · exact pending.child_down child h

/-- The buffer whose string the next statement looks for. -/
def Process.scanned (p : Process E) : Option (Buffer bufSize) :=
  match p.pc with
  | .write => some p.buf
  | .childUpper | .childWrite => some p.childBuf
  | .writeOut => some p.parentBuf
  | _ => none

/-- The round trip of the chunk that a process has read is exact. -/
structure RoundTrip (behind : List Byte) (entry : Table E) (stdin : List (List Byte)) (s : State E)
    (log : List (Nat × List Byte)) (pid : Nat) : Prop where
  /-- No loop and no `strlen` leaves its buffer. -/
  inside : ∀ buf, (s.procs pid).scanned = some buf → 0 ∈ buf.bytes
  /-- In every run: what is written to the original stdout. -/
  written : ∀ t, (s.procs pid).pc = .writeOut → statement behind s pid (s.procs pid) = some t →
    ∃ c, lastRead log pid = some c ∧ t.stdout = s.stdout ++ c.map toupper
  /-- The parent and the child come to that, in whatever order they go on. -/
  answered : ∀ c, lastRead log pid = some c → c ≠ [] → (s.procs pid).pc.UnderWay →
    (s.procs pid).pc ≠ .wait →
    Inevitable (pairRuns pid behind entry stdin)
      (fun t => (t.procs pid).pc = .wait ∧ t.stdout = s.stdout ++ c.map toupper) s

/-! ## The runs -/

theorem readStep_stdin_same {fd pipe : Nat} {got : List Byte → Process E}
    (opened : lookup (s.procs pid).fds fd = some (.read pipe))
    (h : readStep s pid fd got = some t) : t.stdin = s.stdin := by
  simp only [readStep, readFd, opened] at h
  by_cases bytes : s.pipes pipe = []
  · by_cases writer : Held s.tables s.nextPid (.write pipe)
    · simp [bytes, writer] at h
    · simp only [bytes, writer, ne_eq, not_true_eq_false, if_false, Option.some.injEq] at h
      exact h ▸ rfl
  · simp only [bytes, ne_eq, not_false_eq_true, if_true, Option.some.injEq] at h
    exact h ▸ rfl

/-- A child and its parent read the answers from pipes. -/
theorem Flowing.unfed (flowing : Flowing s log) (known : pid < s.nextPid)
    (other : (s.procs pid).pc ≠ .read)
    (h : statement behind s pid (s.procs pid) = some t) : t.stdin = s.stdin := by
  by_cases takes : (s.procs pid).pc = .childRead
  · have stage : (s.procs pid).pc.childStage = .waits := by
      rw [takes]
      rfl
    obtain ⟨n, rfl⟩ : ∃ n, pid = n + 1 :=
      Nat.exists_eq_add_one.mpr ((flowing.ready pid known).placed.child (by rw [stage]; decide))
    have opened := (flowing.child_holds known (by rw [stage]; decide) (ends_waits stage (2 * n))).1
    simp only [statement, takes] at h
    exact readStep_stdin_same opened h
  · by_cases back : (s.procs pid).pc = .readBack
    · have stage : (s.procs pid).pc.parentStage = .between := by
        rw [back]
        rfl
      have opened := (flowing.parent_holds known (by rw [stage]; decide)
        (ends_between stage (2 * pid))).1
      simp only [statement, back] at h
      exact readStep_stdin_same opened h
    · exact (statement_goes known h).stdin (by simp [takes, back, other])

/-- The invariant with what is left of stdin. -/
structure Fed (stdin : List (List Byte)) (s : State E) (log : List (Nat × List Byte)) : Prop where
  flowing : Flowing s log
  left : s.stdin = stdin.drop log.length

theorem Fed.step (fed : Fed stdin s log)
    (short : (s.procs pid).pc = .read → Short (s.stdin.headD []))
    (h : statement behind s pid (s.procs pid) = some t) :
    Fed stdin t (log ++ readsOf (.run pid) s) := by
  refine ⟨fed.flowing.step short h, ?_⟩
  have known : pid < s.nextPid := by
    by_contra above
    simp [statement, fed.flowing.unborn pid (by omega)] at h
  by_cases reads : (s.procs pid).pc = .read
  · have got : readsOf (.run pid) s = [(pid, s.stdin.headD [])] := if_pos reads
    rw [fed.flowing.read_eq behind known reads] at h
    rw [got, ← Option.some.inj h, List.length_append, List.length_singleton, ← List.tail_drop,
      ← fed.left]
    rfl
  · rw [readsOf_other reads, List.append_nil, fed.flowing.unfed known reads h]
    exact fed.left

omit [DecidableEq E] in
theorem Fed.head_mem (fed : Fed stdin s log) :
    s.stdin.headD [] = [] ∨ s.stdin.headD [] ∈ stdin := by
  cases left : s.stdin with
  | nil => exact Or.inl rfl
  | cons chunk rest =>
    have member : chunk ∈ stdin.drop log.length := by
      rw [← fed.left, left]
      exact List.mem_cons_self
    exact Or.inr (List.mem_of_mem_drop member)

theorem short_nil : Short [] := ⟨nofun, by decide⟩

theorem reachable_fed (standard : FirstOpen 2 entry) {x : State E × List (Nat × List Byte)}
    (reach : (chunkRuns behind entry stdin).Reachable x)
    (short : ∀ x, (chunkRuns behind entry stdin).Reachable x → Fed stdin x.1 x.2 →
      ∀ pid, (x.1.procs pid).pc = .read → Short (x.1.stdin.headD [])) : Fed stdin x.1 x.2 := by
  refine reach.invariant_of (I := fun x => Fed stdin x.1 x.2) (fun _ reached => reached) ?_ ?_
  · rintro ⟨s, log⟩ ⟨rfl, rfl⟩
    exact ⟨.start standard, rfl⟩
  · rintro act ⟨s, log⟩ ⟨t, log'⟩ reached fed ⟨⟨succeeds, h⟩, rfl⟩
    cases act with
    | run pid => exact fed.step (short _ reached fed pid) h
    | fails pid => exact absurd rfl (succeeds pid)

/-- When every chunk leaves room for a NUL. -/
theorem Fed.of_short (standard : FirstOpen 2 entry) (short : ∀ chunk ∈ stdin, Short chunk)
    {x : State E × List (Nat × List Byte)}
    (reach : (chunkRuns behind entry stdin).Reachable x) : Fed stdin x.1 x.2 := by
  refine reachable_fed standard reach ?_
  intro x _ fed _ _
  rcases fed.head_mem with none | member
  · rw [none]
    exact short_nil
  · exact short _ member

omit [DecidableEq E] in
theorem mem_of_padded {c : List Byte} (short : Short c) {buf : Buffer bufSize}
    (holds : buf.bytes = padded bufSize c) : 0 ∈ buf.bytes := by
  rw [holds, padded, List.mem_append, List.mem_replicate]
  exact Or.inr ⟨Nat.sub_ne_zero_of_lt short.2, rfl⟩

omit [DecidableEq E] in
/-- The strings that are looked for end in their buffers. -/
theorem Flowing.inside (flowing : Flowing s log) (known : pid < s.nextPid) {buf : Buffer bufSize}
    (scanned : (s.procs pid).scanned = some buf) : 0 ∈ buf.bytes := by
  have parent (stage : (s.procs pid).pc.parentStage ≠ .none) :=
    flowing.pairs pid (flowing.below known stage)
  have child (stage : (s.procs pid).pc.childStage ≠ .past) : ∃ n c, Short c ∧
      Passing c (s.procs n) (s.procs pid) (s.pipes (2 * n)) (s.pipes (2 * n + 1)) := by
    obtain ⟨n, rfl⟩ : ∃ n, pid = n + 1 :=
      Nat.exists_eq_add_one.mpr ((flowing.ready pid known).placed.child stage)
    obtain ⟨c, _, short, passing⟩ := flowing.pairs n known
    exact ⟨n, c, short, passing⟩
  cases pc : (s.procs pid).pc with
  | write =>
    have stage : (s.procs pid).pc.parentStage = .ahead := by
      rw [pc]
      rfl
    obtain ⟨c, _, short, passing⟩ := parent (by rw [stage]; decide)
    simp only [Process.scanned, pc, Option.some.injEq] at scanned
    exact scanned ▸ mem_of_padded short (passing.of_ahead stage).2.1
  | childUpper =>
    have stage : (s.procs pid).pc.childStage = .took := by
      rw [pc]
      rfl
    obtain ⟨n, c, short, passing⟩ := child (by rw [stage]; decide)
    simp only [Process.scanned, pc, Option.some.injEq] at scanned
    exact scanned ▸ mem_of_padded short (passing.of_took stage).2.1
  | childWrite =>
    have stage : (s.procs pid).pc.childStage = .turned := by
      rw [pc]
      rfl
    obtain ⟨n, c, short, passing⟩ := child (by rw [stage]; decide)
    simp only [Process.scanned, pc, Option.some.injEq] at scanned
    exact scanned ▸ mem_of_padded short.upper (passing.of_turned stage).2.1
  | writeOut =>
    have stage : (s.procs pid).pc.parentStage = .after := by
      rw [pc]
      rfl
    obtain ⟨c, _, short, passing⟩ := parent (by rw [stage]; decide)
    simp only [Process.scanned, pc, Option.some.injEq] at scanned
    exact scanned ▸ mem_of_padded short.upper (passing.of_after stage)
  | _ => simp [Process.scanned, pc] at scanned

theorem Flowing.roundTrip (flowing : Flowing s log) (pid : Nat) :
    RoundTrip behind entry stdin s log pid := by
  have born (runs : (s.procs pid).pc ≠ .exited) : pid < s.nextPid := by
    by_contra above
    exact runs (flowing.unborn pid (by omega))
  constructor
  · intro buf scanned
    refine flowing.inside (born fun exited => ?_) scanned
    simp [Process.scanned, exited] at scanned
  · intro t writes h
    obtain ⟨c, read, written⟩ := flowing.writeOut_eq behind (born (by rw [writes]; decide)) writes
    refine ⟨c, read, ?_⟩
    rw [Option.some.inj (h.symm.trans written)]
  · intro c read nonempty underWay before
    have known : pid < s.nextPid := by
      refine born fun exited => ?_
      rw [exited] at underWay
      exact absurd underWay (by decide)
    exact Pending.inevitable ⟨flowing, known, underWay, (if_neg before).symm⟩ read nonempty

/-! ## A chunk that fills the buffer -/

/-- The statements in front of the `write` of a parent. -/
def Pc.toWrite : List Pc := [.pipe1, .pipe2, .fork, .closeP1Read, .dupStdout]

omit [DecidableEq E] in
theorem Pc.toWrite_following {pc : Pc} (place : pc ∈ toWrite) :
    pc.following ∈ toWrite ∨ pc.following = .write := by
  revert place
  cases pc <;> decide

/-- They leave `buf` as it is. -/
theorem toWrite_next (behind : List Byte) (known : pid < s.nextPid)
    (place : (s.procs pid).pc ∈ Pc.toWrite) :
    ∃ t, statement behind s pid (s.procs pid) = some t ∧
      (t.procs pid).pc = (s.procs pid).pc.following ∧ (t.procs pid).buf = (s.procs pid).buf := by
  simp only [Pc.toWrite, List.mem_cons, List.not_mem_nil, or_false] at place
  rcases place with pc | pc | pc | pc | pc
  · exact ⟨_, by simp only [statement, pc]; rfl, by rw [set_self, pc]; rfl, by rw [set_self]⟩
  · exact ⟨_, by simp only [statement, pc]; rfl, by rw [set_self, pc]; rfl, by rw [set_self]⟩
  · refine ⟨_, by simp only [statement, pc]; rfl, ?_, ?_⟩
    · rw [set_other _ _ (Nat.ne_of_lt known), set_self, pc]
      rfl
    · rw [set_other _ _ (Nat.ne_of_lt known), set_self]
  · exact ⟨_, by simp only [statement, pc]; rfl, by rw [set_self, pc]; rfl, by rw [set_self]; rfl⟩
  · exact ⟨_, by simp only [statement, pc]; rfl, by rw [set_self, pc]; rfl, by rw [set_self]; rfl⟩

theorem comes_to_write (behind : List Byte) (entry : Table E) (stdin : List (List Byte))
    (known : pid < s.nextPid) (place : (s.procs pid).pc ∈ Pc.toWrite) :
    ∃ t, (plainRuns behind entry stdin).Run s t ∧ (t.procs pid).pc = .write ∧
      (t.procs pid).buf = (s.procs pid).buf := by
  generalize count : (s.procs pid).pc.left = n
  induction n using Nat.strong_induction_on generalizing s with
  | _ n ih =>
    obtain ⟨t, h, pc, buf⟩ := toWrite_next behind known place
    have step : (plainRuns behind entry stdin).step (.run pid) s t := run_step rfl h
    rcases Pc.toWrite_following place with more | last
    · have known' : pid < t.nextPid := Nat.lt_of_lt_of_le known (statement_goes known h).nextPid
      have less : (t.procs pid).pc.left < n := by
        rw [pc, ← count]
        refine Pc.left_following (Or.inl ?_)
        revert place
        cases (s.procs pid).pc <;> decide
      obtain ⟨u, run, writes, same⟩ := ih _ less known' (pc ▸ more) rfl
      exact ⟨u, Run.cons step run, writes, same.trans buf⟩
    · exact ⟨t, Run.cons step (Run.refl t), pc.trans last, buf⟩

/-- A run goes on with the same record. -/
theorem chunkRuns_run {x : State E × List (Nat × List Byte)}
    (reach : (chunkRuns behind entry stdin).Reachable x)
    (run : (plainRuns behind entry stdin).Run x.1 t) :
    ∃ log, (chunkRuns behind entry stdin).Reachable (t, log) := by
  obtain ⟨more, logged⟩ : ∃ more, (chunkRuns behind entry stdin).Run (x.1, x.2) (t, x.2 ++ more) :=
    logged_run run x.2
  exact ⟨_, reach.run logged⟩

/-- When the strings always end in their buffers, no `read` fills `buf`. -/
theorem Fed.head_short {x : State E × List (Nat × List Byte)} (fed : Fed stdin x.1 x.2)
    (reach : (chunkRuns behind entry stdin).Reachable x)
    (fits : ∀ chunk ∈ stdin, 0 ∉ chunk ∧ chunk.length ≤ bufSize)
    (inside : ∀ s log, (chunkRuns behind entry stdin).Reachable (s, log) → ∀ pid buf,
      (s.procs pid).scanned = some buf → 0 ∈ buf.bytes)
    (reads : (x.1.procs pid).pc = .read) : Short (x.1.stdin.headD []) := by
  obtain ⟨s, log⟩ := x
  rcases fed.head_mem with none | member
  · rw [none]
    exact short_nil
  obtain ⟨clean, room⟩ := fits _ member
  refine ⟨clean, Nat.lt_of_le_of_ne room fun full => ?_⟩
  have known : pid < s.nextPid := by
    by_contra above
    have exited := fed.flowing.unborn pid (Nat.le_of_not_lt above)
    rw [exited] at reads
    cases reads
  let p' : Process E := { s.procs pid with
    pc := .pipe1
    buf := (s.procs pid).buf.receive (s.stdin.headD []) }
  let u : State E := ({ s with stdin := s.stdin.tail } : State E).set pid p'
  have step : (plainRuns behind entry stdin).step (.run pid) s u :=
    run_step rfl (fed.flowing.read_eq behind known reads)
  have here : u.procs pid = p' := set_self _ _ _
  have known' : pid < u.nextPid := known
  obtain ⟨t, run, writes, buf⟩ := comes_to_write behind entry stdin known'
    (by rw [here]; exact List.mem_cons_self)
  obtain ⟨log', reach'⟩ := chunkRuns_run reach (Run.cons step run)
  have terminated : 0 ∈ (t.procs pid).buf.bytes :=
    inside t log' reach' pid _ (by simp only [Process.scanned, writes])
  -- `buf` was zero, and all of it is chunk now
  have empty := (fed.flowing.ready pid known).placed.buf (Or.inl reads)
  rw [buf, here] at terminated
  change 0 ∈ ((s.procs pid).buf.receive (s.stdin.headD [])).bytes at terminated
  rw [empty, Buffer.receive_zero room, padded, full, Nat.sub_self, List.replicate_zero,
    List.append_nil] at terminated
  exact clean terminated

/-- The round trip is exact for all that the processes read exactly when every chunk leaves
room for a NUL. -/
theorem roundTrips_iff_short (behind : List Byte) (standard : FirstOpen 2 entry)
    (fits : ∀ chunk ∈ stdin, 0 ∉ chunk ∧ chunk.length ≤ bufSize) :
    (∀ s log, (chunkRuns behind entry stdin).Reachable (s, log) →
      ∀ pid, RoundTrip behind entry stdin s log pid) ↔
      ∀ chunk ∈ stdin, chunk.length < bufSize := by
  constructor
  · intro exact chunk member
    have inside (s : State E) (log : List (Nat × List Byte))
        (reach : (chunkRuns behind entry stdin).Reachable (s, log)) (pid : Nat)
        (buf : Buffer bufSize) (scanned : (s.procs pid).scanned = some buf) : 0 ∈ buf.bytes :=
      (exact s log reach pid).inside buf scanned
    obtain ⟨n, below, rfl⟩ := List.mem_iff_getElem.mp member
    obtain ⟨s, ⟨r, start, run⟩, nextPid, ready⟩ := generations behind stdin standard n
    have first : (chunkRuns behind entry stdin).Reachable (r, []) :=
      Reachable.initial ⟨start, rfl⟩
    obtain ⟨log, reach⟩ := chunkRuns_run first run
    have fed : Fed stdin s log := reachable_fed standard reach fun x reached fed pid reads =>
      fed.head_short reached fits inside reads
    have count := (fed.flowing.newest n nextPid.symm).reads
    have short := fed.head_short reach fits inside ready.test
    rw [ready.test] at count
    have head : s.stdin.headD [] = stdin[n] := by
      have length : log.length = n := count
      rw [fed.left, length, List.drop_eq_getElem_cons below, List.headD_cons]
    rw [head] at short
    exact short.2
  · intro room s log reach pid
    have short (chunk : List Byte) (member : chunk ∈ stdin) : Short chunk :=
      ⟨(fits chunk member).1, room chunk member⟩
    exact (Fed.of_short standard short reach).flowing.roundTrip pid

end

private def fullChunk : List Byte := List.replicate bufSize 97

/-- The chunk `hi`. -/
theorem hi_comes_back : [104, 105].map toupper = [72, 73] ∧
    ∀ s log, (chunkRuns [] standardStreams [[104, 105]]).Reachable (s, log) →
      ∀ pid, RoundTrip [] standardStreams [[104, 105]] s log pid :=
  ⟨rfl, (roundTrips_iff_short [] (by decide) (by decide)).mpr (by decide)⟩

/-- 200 times the letter `a`, with no NUL behind them in `buf`. -/
theorem full_chunk_runs_out : ¬ ∀ (behind : List Byte) (entry : Table Nat)
    (stdin : List (List Byte)), FirstOpen 2 entry →
      (∀ chunk ∈ stdin, 0 ∉ chunk ∧ 1 ≤ chunk.length ∧ chunk.length ≤ bufSize) →
        ∀ s log, (chunkRuns behind entry stdin).Reachable (s, log) →
          ∀ pid, RoundTrip behind entry stdin s log pid := by
  intro claim
  have run : (follow (guarded Succeeds (next [])) (List.replicate 8 (.run 0))
      (State.initial standardStreams [fullChunk])).map
        (fun s => (s.procs 0).scanned.map fun buf => decide (0 ∈ buf.bytes)) =
      some (some false) := by
    decide +kernel
  obtain ⟨s, followed, scan⟩ := Option.map_eq_some_iff.mp run
  obtain ⟨buf, scanned, unterminated⟩ := Option.map_eq_some_iff.mp scan
  have start : (chunkRuns [] standardStreams [fullChunk]).Reachable
      (State.initial standardStreams [fullChunk], []) := Reachable.initial ⟨rfl, rfl⟩
  obtain ⟨log, reach⟩ := chunkRuns_run start (follow_guarded_run followed)
  have trip := claim [] standardStreams [fullChunk] (by decide) (by decide +kernel) s log reach 0
  have inside := trip.inside
    buf scanned
  exact absurd inside (of_decide_eq_false unterminated)

end BidirectionPipe
