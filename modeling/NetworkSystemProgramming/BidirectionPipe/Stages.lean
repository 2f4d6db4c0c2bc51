import NetworkSystemProgramming.BidirectionPipe.Generations

/-!
# How far the processes of the filter are

Which process has which descriptors and buffers at its next statement, in every run. Each
process forks one child and waits for it without end, so the `n`-th process that is forked
is the child of the one before it, and the pipes of the process `n` are the pipes `2 * n`
and `2 * n + 1`.
-/

namespace BidirectionPipe

open ByteBuffers DescriptorTables Pipes StepSystems StepSystem

variable {E : Type}

/-- How far a process is as a parent: in front of its `write`, between that and its `read`
of the answer, or behind that. -/
inductive ParentStage where
  | none
  | ahead
  | between
  | after
  deriving DecidableEq

/-- How far a process is as a child. -/
inductive ChildStage where
  | waits
  | took
  | turned
  | past
  deriving DecidableEq

def Pc.parentStage : Pc → ParentStage
  | .closeP1Read | .dupStdout | .write => .ahead
  | .closeP1Write | .closeP2Write | .dupStdin | .readBack => .between
  | .closeP2Read | .writeOut | .wait => .after
  | _ => .none

def Pc.childStage : Pc → ChildStage
  | .childCloseP1Write | .childDupStdin | .childRead => .waits
  | .childCloseP1Read | .childUpper => .took
  | .childCloseP2Read | .childDupStdout | .childWrite => .turned
  | _ => .past

/-- The pipes that are at hand are those of the parent. -/
def Pc.Inherits (pc : Pc) : Prop := pc.childStage ≠ .past ∨ pc = .childCloseP2Write

instance (pc : Pc) : Decidable pc.Inherits := inferInstanceAs (Decidable (_ ∨ _))

/-- The process whose two pipes are at hand. -/
def Pc.owner (pc : Pc) (n : Nat) : Nat := if pc.Inherits then n - 1 else n

/-- The ends of the pipes `A` and `A + 1` that the statements ahead still need. -/
def Process.ends (p : Process E) (A : Nat) : List (Nat × End E) :=
  match p.pc with
  | .pipe2 => [(p.p1.1, .read A), (p.p1.2, .write A)]
  | .fork | .closeP1Read | .childCloseP1Write =>
    [(p.p1.1, .read A), (p.p1.2, .write A), (p.p2.1, .read (A + 1)), (p.p2.2, .write (A + 1))]
  | .childDupStdin | .childRead | .childCloseP1Read =>
    [(p.p1.1, .read A), (p.p2.1, .read (A + 1)), (p.p2.2, .write (A + 1))]
  | .dupStdout | .write | .closeP1Write =>
    [(p.p1.2, .write A), (p.p2.1, .read (A + 1)), (p.p2.2, .write (A + 1))]
  | .childUpper | .childCloseP2Read | .closeP2Write =>
    [(p.p2.1, .read (A + 1)), (p.p2.2, .write (A + 1))]
  | .childDupStdout | .childWrite | .childCloseP2Write => [(p.p2.2, .write (A + 1))]
  | .dupStdin | .readBack | .closeP2Read => [(p.p2.1, .read (A + 1))]
  | _ => []

/-- A copy of a descriptor of the entry. -/
def Process.Saved (p : Process E) (fd : Nat) : Prop :=
  2 ≤ fd ∧ ∃ e, lookup p.fds fd = some (.entry e)

/-- What the statements ahead need of the buffers, and of the place of the process. -/
structure Placed (n : Nat) (p : Process E) : Prop where
  runs : p.pc ≠ .exited
  child : p.pc.childStage ≠ .past → 0 < n
  parent : p.pc.parentStage ≠ .none → p.pid = n + 1
  buf : p.pc = .read ∨ p.pc = .dupIn ∨ p.pc = .dupOut → p.buf = Buffer.zero bufSize
  childBuf : p.pc = .childRead → p.childBuf = Buffer.zero bufSize
  parentBuf : p.pc = .readBack → p.parentBuf = Buffer.zero bufSize

/-- What holds of the `n`-th process in front of its next statement. -/
structure Ready (n : Nat) (p : Process E) : Prop where
  placed : Placed n p
  low : ∀ fd < 2, lookup p.fds fd ≠ none
  entry : p.pc = .dupOut ∨ p.pc = .dupIn → ∀ fd < 2, ∃ e, lookup p.fds fd = some (.entry e)
  savedOut : p.pc ≠ .dupOut → p.Saved p.stdoutDup
  savedIn : p.pc ≠ .dupOut → p.pc ≠ .dupIn → p.Saved p.stdinDup
  ends : ∀ x ∈ p.ends (2 * p.pc.owner n),
    2 ≤ x.1 ∧ lookup p.fds x.1 = some x.2

/-- A change of a table that leaves stdin and stdout open, and above them what is not `lost`. -/
structure Spares (lost : Option (End E)) (t t' : Table (End E)) : Prop where
  low : ∀ fd < 2, lookup t fd ≠ none → lookup t' fd ≠ none
  high : ∀ fd x, 2 ≤ fd → lookup t fd = some x → lost ≠ some x → lookup t' fd = some x

theorem Spares.refl (t : Table (End E)) : Spares none t t := ⟨fun _ _ h => h, fun _ _ _ h _ => h⟩

theorem close_spares {t : Table (End E)} {fd : Nat} {x : End E} (above : 2 ≤ fd)
    (opened : lookup t fd = some x) : Spares (some x) t (DescriptorTables.close t fd) := by
  constructor
  · intro i below held
    rw [lookup_close_other (by omega)]
    exact held
  · intro i y _ held differ
    rw [lookup_close_other (fd_ne held opened fun same => differ (congrArg some same.symm))]
    exact held

theorem assign_spares (t : Table (End E)) {fd : Nat} (below : fd < 2) (x : End E) :
    Spares none t (assign t fd x) := by
  constructor
  · intro i _ held
    by_cases same : i = fd
    · simp [lookup_assign, same]
    · rw [lookup_assign, Function.update_of_ne same]
      exact held
  · intro i y above held _
    rw [lookup_assign, Function.update_of_ne (by omega)]
    exact held

theorem dup2_spares (p : Process E) (old : Nat) {new : Nat} (below : new < 2) (pc : Pc) :
    Spares none p.fds (p.dup2 old new pc).fds := by
  cases opened : lookup p.fds old with
  | none =>
    have same : (p.dup2 old new pc).fds = p.fds := by
      simp [Process.dup2, DescriptorTables.dup2, opened]
    rw [same]
    exact .refl p.fds
  | some x =>
    rw [dup2_fds opened]
    exact assign_spares p.fds below x

theorem allocPair_spares (t : Table (End E)) (x y : End E) :
    Spares none t (allocPair t x y).1 := by
  obtain ⟨-, -, old⟩ := allocPair_open t x y
  constructor
  · intro i _ held
    obtain ⟨z, opened⟩ := Option.ne_none_iff_exists'.mp held
    rw [(old i z opened).1]
    exact Option.some_ne_none z
  · intro i z _ held _
    exact (old i z held).1

section
variable {n : Nat} {p p' : Process E} {lost : Option (End E)}

theorem Process.Saved.next {fd : Nat} (saved : p.Saved fd) (spares : Spares lost p.fds p'.fds)
    (entries : ∀ e, lost ≠ some (.entry e)) : p'.Saved fd := by
  obtain ⟨above, e, opened⟩ := saved
  exact ⟨above, e, spares.high fd _ above opened (entries e)⟩

/-- A statement behind the two calls of `dup`. -/
theorem Ready.next (ready : Ready n p) (spares : Spares lost p.fds p'.fds)
    (entries : ∀ e, lost ≠ some (.entry e)) (started : p.pc ≠ .dupOut ∧ p.pc ≠ .dupIn)
    (started' : p'.pc ≠ .dupOut ∧ p'.pc ≠ .dupIn) (placed : Placed n p')
    (savedOut : p'.stdoutDup = p.stdoutDup) (savedIn : p'.stdinDup = p.stdinDup)
    (ends : ∀ x ∈ p'.ends (2 * p'.pc.owner n), 2 ≤ x.1 ∧ lookup p'.fds x.1 = some x.2) :
    Ready n p' := by
  constructor
  · exact placed
  · exact fun fd below => spares.low fd below (ready.low fd below)
  · rintro (out | again)
    · exact absurd out started'.1
    · exact absurd again started'.2
  · intro _
    rw [savedOut]
    exact (ready.savedOut started.1).next spares entries
  · intro _ _
    rw [savedIn]
    exact (ready.savedIn started.1 started.2).next spares entries
  · exact ends

/-- The ends that were needed before and are not lost. -/
theorem Ready.kept (ready : Ready n p) (spares : Spares lost p.fds p'.fds) {x : Nat × End E}
    (before : x ∈ p.ends (2 * p.pc.owner n)) (kept : lost ≠ some x.2) :
    2 ≤ x.1 ∧ lookup p'.fds x.1 = some x.2 := by
  obtain ⟨above, opened⟩ := ready.ends x before
  exact ⟨above, spares.high x.1 x.2 above opened kept⟩

end

/-! ## What is on the way -/

/-- The chunk that a process got from the original stdin last. -/
def lastRead (log : List (Nat × List Byte)) (pid : Nat) : Option (List Byte) :=
  (log.filter (·.1 = pid)).getLast?.map (·.2)

theorem lastRead_own (log : List (Nat × List Byte)) (pid : Nat) (c : List Byte) :
    lastRead (log ++ [(pid, c)]) pid = some c := by
  simp [lastRead]

theorem lastRead_other (log : List (Nat × List Byte)) {pid n : Nat} (ne : n ≠ pid) (c : List Byte) :
    lastRead (log ++ [(pid, c)]) n = lastRead log n := by
  simp [lastRead, ne.symm]

/-- A chunk that leaves room for a NUL. -/
def Short (chunk : List Byte) : Prop := 0 ∉ chunk ∧ chunk.length < bufSize

/-- Where the chunk `c` of a parent is: the parent, its child, and what their pipes hold. -/
inductive Passing (c : List Byte) : Process E → Process E → List Byte → List Byte → Prop
  | ahead {p q} (parent : p.pc.parentStage = .ahead) (child : q.pc.childStage = .waits)
      (buf : p.buf.bytes = padded bufSize c) : Passing c p q [] []
  | handed {p q} (parent : p.pc.parentStage = .between) (child : q.pc.childStage = .waits) :
      Passing c p q (c ++ [0]) []
  | taken {p q} (parent : p.pc.parentStage = .between) (child : q.pc.childStage = .took)
      (buf : q.childBuf.bytes = padded bufSize c) : Passing c p q [] []
  | turned {p q} (parent : p.pc.parentStage = .between) (child : q.pc.childStage = .turned)
      (buf : q.childBuf.bytes = padded bufSize (c.map toupper)) : Passing c p q [] []
  | answered {p q} (parent : p.pc.parentStage = .between) (child : q.pc.childStage = .past) :
      Passing c p q [] (c.map toupper)
  | done {p q pipeB} (parent : p.pc.parentStage = .after) (child : q.pc.childStage = .past)
      (buf : p.parentBuf.bytes = padded bufSize (c.map toupper)) : Passing c p q [] pipeB

/-- The pipes that a process has made for its fork. -/
def Pc.made : Pc → Nat
  | .pipe2 => 1
  | .fork => 2
  | _ => 0

/-- The chunks that a process has got and not handed to a child. -/
def Pc.got : Pc → Nat
  | .pipe1 | .pipe2 | .fork => 1
  | _ => 0

theorem Pc.made_of_got {pc : Pc} (none : pc.got = 0) : pc.made = 0 := by
  revert none
  cases pc <;> decide

/-- The process that was forked last. -/
structure Newest (log : List (Nat × List Byte)) (nextPipe : Nat) (pipes : Nat → List Byte) (n : Nat)
    (p : Process E) : Prop where
  stage : p.pc.parentStage = .none
  count : nextPipe = 2 * n + p.pc.made
  reads : log.length = n + p.pc.got
  chunk : p.pc = .pipe1 ∨ p.pc = .pipe2 ∨ p.pc = .fork →
    ∃ c, lastRead log n = some c ∧ Short c ∧ p.buf.bytes = padded bufSize c
  pipeA : p.pc = .pipe2 ∨ p.pc = .fork → pipes (2 * n) = []
  pipeB : p.pc = .fork → pipes (2 * n + 1) = []

/-- The invariant of the runs. -/
structure Flowing (s : State E) (log : List (Nat × List Byte)) : Prop where
  started : 0 < s.nextPid
  ready : ∀ n < s.nextPid, Ready n (s.procs n)
  unborn : ∀ n, s.nextPid ≤ n → (s.procs n).pc = .exited
  pairs : ∀ n, n + 1 < s.nextPid → ∃ c, lastRead log n = some c ∧ Short c ∧
    Passing c (s.procs n) (s.procs (n + 1)) (s.pipes (2 * n)) (s.pipes (2 * n + 1))
  newest : ∀ n, n + 1 = s.nextPid → Newest log s.nextPipe s.pipes n (s.procs n)

section
variable {s : State E} {log : List (Nat × List Byte)} {pid : Nat} {p p' : Process E}

theorem Passing.forked {c pipeA pipeB : List Byte} {q : Process E}
    (passing : Passing c p q pipeA pipeB) : p.pc.parentStage ≠ .none := by
  cases passing <;> simp_all

theorem Flowing.last (flowing : Flowing s log) (known : pid < s.nextPid)
    (stage : (s.procs pid).pc.parentStage = .none) : pid + 1 = s.nextPid := by
  rcases Nat.lt_or_eq_of_le (Nat.succ_le_of_lt known) with below | last
  · obtain ⟨_, _, _, passing⟩ := flowing.pairs pid below
    exact absurd stage passing.forked
  · exact last

/-- What is known while the parent has not written. -/
theorem Passing.of_ahead {c pipeA pipeB : List Byte} {q : Process E}
    (passing : Passing c p q pipeA pipeB) (stage : p.pc.parentStage = .ahead) :
    q.pc.childStage = .waits ∧ p.buf.bytes = padded bufSize c ∧ pipeA = [] ∧ pipeB = [] := by
  cases passing <;> simp_all

theorem Passing.of_waits {c pipeA pipeB : List Byte} {q : Process E}
    (passing : Passing c p q pipeA pipeB) (stage : q.pc.childStage = .waits) :
    p.pc.parentStage = .ahead ∧ pipeA = [] ∨
      p.pc.parentStage = .between ∧ pipeA = c ++ [0] ∧ pipeB = [] := by
  cases passing <;> simp_all

theorem Passing.of_took {c pipeA pipeB : List Byte} {q : Process E}
    (passing : Passing c p q pipeA pipeB) (stage : q.pc.childStage = .took) :
    p.pc.parentStage = .between ∧ q.childBuf.bytes = padded bufSize c ∧ pipeA = [] ∧
      pipeB = [] := by
  cases passing <;> simp_all

theorem Passing.of_turned {c pipeA pipeB : List Byte} {q : Process E}
    (passing : Passing c p q pipeA pipeB) (stage : q.pc.childStage = .turned) :
    p.pc.parentStage = .between ∧ q.childBuf.bytes = padded bufSize (c.map toupper) ∧
      pipeA = [] ∧ pipeB = [] := by
  cases passing <;> simp_all

/-- While the parent waits for the answer, either the child has not written, or the answer is
in the second pipe. -/
theorem Passing.of_between {c pipeA pipeB : List Byte} {q : Process E}
    (passing : Passing c p q pipeA pipeB) (stage : p.pc.parentStage = .between) :
    q.pc.childStage ≠ .past ∧ pipeB = [] ∨
      q.pc.childStage = .past ∧ pipeA = [] ∧ pipeB = c.map toupper := by
  cases passing <;> simp_all

theorem Passing.of_after {c pipeA pipeB : List Byte} {q : Process E}
    (passing : Passing c p q pipeA pipeB) (stage : p.pc.parentStage = .after) :
    p.parentBuf.bytes = padded bufSize (c.map toupper) := by
  cases passing <;> simp_all

/-- A process with a parent's stage is not the one that was forked last. -/
theorem Flowing.below (flowing : Flowing s log) (known : pid < s.nextPid)
    (parent : (s.procs pid).pc.parentStage ≠ .none) : pid + 1 < s.nextPid := by
  rcases Nat.lt_or_eq_of_le (Nat.succ_le_of_lt known) with below | last
  · exact below
  · exact absurd (flowing.newest pid last).stage parent

theorem Pc.owner_parent {pc : Pc} (parent : pc.parentStage ≠ .none) (n : Nat) : pc.owner n = n := by
  cases pc <;> first | rfl | exact absurd rfl parent

theorem Pc.owner_child {pc : Pc} (child : pc.childStage ≠ .past) (n : Nat) :
    pc.owner (n + 1) = n := if_pos (Or.inl child)

/-- The ends of its pipes that a process needs as a parent are open. -/
theorem Flowing.parent_holds (flowing : Flowing s log) {n : Nat} (known : n < s.nextPid)
    (parent : (s.procs n).pc.parentStage ≠ .none) {x : Nat × End E}
    (needed : x ∈ (s.procs n).ends (2 * n)) :
    lookup (s.procs n).fds x.1 = some x.2 ∧ Held s.tables s.nextPid x.2 := by
  have opened : lookup (s.procs n).fds x.1 = some x.2 := by
    refine ((flowing.ready n known).ends x ?_).2
    rw [Pc.owner_parent parent]
    exact needed
  exact ⟨opened, n, known, x.1, opened⟩

theorem Flowing.child_holds (flowing : Flowing s log) {n : Nat} (known : n + 1 < s.nextPid)
    (child : (s.procs (n + 1)).pc.childStage ≠ .past) {x : Nat × End E}
    (needed : x ∈ (s.procs (n + 1)).ends (2 * n)) :
    lookup (s.procs (n + 1)).fds x.1 = some x.2 ∧ Held s.tables s.nextPid x.2 := by
  have opened : lookup (s.procs (n + 1)).fds x.1 = some x.2 := by
    refine ((flowing.ready (n + 1) known).ends x ?_).2
    rw [Pc.owner_child child]
    exact needed
  exact ⟨opened, n + 1, known, x.1, opened⟩

theorem ends_ahead {p : Process E} (stage : p.pc.parentStage = .ahead) (A : Nat) :
    (p.p1.2, .write A) ∈ p.ends A := by
  cases pc : p.pc <;> simp_all [Pc.parentStage, Process.ends]

theorem ends_between {p : Process E} (stage : p.pc.parentStage = .between) (A : Nat) :
    (p.p2.1, .read (A + 1)) ∈ p.ends A := by
  cases pc : p.pc <;> simp_all [Pc.parentStage, Process.ends]

theorem ends_waits {p : Process E} (stage : p.pc.childStage = .waits) (A : Nat) :
    (p.p1.1, .read A) ∈ p.ends A := by
  cases pc : p.pc <;> simp_all [Pc.childStage, Process.ends]

theorem ends_child {p : Process E} (stage : p.pc.childStage ≠ .past) (A : Nat) :
    (p.p2.2, .write (A + 1)) ∈ p.ends A := by
  cases pc : p.pc <;> simp_all [Pc.childStage, Process.ends]

/-- One process goes on, and the pipes that it shares with its parent and its child change
as they should. Only the process that was forked last reads stdin or makes a pipe. -/
theorem Flowing.update (flowing : Flowing s log) (known : pid < s.nextPid) (ready : Ready pid p')
    {t : State E} {log' : List (Nat × List Byte)} (procs : t.procs = Function.update s.procs pid p')
    (nextPid : t.nextPid = s.nextPid)
    (others : ∀ n, n ≠ pid → n + 1 ≠ pid →
      t.pipes (2 * n) = s.pipes (2 * n) ∧ t.pipes (2 * n + 1) = s.pipes (2 * n + 1))
    (asParent : ∀ c, lastRead log pid = some c → Short c →
      Passing c (s.procs pid) (s.procs (pid + 1)) (s.pipes (2 * pid)) (s.pipes (2 * pid + 1)) →
      Passing c p' (s.procs (pid + 1)) (t.pipes (2 * pid)) (t.pipes (2 * pid + 1)))
    (asChild : ∀ c n, n + 1 = pid → lastRead log n = some c → Short c →
      Passing c (s.procs n) (s.procs pid) (s.pipes (2 * n)) (s.pipes (2 * n + 1)) →
      Passing c (s.procs n) p' (t.pipes (2 * n)) (t.pipes (2 * n + 1)))
    (reads : ∀ n, n + 1 < s.nextPid → lastRead log' n = lastRead log n)
    (older : pid + 1 ≠ s.nextPid → t.nextPipe = s.nextPipe ∧ log' = log)
    (newest : Newest log s.nextPipe s.pipes pid (s.procs pid) →
      Newest log' t.nextPipe t.pipes pid p') : Flowing t log' := by
  constructor
  · rw [nextPid]
    exact flowing.started
  · intro n below
    rw [nextPid] at below
    by_cases same : n = pid
    · subst same
      rw [procs, Function.update_self]
      exact ready
    · rw [procs, Function.update_of_ne same]
      exact flowing.ready n below
  · intro n above
    rw [nextPid] at above
    rw [procs, Function.update_of_ne (by omega)]
    exact flowing.unborn n above
  · intro n below
    rw [nextPid] at below
    obtain ⟨c, read, short, passing⟩ := flowing.pairs n below
    refine ⟨c, (reads n below).trans read, short, ?_⟩
    by_cases parent : n = pid
    · subst parent
      rw [procs, Function.update_self, Function.update_of_ne (Nat.succ_ne_self n)]
      exact asParent c read short passing
    · by_cases child : n + 1 = pid
      · rw [child] at passing
        rw [procs, Function.update_of_ne parent, child, Function.update_self]
        exact asChild c n child read short passing
      · obtain ⟨sameA, sameB⟩ := others n parent child
        rw [procs, Function.update_of_ne parent, Function.update_of_ne child, sameA, sameB]
        exact passing
  · intro n last
    rw [nextPid] at last
    have old := flowing.newest n last
    by_cases same : n = pid
    · subst same
      rw [procs, Function.update_self]
      exact newest old
    · obtain ⟨sameA, sameB⟩ := others n same (by omega)
      obtain ⟨count, log⟩ := older (by omega)
      rw [procs, Function.update_of_ne same, count, log]
      refine ⟨old.stage, old.count, old.reads, old.chunk, ?_, ?_⟩
      · rw [sameA]
        exact old.pipeA
      · rw [sameB]
        exact old.pipeB

/-- The buffers that the stages of a process speak of stay as they are. -/
structure SameBuffers (p p' : Process E) : Prop where
  buf : p.pc.parentStage = .ahead → p'.buf = p.buf
  childBuf : p.pc.childStage ≠ .waits → p'.childBuf = p.childBuf
  parentBuf : p.pc.parentStage ≠ .between → p'.parentBuf = p.parentBuf

theorem Passing.parent_within {c pipeA pipeB : List Byte} {q : Process E}
    (stage : p'.pc.parentStage = p.pc.parentStage) (same : SameBuffers p p')
    (passing : Passing c p q pipeA pipeB) : Passing c p' q pipeA pipeB := by
  cases passing with
  | ahead parent child buf => exact .ahead (stage.trans parent) child (same.buf parent ▸ buf)
  | handed parent child => exact .handed (stage.trans parent) child
  | taken parent child buf => exact .taken (stage.trans parent) child buf
  | turned parent child buf => exact .turned (stage.trans parent) child buf
  | answered parent child => exact .answered (stage.trans parent) child
  | done parent child buf =>
    refine .done (stage.trans parent) child ?_
    rw [same.parentBuf (by simp [parent])]
    exact buf

theorem Passing.child_within {c pipeA pipeB : List Byte} {q : Process E}
    (stage : p'.pc.childStage = p.pc.childStage) (same : SameBuffers p p')
    (passing : Passing c q p pipeA pipeB) : Passing c q p' pipeA pipeB := by
  cases passing with
  | ahead parent child buf => exact .ahead parent (stage.trans child) buf
  | handed parent child => exact .handed parent (stage.trans child)
  | taken parent child buf =>
    refine .taken parent (stage.trans child) ?_
    rw [same.childBuf (by simp [child])]
    exact buf
  | turned parent child buf =>
    refine .turned parent (stage.trans child) ?_
    rw [same.childBuf (by simp [child])]
    exact buf
  | answered parent child => exact .answered parent (stage.trans child)
  | done parent child buf => exact .done parent (stage.trans child) buf

/-- A statement that takes a process from `a` to `b` within its stages. -/
def Pc.Within (a b : Pc) : Prop :=
  b.parentStage = a.parentStage ∧ b.childStage = a.childStage ∧ a.got = 0 ∧ b.got = 0

instance (a b : Pc) : Decidable (a.Within b) := inferInstanceAs (Decidable (_ ∧ _))

/-- A process that has no chunk and no pipes of its own at hand. -/
theorem Newest.idle {nextPipe n : Nat} {pipes pipes' : Nat → List Byte}
    (newest : Newest log nextPipe pipes n p) (parent : p'.pc.parentStage = .none)
    (old : p.pc.got = 0) (new : p'.pc.got = 0) : Newest log nextPipe pipes' n p' := by
  refine ⟨parent, ?_, ?_, ?_, ?_, ?_⟩
  · rw [Pc.made_of_got new, newest.count, Pc.made_of_got old]
  · rw [new, newest.reads, old]
  · rintro (here | here | here) <;> simp [here, Pc.got] at new
  · rintro (here | here) <;> simp [here, Pc.got] at new
  · intro here
    simp [here, Pc.got] at new

theorem Flowing.within (flowing : Flowing s log) (known : pid < s.nextPid) (p' : Process E)
    (ready : Ready pid p') (within : (s.procs pid).pc.Within p'.pc)
    (same : SameBuffers (s.procs pid) p') (out : List Byte) :
    Flowing { s with procs := Function.update s.procs pid p', stdout := out } log := by
  obtain ⟨parent, child, old, new⟩ := within
  exact flowing.update known ready rfl rfl (fun _ _ _ => ⟨rfl, rfl⟩)
    (fun _ _ _ passing => passing.parent_within parent same)
    (fun _ _ _ _ _ passing => passing.child_within child same) (fun _ _ => rfl)
    (fun _ => ⟨rfl, rfl⟩)
    (fun newest => newest.idle (parent.trans newest.stage) old new)

/-- A parent goes on to its next stage, with a change of one of its two pipes. -/
theorem Flowing.parent_step (flowing : Flowing s log) (known : pid < s.nextPid)
    (ready : Ready pid p') (stage : (s.procs pid).pc.parentStage ≠ .none)
    (child : p'.pc.childStage = (s.procs pid).pc.childStage) (same : SameBuffers (s.procs pid) p')
    {c : List Byte} (read : lastRead log pid = some c) {pipe : Nat} {bytes : List Byte}
    (own : pipe = 2 * pid ∨ pipe = 2 * pid + 1)
    (passing : Passing c p' (s.procs (pid + 1)) (Function.update s.pipes pipe bytes (2 * pid))
      (Function.update s.pipes pipe bytes (2 * pid + 1))) :
    Flowing ((s.setPipe pipe bytes).set pid p') log := by
  refine flowing.update known ready rfl rfl ?_ ?_ ?_ (fun _ _ => rfl) (fun _ => ⟨rfl, rfl⟩) ?_
  · intro m other _
    exact ⟨Function.update_of_ne (by omega) _ _, Function.update_of_ne (by omega) _ _⟩
  · intro c' read' _ _
    obtain rfl : c' = c := Option.some.inj (read'.symm.trans read)
    exact passing
  · intro c' m before _ _ passing'
    change Passing c' _ p' (Function.update s.pipes _ _ _) (Function.update s.pipes _ _ _)
    rw [Function.update_of_ne (by omega), Function.update_of_ne (by omega)]
    exact passing'.child_within child same
  · exact fun newest => absurd newest.stage stage

theorem Pc.of_child {pc : Pc} (child : pc.childStage ≠ .past) :
    pc.parentStage = .none ∧ pc.got = 0 := by
  revert child
  cases pc <;> decide

/-- A child goes on to its next stage, with a change of one of the pipes of its parent. -/
theorem Flowing.child_step {n : Nat} (flowing : Flowing s log) (known : n + 1 < s.nextPid)
    (ready : Ready (n + 1) p') (stage : (s.procs (n + 1)).pc.childStage ≠ .past)
    (idle : p'.pc.parentStage = .none ∧ p'.pc.got = 0) {c : List Byte}
    (read : lastRead log n = some c) {pipe : Nat} {bytes : List Byte}
    (own : pipe = 2 * n ∨ pipe = 2 * n + 1)
    (passing : Passing c (s.procs n) p' (Function.update s.pipes pipe bytes (2 * n))
      (Function.update s.pipes pipe bytes (2 * n + 1))) :
    Flowing ((s.setPipe pipe bytes).set (n + 1) p') log := by
  obtain ⟨parent, got⟩ := Pc.of_child stage
  refine flowing.update known ready rfl rfl ?_ ?_ ?_ (fun _ _ => rfl) (fun _ => ⟨rfl, rfl⟩) ?_
  · intro m _ other
    exact ⟨Function.update_of_ne (by omega) _ _, Function.update_of_ne (by omega) _ _⟩
  · exact fun _ _ _ passing => absurd parent passing.forked
  · intro c' m before read' _ _
    obtain rfl : m = n := Nat.succ_inj.mp before
    obtain rfl : c' = c := Option.some.inj (read'.symm.trans read)
    exact passing
  · exact fun newest => newest.idle idle.1 got idle.2

/-- The same behind the two calls of `dup`, where the table loses at most one end. -/
def Pc.Moves (a b : Pc) : Prop :=
  a.Within b ∧ a ∉ [.dupOut, .dupIn] ∧ b ∉ [.dupOut, .dupIn, .exited, .read]

instance (a b : Pc) : Decidable (a.Moves b) := inferInstanceAs (Decidable (_ ∧ _))

/-- The other parts of a process that such a statement leaves as they are. -/
structure SameFds (p p' : Process E) : Prop where
  pid : p'.pid = p.pid
  stdoutDup : p'.stdoutDup = p.stdoutDup
  stdinDup : p'.stdinDup = p.stdinDup

/-- A statement behind the two calls of `dup` that leaves the table as it is, and in front of
which no more is asked of the place of the process. -/
def Pc.Keeps (a b : Pc) : Prop :=
  a ∉ [.dupOut, .dupIn] ∧ b ∉ [.dupOut, .dupIn, .exited, .read, .childRead, .readBack] ∧
    (b.childStage ≠ .past → a.childStage ≠ .past) ∧
      (b.parentStage ≠ .none → a.parentStage ≠ .none) ∧ (b.Inherits ↔ a.Inherits)

instance (a b : Pc) : Decidable (a.Keeps b) := inferInstanceAs (Decidable (_ ∧ _))

theorem Ready.keep {n : Nat} (ready : Ready n p) (keeps : p.pc.Keeps p'.pc) (table : p'.fds = p.fds)
    (fds : SameFds p p') (ends : ∀ A, p'.ends A ⊆ p.ends A) : Ready n p' := by
  obtain ⟨started, started', child, parent, owner⟩ := keeps
  simp only [List.mem_cons, List.not_mem_nil, or_false, not_or] at started started'
  obtain ⟨notOut, notIn, runs, notRead, notChild, notBack⟩ := started'
  have spares : Spares none p.fds p'.fds := by
    rw [table]
    exact .refl p.fds
  have placed : Placed n p' := by
    refine ⟨runs, fun stage => ready.placed.child (child stage), ?_, ?_, ?_, ?_⟩
    · intro stage
      rw [fds.pid]
      exact ready.placed.parent (parent stage)
    · rintro (reads | again | out)
      · exact absurd reads notRead
      · exact absurd again notIn
      · exact absurd out notOut
    · exact fun reads => absurd reads notChild
    · exact fun reads => absurd reads notBack
  refine ready.next spares (fun _ => nofun) started ⟨notOut, notIn⟩ placed fds.stdoutDup
    fds.stdinDup ?_
  intro x needed
  have same : p'.pc.owner n = p.pc.owner n := by simp only [Pc.owner, owner]
  rw [same] at needed
  exact ready.kept spares (ends _ needed) nofun

theorem Flowing.moves (flowing : Flowing s log) (known : pid < s.nextPid) (p' : Process E)
    {lost : Option (End E)} (moves : (s.procs pid).pc.Moves p'.pc)
    (spares : Spares lost (s.procs pid).fds p'.fds) (entries : ∀ e, lost ≠ some (.entry e))
    (fds : SameFds (s.procs pid) p') (same : SameBuffers (s.procs pid) p')
    (childBuf : p'.pc = .childRead → p'.childBuf = Buffer.zero bufSize)
    (parentBuf : p'.pc = .readBack → p'.parentBuf = Buffer.zero bufSize)
    (ends : ∀ x ∈ p'.ends (2 * p'.pc.owner pid),
      x ∈ (s.procs pid).ends (2 * (s.procs pid).pc.owner pid) ∧ lost ≠ some x.2)
    (out : List Byte) :
    Flowing { s with procs := Function.update s.procs pid p', stdout := out } log := by
  have ready := flowing.ready pid known
  obtain ⟨within, old, new⟩ := moves
  have ⟨parent, child, _⟩ := within
  simp only [List.mem_cons, List.not_mem_nil, or_false, not_or] at old new
  obtain ⟨notOut', notIn', notExited, notRead⟩ := new
  have placed : Placed pid p' := by
    refine ⟨notExited, ?_, ?_, ?_, childBuf, parentBuf⟩
    · rw [child]
      exact ready.placed.child
    · rw [parent, fds.pid]
      exact ready.placed.parent
    · simp [notRead, notIn', notOut']
  have ready' : Ready pid p' := by
    refine ready.next spares entries old ⟨notOut', notIn'⟩ placed fds.stdoutDup fds.stdinDup ?_
    intro x needed
    obtain ⟨before, kept⟩ := ends x needed
    exact ready.kept spares before kept
  exact flowing.within known p' ready' within same out

theorem ends_distinct (p : Process E) (A : Nat) :
    ((p.ends A).map Prod.snd).Nodup ∧ ∀ x ∈ p.ends A, ∀ e, x.2 ≠ .entry e := by
  cases pc : p.pc <;> simp [Process.ends, pc]

/-- `close` of the `k`-th of the ends, when the statements behind need the others. -/
theorem Flowing.close (flowing : Flowing s log) (known : pid < s.nextPid) (k : Nat) {fd : Nat}
    {pc : Pc} (moves : (s.procs pid).pc.Moves pc)
    (calm : pc ≠ .childRead ∧ pc ≠ .readBack) {A : Nat}
    (pipe : 2 * (s.procs pid).pc.owner pid = A)
    (closed : ((s.procs pid).ends A)[k]?.map Prod.fst = some fd)
    (rest : ((s.procs pid).close fd pc).ends (2 * pc.owner pid) =
      ((s.procs pid).ends A).eraseIdx k) :
    Flowing (s.set pid ((s.procs pid).close fd pc)) log := by
  obtain ⟨⟨_, x⟩, kth, rfl⟩ := Option.map_eq_some_iff.mp closed
  have needed := List.mem_of_getElem? kth
  obtain ⟨distinct, pipes⟩ := ends_distinct (s.procs pid) A
  have ready := (flowing.ready pid known).ends
  rw [pipe] at ready
  obtain ⟨above, opened⟩ := ready _ needed
  refine flowing.moves known ((s.procs pid).close _ pc) moves (close_spares above opened)
    (fun e same => pipes _ needed e (Option.some.inj same))
    ⟨rfl, rfl, rfl⟩ ⟨fun _ => rfl, fun _ => rfl, fun _ => rfl⟩ (fun h => absurd h calm.1)
    (fun h => absurd h calm.2) ?_ s.stdout
  intro y member
  rw [pipe]
  change y ∈ ((s.procs pid).close _ pc).ends (2 * pc.owner pid) at member
  rw [rest] at member
  refine ⟨List.mem_of_mem_eraseIdx member, fun same => ?_⟩
  obtain ⟨i, other, here⟩ := List.mem_eraseIdx_iff_getElem?.mp member
  have inside : i < ((s.procs pid).ends A |>.map Prod.snd).length := by
    rw [List.length_map]
    exact (List.getElem?_eq_some_iff.mp here).1
  refine other ((List.getElem?_inj inside distinct).mp ?_)
  rw [List.getElem?_map, List.getElem?_map, here, kth, Option.map_some, Option.map_some, same]

end

end BidirectionPipe
