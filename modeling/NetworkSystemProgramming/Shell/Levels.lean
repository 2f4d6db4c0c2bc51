import NetworkSystemProgramming.Shell.Pipeline

/-!
# The levels of the recursion

At level `k` process 0 has run `k` stages in children that have ended, its stdin is the
pipe that the last of them filled, and its other descriptors are those at entry. Every
reachable state is in a phase of some level. The invariant has a parameter: when `strict`
holds, no call has failed, and the phases also say what has been exec'd.
-/

namespace Shell

open DescriptorTables StepSystems StepSystem

variable {E : Type}

/-! ## Descriptors -/

/-- What the stdin of stage `k` refers to. -/
def feed (w : World E) : Nat → Option (End E)
  | 0 => (lookup w.entry 0).map .entry
  | k + 1 => some (.read k)

/-- The descriptors of process 0 at the start of level `k`. -/
def base (w : World E) (k : Nat) : Nat → Option (End E) :=
  Function.update (fun fd => (lookup w.entry fd).map .entry) 0 (feed w k)

/-- And with both ends of the pipe of the level. -/
def piped (w : World E) (k : Nat) (pfd : Nat × Nat) : Nat → Option (End E) :=
  Function.update (Function.update (base w k) pfd.1 (some (.read k))) pfd.2 (some (.write k))

/-- The descriptors of the left side when it is exec'd. -/
def leftBase (w : World E) (k : Nat) : Nat → Option (End E) :=
  Function.update (base w k) 1 (some (.write k))

/-- The descriptors 0, 1 and 2 are open at entry. -/
def StandardOpen (w : World E) : Prop := FirstOpen 3 w.entry

/-- Two descriptors that are free at entry. -/
structure Free (w : World E) (pfd : Nat × Nat) : Prop where
  differ : pfd.1 ≠ pfd.2
  readBig : 3 ≤ pfd.1
  writeBig : 3 ≤ pfd.2
  readFree : lookup w.entry pfd.1 = none
  writeFree : lookup w.entry pfd.2 = none

section
variable {w : World E} {k : Nat} {pfd : Nat × Nat}

theorem base_one : base w k 1 = (lookup w.entry 1).map .entry := rfl

theorem base_of_free {fd : Nat} (big : 3 ≤ fd) (free : lookup w.entry fd = none) :
    base w k fd = none := by
  have positive : fd ≠ 0 := by omega
  rw [base, Function.update_of_ne positive, free, Option.map_none]

theorem base_next : Function.update (base w k) 0 (some (.read k)) = base w (k + 1) := by
  rw [base, Function.update_idem]
  rfl

theorem not_holds_base (j : Nat) : ¬ ∃ fd, base w k fd = some (.write j) := by
  intro held
  rcases holds_of_update held with stdin | ⟨fd, other⟩
  · cases k with
    | zero =>
      rw [feed, Option.map_eq_some_iff] at stdin
      obtain ⟨e, -, same⟩ := stdin
      cases same
    | succ k => cases stdin
  · rw [Option.map_eq_some_iff] at other
    obtain ⟨e, -, same⟩ := other
    cases same

/-- Only the write end of the own pipe is open at a level. -/
theorem not_holds_piped {j : Nat} (ne : j ≠ k) : ¬ ∃ fd, piped w k pfd fd = some (.write j) := by
  intro held
  rcases holds_of_update held with own | held
  · cases own
    exact ne rfl
  · rcases holds_of_update held with own | held
    · cases own
    · exact not_holds_base j held

/-- The standard descriptors are not those of the new pipe. -/
theorem piped_small (free : Free w pfd) {fd : Nat} (small : fd < 3) :
    piped w k pfd fd = base w k fd := by
  have := free.readBig
  have := free.writeBig
  rw [piped, Function.update_of_ne (by omega), Function.update_of_ne (by omega)]

theorem not_holds_leftBase {j : Nat} (ne : j ≠ k) : ¬ ∃ fd, leftBase w k fd = some (.write j) := by
  intro held
  rcases holds_of_update held with own | held
  · cases own
    exact ne rfl
  · exact not_holds_base j held

theorem allocPair_base (std : StandardOpen w) {fds : Table (End E)}
    (table : lookup fds = base w k) :
    Free w (allocPair fds (.read k) (.write k)).2 ∧
      lookup (allocPair fds (.read k) (.write k)).1 =
        piped w k (allocPair fds (.read k) (.write k)).2 := by
  obtain ⟨a, b, pfd, differ, freeA, freeB, after⟩ :=
    allocPair_spec fds (End.read k : End E) (.write k)
  have big : ∀ fd, lookup fds fd = none → 3 ≤ fd ∧ lookup w.entry fd = none := by
    intro fd free
    rw [table, base] at free
    have other : fd ≠ 0 := by
      rintro rfl
      rw [Function.update_self] at free
      cases k with
      | zero => exact std 0 (by omega) (Option.map_eq_none_iff.mp free)
      | succ k => cases free
    rw [Function.update_of_ne other, Option.map_eq_none_iff] at free
    have notSmall : ¬ fd < 3 := fun small => std fd small free
    exact ⟨by omega, free⟩
  rw [pfd, after, table]
  exact ⟨⟨differ, (big a freeA).1, (big b freeB).1, (big a freeA).2, (big b freeB).2⟩, rfl⟩

/-! The statements of the parent and of the child, as updates of these tables. -/

theorem piped_closeWrite (free : Free w pfd) :
    Function.update (piped w k pfd) pfd.2 none =
      Function.update (base w k) pfd.1 (some (.read k)) := by
  rw [piped, Function.update_idem]
  have closed : Function.update (base w k) pfd.1 (some (.read k)) pfd.2 = none := by
    rw [Function.update_of_ne free.differ.symm, base_of_free free.writeBig free.writeFree]
  exact Function.update_eq_self_iff.mpr closed.symm

theorem dupRead_table (free : Free w pfd) :
    Function.update (Function.update (base w k) pfd.1 (some (.read k))) 0 (some (.read k)) =
      Function.update (base w (k + 1)) pfd.1 (some (.read k)) := by
  have other : pfd.1 ≠ 0 := by have := free.readBig; omega
  rw [Function.update_comm other, base_next]

theorem closeRead_table (free : Free w pfd) :
    Function.update (Function.update (base w (k + 1)) pfd.1 (some (.read k))) pfd.1 none =
      base w (k + 1) := by
  rw [Function.update_idem]
  exact Function.update_eq_self_iff.mpr (base_of_free free.readBig free.readFree).symm

theorem piped_closeRead (free : Free w pfd) :
    Function.update (piped w k pfd) pfd.1 none =
      Function.update (base w k) pfd.2 (some (.write k)) := by
  rw [piped, Function.update_comm free.differ.symm, Function.update_idem]
  congr 1
  exact Function.update_eq_self_iff.mpr (base_of_free free.readBig free.readFree).symm

theorem childCloseWrite_table (free : Free w pfd) :
    Function.update (Function.update (Function.update (base w k) pfd.2 (some (.write k))) 1
      (some (.write k))) pfd.2 none = leftBase w k := by
  have other : pfd.2 ≠ 1 := by have := free.writeBig; omega
  rw [Function.update_comm other, Function.update_idem, leftBase]
  have closed : Function.update (base w k) 1 (some (.write k)) pfd.2 = none := by
    rw [Function.update_of_ne other, base_of_free free.writeBig free.writeFree]
  exact Function.update_eq_self_iff.mpr closed.symm

end

/-! ## What has been exec'd -/

/-- The `i`-th successful `execvp` is that of stage `i`. -/
structure StageAt (w : World E) (stages : List (List Word)) (i : Nat) (e : Exec E) : Prop where
  pid : e.pid = if i + 1 = stages.length then 0 else i + 1
  words : stages[i]? = some (leadingWords e.argv)
  stdin : lookup e.fds 0 = feed w i
  stdout : lookup e.fds 1 =
    if i + 1 = stages.length then (lookup w.entry 1).map .entry else some (.write i)
  /-- Nobody holds a write end of the pipe that feeds the stage. -/
  writers : ∀ j pid, i = j + 1 → ¬ Holds (e.tables pid) (.write j)

structure Executed (w : World E) (stages : List (List Word)) (n : Nat) (execs : List (Exec E)) :
    Prop where
  length : execs.length = n
  stage : ∀ i e, execs[i]? = some e → StageAt w stages i e

/-- The outputs of the first `n` stages fit in their pipes. -/
def Fits (w : World E) (n : Nat) : Prop := ∀ i < n, w.output (i + 1) ≤ w.capacity

theorem Executed.snoc {w : World E} {stages : List (List Word)} {n : Nat}
    {execs : List (Exec E)} (executed : Executed w stages n execs) {e : Exec E}
    (stage : StageAt w stages n e) : Executed w stages (n + 1) (execs ++ [e]) := by
  constructor
  · rw [List.length_append, executed.length, List.length_singleton]
  · intro i e' found
    rcases Nat.lt_or_ge i execs.length with early | late
    · rw [List.getElem?_append_left early] at found
      exact executed.stage i e' found
    · rw [List.getElem?_append_right late, List.getElem?_singleton] at found
      split at found
      · cases found
        have last : i = n := by have := executed.length; omega
        exact last ▸ stage
      · cases found

theorem Fits.succ {w : World E} {n : Nat} (fits : Fits w n) (last : w.output (n + 1) ≤ w.capacity) :
    Fits w (n + 1) := by
  intro i hi
  rcases Nat.lt_succ_iff_lt_or_eq.mp hi with early | rfl
  · exact fits i early
  · exact last

/-! ## Phases -/

/-- The frame holds the split of what is left of the pipeline at level `k`. -/
def SplitAt (stages : List (List Word)) (k : Nat) (f : Frame) : Prop :=
  ∃ left right more, stages.drop k = left :: right :: more ∧
    f.split = ⟨leftArgv left, rightArgv right, pipeline (right :: more)⟩

/-- The frame of level `k`: the split of what is left of the pipeline. -/
structure FrameAt (w : World E) (stages : List (List Word)) (k : Nat) (f : Frame) : Prop where
  split : ∃ left right more, stages.drop k = left :: right :: more ∧
    f.split = ⟨leftArgv left, rightArgv right, pipeline (right :: more)⟩
  free : Free w f.pfd

inductive StackAt (w : World E) (stages : List (List Word)) : Nat → List Frame → Prop
  | outer : StackAt w stages 0 []
  | inner {k f stack} (frame : FrameAt w stages k f) : StackAt w stages (k + 1) (f :: stack)

/-- The right side of level `k` after the fork, up to its `waitpid`. -/
inductive ParentAt (w : World E) (k : Nat) (f : Frame) : Process E → Prop
  | closeWrite {fds stack} (table : lookup fds = piped w k f.pfd) :
      ParentAt w k f ⟨.closeWrite f (k + 1), fds, stack⟩
  | dupRead {fds stack}
      (table : lookup fds = Function.update (base w k) f.pfd.1 (some (.read k))) :
      ParentAt w k f ⟨.dupRead f (k + 1), fds, stack⟩
  | wait {fds stack}
      (table : lookup fds = Function.update (base w (k + 1)) f.pfd.1 (some (.read k))) :
      ParentAt w k f ⟨.wait f (k + 1), fds, stack⟩

/-- The left side of level `k`, with the content of its pipe. -/
inductive ChildAt (w : World E) (stages : List (List Word)) (strict : Prop) (k : Nat)
    (f : Frame) (content : Nat) (execs : List (Exec E)) : Process E → Prop
  | closeRead {fds stack} (table : lookup fds = piped w k f.pfd) (empty : content = 0)
      (executed : strict → Executed w stages k execs) :
      ChildAt w stages strict k f content execs ⟨.childCloseRead f, fds, stack⟩
  | dupWrite {fds stack}
      (table : lookup fds = Function.update (base w k) f.pfd.2 (some (.write k)))
      (empty : content = 0) (executed : strict → Executed w stages k execs) :
      ChildAt w stages strict k f content execs ⟨.childDupWrite f, fds, stack⟩
  | closeWrite {fds stack}
      (table : lookup fds = Function.update
        (Function.update (base w k) f.pfd.2 (some (.write k))) 1 (some (.write k)))
      (empty : content = 0) (executed : strict → Executed w stages k execs) :
      ChildAt w stages strict k f content execs ⟨.childCloseWrite f, fds, stack⟩
  | execLeft {fds stack} (table : lookup fds = leftBase w k) (empty : content = 0)
      (executed : strict → Executed w stages k execs) :
      ChildAt w stages strict k f content execs ⟨.execLeft f, fds, stack⟩
  | running {output fds stack} (table : lookup fds = leftBase w k)
      (written : content + output = w.output (k + 1)) (room : content ≤ w.capacity)
      (executed : strict → Executed w stages (k + 1) execs) :
      ChildAt w stages strict k f content execs ⟨.running output, fds, stack⟩
  | ended (executed : strict → Executed w stages (k + 1) execs)
      (fits : strict → w.output (k + 1) ≤ w.capacity) :
      ChildAt w stages strict k f content execs .dead

/-- Process 0 after a failed `execvp` of a right side. -/
inductive Fallen : Pc → Prop
  | childCloseRead (f) : Fallen (.childCloseRead f)
  | childDupWrite (f) : Fallen (.childDupWrite f)
  | childCloseWrite (f) : Fallen (.childCloseWrite f)
  | execLeft (f) : Fallen (.execLeft f)
  | running (output) : Fallen (.running output)
  | exited : Fallen .exited

/-- All processes but 0 have ended. -/
def State.Alone (s : State E) : Prop := ∀ pid, pid ≠ 0 → s.procs pid = .dead

inductive Phase (w : World E) (stages : List (List Word)) (strict : Prop) (s : State E) : Prop
  | calling (k fds stack) (level : k < stages.length)
      (main : s.procs 0 = ⟨.call (pipeline (stages.drop k)), fds, stack⟩)
      (table : lookup fds = base w k) (stackAt : StackAt w stages k stack) (alone : s.Alone)
      (pid : s.nextPid = k + 1) (pipe : s.nextPipe = k)
      (executed : strict → Executed w stages k s.execs) (fits : strict → Fits w k)
  | forking (k f fds stack) (main : s.procs 0 = ⟨.fork f, fds, stack⟩)
      (table : lookup fds = piped w k f.pfd) (frame : FrameAt w stages k f) (alone : s.Alone)
      (pid : s.nextPid = k + 1) (pipe : s.nextPipe = k + 1) (empty : s.pipes k = 0)
      (executed : strict → Executed w stages k s.execs) (fits : strict → Fits w k)
  | waiting (k f) (parent : ParentAt w k f (s.procs 0))
      (child : ChildAt w stages strict k f (s.pipes k) s.execs (s.procs (k + 1)))
      (frame : FrameAt w stages k f)
      (others : ∀ pid, pid ≠ 0 → pid ≠ k + 1 → s.procs pid = .dead)
      (pid : s.nextPid = k + 2) (pipe : s.nextPipe = k + 1) (fits : strict → Fits w k)
  | waited (k f fds stack) (main : s.procs 0 = ⟨.closeRead f, fds, stack⟩)
      (table : lookup fds = Function.update (base w (k + 1)) f.pfd.1 (some (.read k)))
      (frame : FrameAt w stages k f) (alone : s.Alone)
      (pid : s.nextPid = k + 2) (pipe : s.nextPipe = k + 1)
      (executed : strict → Executed w stages (k + 1) s.execs) (fits : strict → Fits w (k + 1))
  | returned (k f fds stack pfd) (last : k + 2 = stages.length)
      (main : s.procs 0 = ⟨.execRight f, fds, stack⟩)
      (table : lookup fds = piped w (k + 1) pfd) (free : Free w pfd)
      (frame : FrameAt w stages k f) (alone : s.Alone) (pipe : s.nextPipe = k + 2)
      (executed : strict → Executed w stages (k + 1) s.execs) (fits : strict → Fits w (k + 1))
  | last (k output fds stack pfd) (last : k + 2 = stages.length)
      (main : s.procs 0 = ⟨.running output, fds, stack⟩)
      (table : lookup fds = piped w (k + 1) pfd) (free : Free w pfd) (alone : s.Alone)
      (pipe : s.nextPipe = k + 2)
      (executed : strict → Executed w stages stages.length s.execs)
      (fits : strict → Fits w (k + 1))
  | fallen (lax : ¬ strict) (main : Fallen (s.procs 0).pc) (alone : s.Alone)
  | finished (main : s.procs 0 = .dead) (alone : s.Alone) (pipe : s.nextPipe = stages.length)
      (executed : strict → Executed w stages stages.length s.execs)
      (fits : strict → Fits w (stages.length - 1))

/-! ## A measure

While the number of pipes stays the same, what is left of the statements and of the
outputs of process 0 and of the last child gets less, with the content of the last two
pipes.
-/

def Pc.rank (w : World E) (nextPid pid : Nat) : Pc → Nat
  | .exited => 0
  | .call _ => 1
  | .closeRead _ => 2
  | .wait _ _ => 3
  | .dupRead _ _ => 4
  | .closeWrite _ _ => 5
  | .fork _ => 3 * w.output nextPid + 11
  | .running output => 3 * output + 1
  | .execLeft _ => 3 * w.output pid + 2
  | .execRight _ => 3 * w.output pid + 2
  | .childCloseWrite _ => 3 * w.output pid + 3
  | .childDupWrite _ => 3 * w.output pid + 4
  | .childCloseRead _ => 3 * w.output pid + 5

def State.content (s : State E) : Nat := s.pipes (s.nextPipe - 1) + s.pipes (s.nextPipe - 2)

def State.rank (w : World E) (s : State E) : Nat :=
  (s.procs 0).pc.rank w s.nextPid 0 +
    (s.procs (s.nextPid - 1)).pc.rank w s.nextPid (s.nextPid - 1) + s.content

/-- `t` is closer to the end than `s`. -/
def Closer (w : World E) (s t : State E) : Prop :=
  s.nextPipe < t.nextPipe ∨ t.nextPipe = s.nextPipe ∧ t.rank w < s.rank w

theorem Closer.main {w : World E} {s : State E} {p : Process E}
    (less : p.pc.rank w s.nextPid 0 < (s.procs 0).pc.rank w s.nextPid 0) :
    Closer w s (s.set 0 p) := by
  refine Or.inr ⟨rfl, ?_⟩
  by_cases first : s.nextPid - 1 = 0
  · simp only [State.rank, set_nextPid, first, set_self]
    exact Nat.add_lt_add_right (Nat.add_lt_add less less) _
  · simp only [State.rank, set_nextPid, set_self, set_other s p first]
    exact Nat.add_lt_add_right (Nat.add_lt_add_right less _) _

theorem Closer.child {w : World E} {s u : State E} {k : Nat} {c : Process E}
    (pid : s.nextPid = k + 2) (nextPid : u.nextPid = s.nextPid) (nextPipe : u.nextPipe = s.nextPipe)
    (procs : u.procs = s.procs)
    (less : c.pc.rank w s.nextPid (k + 1) + u.content <
      (s.procs (k + 1)).pc.rank w s.nextPid (k + 1) + s.content) :
    Closer w s (u.set (k + 1) c) := by
  refine Or.inr ⟨nextPipe, ?_⟩
  have latest : s.nextPid - 1 = k + 1 := by omega
  have main : (u.set (k + 1) c).procs 0 = s.procs 0 := by
    rw [set_other _ _ (by omega), procs]
  have content : (u.set (k + 1) c).content = u.content := rfl
  simp only [State.rank, set_nextPid, nextPid, latest, set_self, main, content]
  omega

/-- A byte was read from the pipe before the last one. -/
theorem Closer.drained {w : World E} {s : State E} {j : Nat} (pipe : s.nextPipe = j + 2)
    (some : 0 < s.pipes j) :
    Closer w s { s with pipes := Function.update s.pipes j (s.pipes j - 1) } := by
  refine Or.inr ⟨rfl, ?_⟩
  have last : s.nextPipe - 1 = j + 1 := by omega
  have before : s.nextPipe - 2 = j := by omega
  have other : Function.update s.pipes j (s.pipes j - 1) (j + 1) = s.pipes (j + 1) :=
    Function.update_of_ne (by omega) _ _
  simp only [State.rank, State.content, last, before, other, Function.update_self]
  omega

theorem content_filled (s : State E) (j : Nat) :
    { s with pipes := Function.update s.pipes j (s.pipes j + 1) }.content ≤ s.content + 2 := by
  have one : ∀ i, Function.update s.pipes j (s.pipes j + 1) i ≤ s.pipes i + 1 := by
    intro i
    by_cases same : i = j
    · subst same
      exact Nat.le_of_eq (Function.update_self ..)
    · rw [Function.update_of_ne same]
      omega
  have last := one (s.nextPipe - 1)
  have before := one (s.nextPipe - 2)
  simp only [State.content]
  omega

/-! ## Step lemma -/

/-- The next state is in a phase and closer to the end. -/
structure Onward (w : World E) (stages : List (List Word)) (strict : Prop) (s t : State E) :
    Prop where
  phase : Phase w stages strict t
  closer : strict → Closer w s t

/-- Stages without redirection, with the standard descriptors open at entry. -/
structure Pipelined (w : World E) (stages : List (List Word)) : Prop where
  several : 2 ≤ stages.length
  stage : ∀ s ∈ stages, Stage s
  std : StandardOpen w

section
variable {w : World E} {stages : List (List Word)} {strict : Prop} {s t : State E} {k : Nat}

theorem State.Alone.set (alone : s.Alone) (p : Process E) : (s.set 0 p).Alone := by
  intro pid other
  rw [set_other s p other]
  exact alone pid other

/-- What process 0 finds at a level: the last stage, or a split. -/
theorem level_splits {stages : List (List Word)} (stage : ∀ s ∈ stages, Stage s) {k : Nat}
    (level : k < stages.length) :
    (k + 1 = stages.length ∧ pipePresent (pipeline (stages.drop k)) = 0) ∨
      (k + 1 < stages.length ∧ ∃ left right more, stages.drop k = left :: right :: more ∧
        0 < left.length ∧ pipePresent (pipeline (stages.drop k)) = left.length ∧
        splitPipe (pipeline (stages.drop k)) left.length =
          ⟨leftArgv left, rightArgv right, pipeline (right :: more)⟩) := by
  have all : ∀ s ∈ stages.drop k, Stage s := fun s hs => stage s (List.mem_of_mem_drop hs)
  have length : (stages.drop k).length = stages.length - k := List.length_drop
  cases rest : stages.drop k with
  | nil =>
    rw [rest, List.length_nil] at length
    omega
  | cons left tail =>
    rw [rest] at all length
    cases tail with
    | nil =>
      rw [List.length_singleton] at length
      exact Or.inl ⟨by omega, pipePresent_stage (all left (by simp))⟩
    | cons right more =>
      rw [List.length_cons, List.length_cons] at length
      refine Or.inr ⟨by omega, left, right, more, rfl, ?_, ?_, ?_⟩
      · exact List.length_pos_iff.mpr (all left (by simp)).1
      · exact pipePresent_pipeline all
      · exact splitPipe_pipeline all

theorem SplitAt.words {stages : List (List Word)} {k : Nat} {f : Frame}
    (splitAt : SplitAt stages k f) :
    stages[k]? = some (leadingWords f.split.left.cells) ∧
      stages[k + 1]? = some (leadingWords f.split.right.cells) ∧
      f.split.rest = pipeline (stages.drop (k + 1)) ∧ k + 1 < stages.length := by
  obtain ⟨left, right, more, rest, split⟩ := splitAt
  have length := congrArg List.length rest
  rw [List.length_drop, List.length_cons, List.length_cons] at length
  have first : stages[k]? = some left := by
    have head := congrArg (fun l => l[0]?) rest
    simpa using head
  have second : stages[k + 1]? = some right := by
    have head := congrArg (fun l => l[1]?) rest
    simpa using head
  refine ⟨?_, ?_, ?_, by omega⟩
  · rw [split, first, leadingWords_leftArgv]
  · rw [split, second, leadingWords_rightArgv]
  · rw [split, ← List.tail_drop, rest, List.tail_cons]

theorem FrameAt.words {f : Frame} (frame : FrameAt w stages k f) :
    stages[k]? = some (leadingWords f.split.left.cells) ∧
      stages[k + 1]? = some (leadingWords f.split.right.cells) ∧
      f.split.rest = pipeline (stages.drop (k + 1)) ∧ k + 1 < stages.length :=
  SplitAt.words frame.split

theorem lax_of_fails {act : Act} (succeeds : strict → Succeeds act s) {pid : Nat}
    (fails : act = .fails pid) : ¬ strict :=
  fun all => succeeds all pid fails

theorem Onward.lax (phase : Phase w stages strict t) (lax : ¬ strict) :
    Onward w stages strict s t :=
  ⟨phase, fun all => absurd all lax⟩

theorem Onward.fails (alone : s.Alone) (lax : ¬ strict) :
    Onward w stages strict s (s.exit 0) := by
  refine .lax (.fallen lax ?_ (alone.set _)) lax
  rw [State.exit, set_self]
  exact .exited

variable [DecidableEq E]

theorem only_main (alone : s.Alone) {act : Act} (h : next w act s = some t) : act.pid = 0 := by
  by_contra other
  rw [next_dead (alone act.pid other)] at h
  cases h

theorem Onward.step_calling (ok : Pipelined w stages) {fds : Table (End E)} {stack : List Frame}
    (level : k < stages.length) (main : s.procs 0 = ⟨.call (pipeline (stages.drop k)), fds, stack⟩)
    (table : lookup fds = base w k) (stackAt : StackAt w stages k stack) (alone : s.Alone)
    (pid : s.nextPid = k + 1) (pipe : s.nextPipe = k)
    (executed : strict → Executed w stages k s.execs) (fits : strict → Fits w k)
    {act : Act} (succeeds : strict → Succeeds act s) (h : next w act s = some t) :
    Onward w stages strict s t := by
  rcases run_or_fails (only_main alone h) (by simp [main]) h with rfl | rfl
  · simp only [next, statement, main, Option.some.injEq] at h
    subst h
    obtain ⟨free, made⟩ := allocPair_base ok.std table
    rcases level_splits ok.stage level with
      ⟨last, index⟩ | ⟨more, left, right, tail, rest, positive, index, split⟩
    · cases stackAt with
      | outer => have := ok.several; omega
      | @inner j f stack frame =>
        simp only [callStep, index, pipe]
        refine ⟨.returned j f _ stack _ (by omega) (set_self _ _ _) made free frame
          (State.Alone.set alone _) rfl ?_ ?_, fun _ => Or.inl ?_⟩
        · exact executed
        · exact fits
        · rw [pipe]
          exact Nat.lt_succ_self _
    · have middle : (left.length : Int) ≠ 0 := by omega
      have legal : (left.length : Int) ≠ -1 := by omega
      simp only [callStep, index, pipe, if_neg middle, if_neg legal, Int.toNat_natCast, split]
      refine ⟨.forking k _ _ stack (set_self _ _ _) made ⟨⟨left, right, tail, rest, rfl⟩, free⟩
        (State.Alone.set alone _) pid rfl ?_ ?_ ?_, fun _ => Or.inl ?_⟩
      · exact Function.update_self k 0 s.pipes
      · exact executed
      · exact fits
      · rw [pipe]
        exact Nat.lt_succ_self _
  · simp only [next, failure, main, Option.some.injEq] at h
    exact h ▸ .fails alone (lax_of_fails succeeds rfl)

theorem Onward.step_forking {f : Frame} {fds : Table (End E)} {stack : List Frame}
    (main : s.procs 0 = ⟨.fork f, fds, stack⟩) (table : lookup fds = piped w k f.pfd)
    (frame : FrameAt w stages k f) (alone : s.Alone) (pid : s.nextPid = k + 1)
    (pipe : s.nextPipe = k + 1) (empty : s.pipes k = 0)
    (executed : strict → Executed w stages k s.execs) (fits : strict → Fits w k)
    {act : Act} (succeeds : strict → Succeeds act s) (h : next w act s = some t) :
    Onward w stages strict s t := by
  rcases run_or_fails (only_main alone h) (by simp [main]) h with rfl | rfl
  · simp only [next, statement, main, pid, Option.some.injEq] at h
    subst h
    refine ⟨.waiting k f ?_ ?_ frame ?_ rfl pipe fits, fun _ => Or.inr ⟨rfl, ?_⟩⟩
    · rw [set_other _ _ (by omega), set_self]
      exact .closeWrite table
    · rw [set_self]
      exact .closeRead table empty executed
    · intro i other child
      rw [set_other _ _ child, set_other _ _ other]
      exact alone i other
    · have parent : 0 ≠ k + 1 := by omega
      simp only [State.rank, set_nextPid, Nat.add_sub_cancel, set_self, set_other _ _ parent, main,
        pid, Pc.rank]
      change _ + s.content < _ + s.content
      omega
  · simp only [next, failure, main, Option.some.injEq] at h
    exact h ▸ .fails alone (lax_of_fails succeeds rfl)

/-- The parent closes the write end, takes the read end for its stdin and waits. -/
theorem Onward.step_parent {f : Frame} (parent : ParentAt w k f (s.procs 0))
    (child : ChildAt w stages strict k f (s.pipes k) s.execs (s.procs (k + 1)))
    (frame : FrameAt w stages k f) (others : ∀ pid, pid ≠ 0 → pid ≠ k + 1 → s.procs pid = .dead)
    (pid : s.nextPid = k + 2) (pipe : s.nextPipe = k + 1) (fits : strict → Fits w k)
    {act : Act} (zero : act.pid = 0) (h : next w act s = some t) : Onward w stages strict s t := by
  generalize main : s.procs 0 = p at parent
  have stays : ∀ p, ParentAt w k f p → p.pc.rank w s.nextPid 0 < (s.procs 0).pc.rank w s.nextPid 0 →
      Onward w stages strict s (s.set 0 p) := by
    intro p parent less
    refine ⟨.waiting k f ?_ ?_ frame ?_ pid pipe fits, fun _ => .main less⟩
    · rw [set_self]
      exact parent
    · rw [set_other _ _ (by omega)]
      exact child
    · intro i other self
      rw [set_other _ _ other]
      exact others i other self
  have notRunning : ∀ output, (s.procs 0).pc ≠ .running output := by
    intro output
    rw [main]
    cases parent <;> simp
  rcases run_or_fails zero notRunning h with rfl | rfl
  · cases parent with
    | closeWrite table =>
      simp only [next, statement, main, Option.some.injEq] at h
      subst h
      refine stays _ (.dupRead ?_) ?_
      · rw [lookup_close, table, piped_closeWrite frame.free]
      · rw [main]
        exact Nat.lt_succ_self 4
    | @dupRead fds stack table =>
      simp only [next, statement, main, Option.some.injEq] at h
      subst h
      have opened : lookup fds f.pfd.1 = some (.read k) := by rw [table, Function.update_self]
      refine stays _ (.wait ?_) ?_
      · rw [dup2_of_open opened, Option.getD_some, lookup_assign, table, dupRead_table frame.free]
      · rw [main]
        exact Nat.lt_succ_self 3
    | @wait fds stack table =>
      simp only [next, statement, main] at h
      split at h
      · rename_i ended
        cases h
        have dead : s.procs (k + 1) = .dead ∧ (strict → Executed w stages (k + 1) s.execs) ∧
            (strict → w.output (k + 1) ≤ w.capacity) := by
          generalize s.procs (k + 1) = c at child ended
          cases child with
          | ended executed fits => exact ⟨rfl, executed, fits⟩
          | _ => cases ended
        refine ⟨.waited k f fds stack (set_self _ _ _) table frame ?_ pid pipe dead.2.1 ?_,
          fun _ => .main ?_⟩
        · intro i other
          rw [set_other _ _ other]
          by_cases self : i = k + 1
          · rw [self]
            exact dead.1
          · exact others i other self
        · intro all
          exact (fits all).succ (dead.2.2 all)
        · rw [main]
          exact Nat.lt_succ_self 2
      · cases h
  · cases parent <;> simp [next, failure, main] at h

omit [DecidableEq E] in
/-- The parent has the read end of the pipe of its level. -/
theorem ParentAt.reader {f : Frame} (free : Free w f.pfd) {p : Process E}
    (parent : ParentAt w k f p) : Holds p.fds (.read k) := by
  refine ⟨f.pfd.1, ?_⟩
  cases parent with
  | closeWrite table =>
    rw [table, piped, Function.update_of_ne free.differ, Function.update_self]
  | dupRead table => rw [table, Function.update_self]
  | wait table => rw [table, Function.update_self]

omit [DecidableEq E] in
/-- Before the last level nobody has a write end of an earlier pipe. -/
theorem ParentAt.not_writer {f : Frame} {p : Process E} (parent : ParentAt w k f p) {j : Nat}
    (ne : j ≠ k) : ¬ Holds p.fds (.write j) := by
  have dup : ∀ m, ¬ ∃ fd, Function.update (base w m) f.pfd.1 (some (.read k)) fd =
      some (.write j) := by
    intro m held
    rcases holds_of_update held with own | held
    · cases own
    · exact not_holds_base j held
  rw [Holds]
  cases parent with
  | closeWrite table =>
    rw [table]
    exact not_holds_piped ne
  | dupRead table =>
    rw [table]
    exact dup k
  | wait table =>
    rw [table]
    exact dup (k + 1)

omit [DecidableEq E] in
theorem not_holds_dead {x : End E} : ¬ Holds (Process.dead : Process E).fds x := by
  rintro ⟨fd, held⟩
  cases held

omit [DecidableEq E] in
/-- The left side is exec'd as its stage. -/
theorem stageAt_left {f : Frame} (frame : FrameAt w stages k f)
    (parent : ParentAt w k f (s.procs 0))
    (others : ∀ pid, pid ≠ 0 → pid ≠ k + 1 → s.procs pid = .dead) {fds : Table (End E)}
    {stack : List Frame} (child : s.procs (k + 1) = ⟨.execLeft f, fds, stack⟩)
    (table : lookup fds = leftBase w k) :
    StageAt w stages k ⟨k + 1, f.split.left.cells, fds, fun i => (s.procs i).fds⟩ := by
  obtain ⟨words, -, -, inside⟩ := frame.words
  have inner : k + 1 ≠ stages.length := by omega
  constructor
  · rw [if_neg inner]
  · exact words
  · rw [table, leftBase, Function.update_of_ne (by omega), base, Function.update_self]
  · rw [table, leftBase, Function.update_self, if_neg inner]
  · rintro j pid rfl held
    have ne : j ≠ j + 1 := by omega
    change Holds (s.procs pid).fds (.write j) at held
    by_cases first : pid = 0
    · rw [first] at held
      exact parent.not_writer ne held
    · by_cases self : pid = j + 1 + 1
      · rw [self, child, Holds, table] at held
        exact not_holds_leftBase ne held
      · rw [others pid first self] at held
        exact not_holds_dead held

omit [DecidableEq E] in
/-- A step of the child changes its own process, and beside it the bytes in the pipe and
what has been exec'd. -/
theorem Onward.of_child {f : Frame} (parent : ParentAt w k f (s.procs 0))
    (frame : FrameAt w stages k f) (others : ∀ pid, pid ≠ 0 → pid ≠ k + 1 → s.procs pid = .dead)
    (pid : s.nextPid = k + 2) (pipe : s.nextPipe = k + 1) (fits : strict → Fits w k) {u : State E}
    {c : Process E} (procs : u.procs = s.procs) (nextPid : u.nextPid = s.nextPid)
    (nextPipe : u.nextPipe = s.nextPipe)
    (child : ChildAt w stages strict k f (u.pipes k) u.execs c)
    (less : strict → c.pc.rank w s.nextPid (k + 1) + u.content <
      (s.procs (k + 1)).pc.rank w s.nextPid (k + 1) + s.content) :
    Onward w stages strict s (u.set (k + 1) c) := by
  refine ⟨.waiting k f ?_ ?_ frame ?_ (nextPid.trans pid) (nextPipe.trans pipe) fits,
    fun all => .child pid nextPid nextPipe procs (less all)⟩
  · rw [set_other _ _ (by omega), procs]
    exact parent
  · rw [set_self]
    exact child
  · intro i other notSelf
    rw [set_other _ _ notSelf, procs]
    exact others i other notSelf

omit [DecidableEq E] in
/-- The child closes the read end, takes the write end for its stdout and is exec'd. -/
theorem Onward.child_statement {f : Frame} (parent : ParentAt w k f (s.procs 0))
    (child : ChildAt w stages strict k f (s.pipes k) s.execs (s.procs (k + 1)))
    (frame : FrameAt w stages k f) (others : ∀ pid, pid ≠ 0 → pid ≠ k + 1 → s.procs pid = .dead)
    (pid : s.nextPid = k + 2) (pipe : s.nextPipe = k + 1) (fits : strict → Fits w k)
    (h : statement w s (k + 1) = some t) : Onward w stages strict s t := by
  generalize here : s.procs (k + 1) = c at child
  cases child with
  | closeRead table empty executed =>
    simp only [statement, here, Option.some.injEq] at h
    subst h
    refine .of_child parent frame others pid pipe fits rfl rfl rfl
      (.dupWrite ?_ empty executed) (fun _ => ?_)
    · rw [lookup_close, table, piped_closeRead frame.free]
    · rw [here]
      exact Nat.add_lt_add_right (Nat.lt_succ_self _) _
  | @dupWrite fds stack table empty executed =>
    simp only [statement, here, Option.some.injEq] at h
    subst h
    have opened : lookup fds f.pfd.2 = some (.write k) := by rw [table, Function.update_self]
    refine .of_child parent frame others pid pipe fits rfl rfl rfl
      (.closeWrite ?_ empty executed) (fun _ => ?_)
    · rw [dup2_of_open opened, Option.getD_some, lookup_assign, table]
    · rw [here]
      exact Nat.add_lt_add_right (Nat.lt_succ_self _) _
  | closeWrite table empty executed =>
    simp only [statement, here, Option.some.injEq] at h
    subst h
    refine .of_child parent frame others pid pipe fits rfl rfl rfl
      (.execLeft ?_ empty executed) (fun _ => ?_)
    · rw [lookup_close, table, childCloseWrite_table frame.free]
    · rw [here]
      exact Nat.add_lt_add_right (Nat.lt_succ_self _) _
  | @execLeft fds stack table empty executed =>
    simp only [statement, State.exec, here, Option.some.injEq] at h
    subst h
    have stage := stageAt_left frame parent others here table
    refine .of_child (u := { s with execs := s.execs ++ [_] }) parent frame others pid pipe fits
      rfl rfl rfl (.running table ?_ ?_ ?_) (fun _ => ?_)
    · rw [empty, Nat.zero_add]
    · rw [empty]
      exact Nat.zero_le _
    · intro all
      exact (executed all).snoc stage
    · rw [here]
      exact Nat.add_lt_add_right (Nat.lt_succ_self _) _
  | running => simp [statement, here] at h
  | ended => simp [statement, here, Process.dead] at h

/-- The program of the child writes to the pipe of the level. -/
theorem Onward.child_write {f : Frame} (parent : ParentAt w k f (s.procs 0))
    (child : ChildAt w stages strict k f (s.pipes k) s.execs (s.procs (k + 1)))
    (frame : FrameAt w stages k f) (others : ∀ pid, pid ≠ 0 → pid ≠ k + 1 → s.procs pid = .dead)
    (pid : s.nextPid = k + 2) (pipe : s.nextPipe = k + 1) (fits : strict → Fits w k)
    (h : programWrite w s (k + 1) = some t) : Onward w stages strict s t := by
  generalize here : s.procs (k + 1) = c at child
  cases child with
  | @running output fds stack table written room executed =>
    have stdout : lookup fds 1 = some (.write k) := by rw [table, leftBase, Function.update_self]
    have reader : s.HasReader k := ⟨0, by omega, parent.reader frame.free⟩
    cases output with
    | zero => simp [programWrite, here] at h
    | succ output =>
      simp only [programWrite, here, stdout, if_pos reader] at h
      split at h
      · rename_i space
        cases h
        have filled : Function.update s.pipes k (s.pipes k + 1) k = s.pipes k + 1 :=
          Function.update_self ..
        have content := content_filled s k
        refine .of_child (u := { s with pipes := _ }) parent frame others pid pipe fits rfl rfl rfl
          (.running table ?_ ?_ executed) (fun _ => ?_)
        · simp only [filled]
          omega
        · simp only [filled]
          omega
        · rw [here]
          simp only [Pc.rank]
          omega
      · cases h
  | _ => simp [programWrite, here, Process.dead] at h

omit [DecidableEq E] in
/-- The program of the child reads from the pipe of the level before. -/
theorem Onward.child_read {f : Frame} (parent : ParentAt w k f (s.procs 0))
    (child : ChildAt w stages strict k f (s.pipes k) s.execs (s.procs (k + 1)))
    (frame : FrameAt w stages k f) (others : ∀ pid, pid ≠ 0 → pid ≠ k + 1 → s.procs pid = .dead)
    (pid : s.nextPid = k + 2) (pipe : s.nextPipe = k + 1) (fits : strict → Fits w k)
    (h : programRead s (k + 1) = some t) : Onward w stages strict s t := by
  generalize here : s.procs (k + 1) = c at child
  cases child with
  | @running output fds stack table written room executed =>
    have stdin : lookup fds 0 = feed w k := by
      rw [table, leftBase, Function.update_of_ne (by omega), base, Function.update_self]
    cases k with
    | zero =>
      cases entry : lookup w.entry 0 <;> simp [programRead, here, stdin, feed, entry] at h
    | succ j =>
      simp only [programRead, here, stdin, feed] at h
      split at h
      · rename_i some
        cases h
        have same : Function.update s.pipes j (s.pipes j - 1) (j + 1) = s.pipes (j + 1) :=
          Function.update_of_ne (by omega) _ _
        refine ⟨.waiting (j + 1) f parent ?_ frame others pid pipe fits,
          fun _ => .drained pipe some⟩
        simp only [here, same]
        exact .running table written room executed
      · cases h
  | _ => simp [programRead, here, Process.dead] at h

/-- A step of the child of a level. -/
theorem Onward.step_child {f : Frame} (parent : ParentAt w k f (s.procs 0))
    (child : ChildAt w stages strict k f (s.pipes k) s.execs (s.procs (k + 1)))
    (frame : FrameAt w stages k f) (others : ∀ pid, pid ≠ 0 → pid ≠ k + 1 → s.procs pid = .dead)
    (pid : s.nextPid = k + 2) (pipe : s.nextPipe = k + 1) (fits : strict → Fits w k)
    {act : Act} (self : act.pid = k + 1) (succeeds : strict → Succeeds act s)
    (h : next w act s = some t) : Onward w stages strict s t := by
  cases act with
  | run p =>
    cases self
    exact .child_statement parent child frame others pid pipe fits h
  | write p =>
    cases self
    exact .child_write parent child frame others pid pipe fits h
  | read p =>
    cases self
    exact .child_read parent child frame others pid pipe fits h
  | fails p =>
    cases self
    generalize here : s.procs (k + 1) = c at child
    cases child with
    | execLeft =>
      simp only [next, failure, here, Option.some.injEq] at h
      subst h
      have lax := lax_of_fails succeeds rfl
      exact .of_child parent frame others pid pipe fits rfl rfl rfl
        (.ended (absurd · lax) (absurd · lax)) (absurd · lax)
    | _ => simp [next, failure, here, Process.dead] at h
  | exit p =>
    cases self
    generalize here : s.procs (k + 1) = c at child
    cases child with
    | @running output fds stack table written room executed =>
      cases output with
      | zero =>
        simp only [next, programExit, here, Option.some.injEq] at h
        subst h
        refine .of_child parent frame others pid pipe fits rfl rfl rfl (.ended executed ?_)
          (fun _ => ?_)
        · intro all
          omega
        · rw [here]
          exact Nat.add_lt_add_right Nat.one_pos _
      | succ output => simp [next, programExit, here] at h
    | _ => simp [next, programExit, here, Process.dead] at h

theorem Onward.step_waiting {f : Frame} (parent : ParentAt w k f (s.procs 0))
    (child : ChildAt w stages strict k f (s.pipes k) s.execs (s.procs (k + 1)))
    (frame : FrameAt w stages k f) (others : ∀ pid, pid ≠ 0 → pid ≠ k + 1 → s.procs pid = .dead)
    (pid : s.nextPid = k + 2) (pipe : s.nextPipe = k + 1) (fits : strict → Fits w k)
    {act : Act} (succeeds : strict → Succeeds act s) (h : next w act s = some t) :
    Onward w stages strict s t := by
  by_cases zero : act.pid = 0
  · exact .step_parent parent child frame others pid pipe fits zero h
  · by_cases self : act.pid = k + 1
    · exact .step_child parent child frame others pid pipe fits self succeeds h
    · rw [next_dead (others act.pid zero self)] at h
      cases h

theorem Onward.step_waited {f : Frame} {fds : Table (End E)}
    {stack : List Frame} (main : s.procs 0 = ⟨.closeRead f, fds, stack⟩)
    (table : lookup fds = Function.update (base w (k + 1)) f.pfd.1 (some (.read k)))
    (frame : FrameAt w stages k f) (alone : s.Alone) (pid : s.nextPid = k + 2)
    (pipe : s.nextPipe = k + 1) (executed : strict → Executed w stages (k + 1) s.execs)
    (fits : strict → Fits w (k + 1)) {act : Act} (h : next w act s = some t) :
    Onward w stages strict s t := by
  obtain ⟨-, -, rest, inside⟩ := frame.words
  rcases run_or_fails (only_main alone h) (by simp [main]) h with rfl | rfl
  · simp only [next, statement, main, Option.some.injEq] at h
    subst h
    rw [Process.close, rest]
    refine ⟨.calling (k + 1) _ _ inside (set_self _ _ _) ?_ (.inner frame) (alone.set _) pid pipe
      executed fits, fun _ => .main ?_⟩
    · rw [lookup_close, table, closeRead_table frame.free]
    · rw [main]
      exact Nat.lt_succ_self 1
  · simp [next, failure, main] at h

omit [DecidableEq E] in
/-- Process 0 is exec'd as the last stage. -/
theorem stageAt_right {f : Frame} {pfd : Nat × Nat} (free : Free w pfd)
    (frame : FrameAt w stages k f) (last : k + 2 = stages.length) (alone : s.Alone)
    {fds : Table (End E)} {stack : List Frame} (main : s.procs 0 = ⟨.execRight f, fds, stack⟩)
    (table : lookup fds = piped w (k + 1) pfd) :
    StageAt w stages (k + 1) ⟨0, f.split.right.cells, fds, fun i => (s.procs i).fds⟩ := by
  obtain ⟨-, words, -, -⟩ := frame.words
  have end_of : k + 1 + 1 = stages.length := last
  constructor
  · rw [if_pos end_of]
  · exact words
  · rw [table, piped_small free (by omega), base, Function.update_self]
  · rw [table, piped_small free (by omega), if_pos end_of, base_one]
  · intro j pid same held
    have ne : j ≠ k + 1 := by omega
    change Holds (s.procs pid).fds (.write j) at held
    by_cases first : pid = 0
    · rw [first, main, Holds, table] at held
      exact not_holds_piped ne held
    · rw [alone pid first] at held
      exact not_holds_dead held

theorem Onward.step_returned {f : Frame} {fds : Table (End E)} {stack : List Frame}
    {pfd : Nat × Nat} (last : k + 2 = stages.length)
    (main : s.procs 0 = ⟨.execRight f, fds, stack⟩)
    (table : lookup fds = piped w (k + 1) pfd) (free : Free w pfd) (frame : FrameAt w stages k f)
    (alone : s.Alone) (pipe : s.nextPipe = k + 2)
    (executed : strict → Executed w stages (k + 1) s.execs)
    (fits : strict → Fits w (k + 1)) {act : Act} (succeeds : strict → Succeeds act s)
    (h : next w act s = some t) : Onward w stages strict s t := by
  rcases run_or_fails (only_main alone h) (by simp [main]) h with rfl | rfl
  · simp only [next, statement, State.exec, main, Option.some.injEq] at h
    subst h
    refine ⟨.last k _ fds stack pfd last (set_self _ _ _) table free (State.Alone.set alone _) pipe
      ?_ fits, fun _ => ?_⟩
    · intro all
      rw [← last]
      exact (executed all).snoc (stageAt_right free frame last alone main table)
    · refine .main (s := { s with execs := _ }) ?_
      rw [main]
      exact Nat.lt_succ_self _
  · simp only [next, failure, main, Option.some.injEq] at h
    subst h
    have lax := lax_of_fails succeeds rfl
    refine .lax (.fallen lax ?_ (alone.set _)) lax
    rw [set_self]
    exact .childCloseRead f

/-- The last program writes to the stdout of the entry and reads the last pipe. -/
theorem Onward.step_last {output : Nat} {fds : Table (End E)} {stack : List Frame}
    {pfd : Nat × Nat} (last : k + 2 = stages.length)
    (main : s.procs 0 = ⟨.running output, fds, stack⟩)
    (table : lookup fds = piped w (k + 1) pfd) (free : Free w pfd) (alone : s.Alone)
    (pipe : s.nextPipe = k + 2) (executed : strict → Executed w stages stages.length s.execs)
    (fits : strict → Fits w (k + 1)) {act : Act} (h : next w act s = some t) :
    Onward w stages strict s t := by
  have zero := only_main alone h
  cases act with
  | run p =>
    cases zero
    simp [next, statement, main] at h
  | fails p =>
    cases zero
    simp [next, failure, main] at h
  | write p =>
    cases zero
    cases output with
    | zero => simp [next, programWrite, main] at h
    | succ output =>
      have stdout : lookup fds 1 = (lookup w.entry 1).map .entry := by
        rw [table, piped_small free (by omega), base_one]
      have moved : t = s.set 0 ⟨.running output, fds, stack⟩ := by
        cases entry : lookup w.entry 1 <;>
          simpa [next, programWrite, main, stdout, entry, eq_comm] using h
      subst moved
      refine ⟨.last k output fds stack pfd last (set_self _ _ _) table free (alone.set _) pipe
        executed fits, fun _ => .main ?_⟩
      rw [main]
      simp only [Pc.rank]
      omega
  | read p =>
    cases zero
    have stdin : lookup fds 0 = some (.read k) := by
      rw [table, piped_small free (by omega), base, Function.update_self, feed]
    simp only [next, programRead, main, stdin] at h
    split at h
    · rename_i some
      cases h
      exact ⟨.last k output fds stack pfd last main table free alone pipe executed fits,
        fun _ => .drained pipe some⟩
    · cases h
  | exit p =>
    cases zero
    cases output with
    | zero =>
      simp only [next, programExit, main, Option.some.injEq] at h
      subst h
      refine ⟨.finished (set_self _ _ _) (alone.set _) (pipe.trans last) executed ?_,
        fun _ => .main ?_⟩
      · intro all
        have same : stages.length - 1 = k + 1 := by omega
        exact same ▸ fits all
      · rw [main]
        exact Nat.one_pos
    | succ output => simp [next, programExit, main] at h

/-- After a failed `execvp` process 0 stays alone. -/
theorem Onward.step_fallen (lax : ¬ strict) (fallen : Fallen (s.procs 0).pc) (alone : s.Alone)
    {act : Act} (h : next w act s = some t) : Onward w stages strict s t := by
  have zero := only_main alone h
  have stays : ∀ (u : State E) (p : Process E), u.procs = s.procs → Fallen p.pc →
      Onward w stages strict s (u.set 0 p) := by
    intro u p procs fallen
    refine .lax (.fallen lax ?_ ?_) lax
    · rw [set_self]
      exact fallen
    · intro pid other
      rw [set_other _ _ other, procs]
      exact alone pid other
  generalize main : (s.procs 0).pc = pc at fallen
  cases act with
  | run p =>
    cases zero
    cases fallen with
    | childCloseRead f =>
      simp only [next, statement, main, Option.some.injEq] at h
      exact h ▸ stays s _ rfl (.childDupWrite f)
    | childDupWrite f =>
      simp only [next, statement, main, Option.some.injEq] at h
      exact h ▸ stays s _ rfl (.childCloseWrite f)
    | childCloseWrite f =>
      simp only [next, statement, main, Option.some.injEq] at h
      exact h ▸ stays s _ rfl (.execLeft f)
    | execLeft f =>
      simp only [next, statement, State.exec, main, Option.some.injEq] at h
      exact h ▸ stays { s with execs := _ } _ rfl (.running _)
    | running => simp [next, statement, main] at h
    | exited => simp [next, statement, main] at h
  | fails p =>
    cases zero
    cases fallen with
    | execLeft f =>
      simp only [next, failure, main, Option.some.injEq] at h
      exact h ▸ .fails alone lax
    | _ => simp [next, failure, main] at h
  | write p =>
    cases zero
    cases fallen with
    | running output =>
      cases output with
      | zero => simp [next, programWrite, main] at h
      | succ output =>
        simp only [next, programWrite, main] at h
        split at h
        · split at h
          · split at h
            · cases h
              exact stays { s with pipes := _ } _ rfl (.running output)
            · cases h
          · cases h
            exact .fails alone lax
        · cases h
          exact stays s _ rfl (.running output)
    | _ => simp [next, programWrite, main] at h
  | read p =>
    cases zero
    cases fallen with
    | running output =>
      simp only [next, programRead, main] at h
      split at h
      · split at h
        · cases h
          refine .lax (.fallen lax ?_ alone) lax
          rw [main]
          exact .running output
        · cases h
      · cases h
    | _ => simp [next, programRead, main] at h
  | exit p =>
    cases zero
    cases fallen with
    | running output =>
      cases output with
      | zero =>
        simp only [next, programExit, main, Option.some.injEq] at h
        exact h ▸ .fails alone lax
      | succ output => simp [next, programExit, main] at h
    | _ => simp [next, programExit, main] at h

/-- Step lemma: every step leads from a phase to a phase. -/
theorem Phase.step (ok : Pipelined w stages) (phase : Phase w stages strict s) {act : Act}
    (succeeds : strict → Succeeds act s) (h : next w act s = some t) :
    Onward w stages strict s t := by
  cases phase with
  | calling k fds stack level main table stackAt alone pid pipe executed fits =>
    exact .step_calling ok level main table stackAt alone pid pipe executed fits succeeds h
  | forking k f fds stack main table frame alone pid pipe empty executed fits =>
    exact .step_forking main table frame alone pid pipe empty executed fits succeeds h
  | waiting k f parent child frame others pid pipe fits =>
    exact .step_waiting parent child frame others pid pipe fits succeeds h
  | waited k f fds stack main table frame alone pid pipe executed fits =>
    exact .step_waited main table frame alone pid pipe executed fits h
  | returned k f fds stack pfd last main table free frame alone pipe executed fits =>
    exact .step_returned last main table free frame alone pipe executed fits succeeds h
  | last k output fds stack pfd last main table free alone pipe executed fits =>
    exact .step_last last main table free alone pipe executed fits h
  | fallen lax main alone => exact .step_fallen lax main alone h
  | finished main alone =>
    have zero := only_main alone h
    rw [next_dead (zero ▸ main)] at h
    cases h

omit [DecidableEq E] in
theorem Phase.start (ok : Pipelined w stages) :
    Phase w stages strict (State.initial w (pipeline stages)) := by
  have several := ok.several
  refine .calling 0 _ [] (by omega) rfl ?_ .outer ?_ rfl rfl ?_ ?_
  · funext fd
    by_cases zero : fd = 0
    · rw [zero, base, Function.update_self, lookup_map]
      rfl
    · rw [base, Function.update_of_ne zero, lookup_map]
  · intro pid other
    simp [State.initial, other]
  · intro _
    exact ⟨rfl, fun i e found => by simp [State.initial] at found⟩
  · intro _ i small
    omega

/-- Every reachable state is in a phase. -/
theorem phase_of_reachable (ok : Pipelined w stages)
    (reach : (pipeAndExec w (pipeline stages)).Reachable s) : Phase w stages False s := by
  refine reach.invariant ?_ ?_
  · rintro r rfl
    exact .start ok
  · intro act r t phase step
    exact (phase.step ok False.elim step).phase

/-- And in a strict one when every call succeeds. -/
theorem strict_phase_of_reachable (ok : Pipelined w stages)
    (reach : ((pipeAndExec w (pipeline stages)).restrict Succeeds).Reachable s) :
    Phase w stages True s := by
  refine reach.invariant ?_ ?_
  · rintro r rfl
    exact .start ok
  · rintro act r t phase ⟨succeeds, step⟩
    exact (phase.step ok (fun _ => succeeds) step).phase

end

end Shell
