import Mathlib.Data.List.Induction
import Mathlib.Data.List.Perm.Subperm
import NetworkSystemProgramming.Popen.System

/-!
# The registry of children

What `fdtopid` and the descriptors of the parent are between the calls. `my_popen` enters
the child under the descriptor of the stream that it returns. `my_pclose` neither takes the
entry out nor closes the stream, so that the parent keeps both for good.
-/

namespace Popen

open DescriptorTables Pipes StepSystems StepSystem

variable {E : Type} {capacity : Nat} {s t : State E} {act : Act}

/-- A stream that `my_popen` returns, with the child that it was made for, and the stream of
a `my_pclose`. -/
inductive Call where
  | opened (fd pid : Nat)
  | closed (fd : Nat)
  deriving DecidableEq

/-- The calls that a step shows. -/
def calls (act : Act) (s : State E) : List Call :=
  match act, s.main with
  | .run, .record mode pfd pid => [.opened (mode.keepFd pfd) pid]
  | .pclose fd, _ => [.closed fd]
  | _, _ => []

/-- The streams that are open and not yet closed, with their own children. -/
def openStreams (log : List Call) : List (Nat × Nat) :=
  log.foldl (fun streams call =>
    match call with
    | .opened fd pid => (fd, pid) :: streams
    | .closed fd => streams.filter (·.1 ≠ fd)) []

/-- `fdtopid` maps the descriptors of these streams, and no others, to their children. -/
def RegistryExact (s : State E) (log : List Call) : Prop :=
  ∀ fd pid, (fd, pid) ∈ openStreams log ↔ s.fdtopid fd = pid ∧ pid ≠ 0

/-- The open descriptors and `fdtopid` are those at entry. -/
def Restored (entry : Table E) (s : State E) : Prop :=
  lookup s.fds = lookup (State.initial entry).fds ∧ s.fdtopid = (State.initial entry).fdtopid

section
variable [DecidableEq E]

/-- The runs of the parent and its children with the calls of the parent. -/
def commandCalls (capacity : Nat) (entry : Table E) : StepSystem (State E × List Call) Act :=
  (commands capacity entry).logged calls

end

/-! ## The steps of the parent -/

/-- What a step leaves of the parent as it is. -/
structure SameParent (s t : State E) : Prop where
  main : t.main = s.main
  fds : t.fds = s.fds
  fdtopid : t.fdtopid = s.fdtopid
  streams : t.streams = s.streams
  nextPid : t.nextPid = s.nextPid

/-- The steps of the parent, and those of others. -/
inductive ParentMoves (s : State E) : Act → State E → Prop
  | popen {mode : Mode} {output : Nat} (ready : s.main = .ready) :
      ParentMoves s (.popen mode output) { s with
        main := .fork mode (allocPair s.fds (.read s.nextPipe) (.write s.nextPipe)).2 output
        fds := (allocPair s.fds (.read s.nextPipe) (.write s.nextPipe)).1
        nextPipe := s.nextPipe + 1
        pipes := Function.update s.pipes s.nextPipe 0 }
  | fork {mode : Mode} {pfd : Nat × Nat} {output : Nat} (before : s.main = .fork mode pfd output) :
      ParentMoves s .run ({ s with
        main := .closeOther mode pfd s.nextPid
        nextPid := s.nextPid + 1 }.setChild s.nextPid ⟨mode, pfd, .closeKeep, s.fds, output⟩)
  | closeOther {mode : Mode} {pfd : Nat × Nat} {pid : Nat}
      (before : s.main = .closeOther mode pfd pid) :
      ParentMoves s .run { s with
        main := .record mode pfd pid
        fds := close s.fds (mode.otherFd pfd) }
  | record {mode : Mode} {pfd : Nat × Nat} {pid : Nat} (before : s.main = .record mode pfd pid) :
      ParentMoves s .run { s with
        main := .ready
        fdtopid := Function.update s.fdtopid (mode.keepFd pfd) pid
        streams := mode.keepFd pfd :: s.streams }
  | waited {pid : Nat} (before : s.main = .wait pid) : ParentMoves s .run { s with main := .ready }
  | pclose {fd : Nat} (ready : s.main = .ready) (stream : fd ∈ s.streams) :
      ParentMoves s (.pclose fd) { s with main := .wait (s.fdtopid fd) }
  | refused {fd : Nat} (stream : fd ∈ s.streams) (unknown : s.fdtopid fd = 0) :
      ParentMoves s (.pclose fd) s
  | other {act : Act} {u : State E} (quiet : calls act s = []) (same : SameParent s u) :
      ParentMoves s act u

theorem ParentMoves.of_step [DecidableEq E] (h : next capacity act s = some t) :
    ParentMoves s act t := by
  cases act with
  | popen mode output =>
    simp only [next, Popen.popen] at h
    split at h
    · rename_i ready
      cases h
      exact .popen ready
    · cases h
  | run => grind [next, statement, ParentMoves]
  | pclose fd =>
    simp only [next, Popen.pclose] at h
    obtain ⟨⟨ready, stream⟩, returns⟩ := Option.ite_none_right_eq_some.mp h
    by_cases unknown : s.fdtopid fd = 0
    · rw [if_pos unknown] at returns
      cases returns
      exact .refused stream unknown
    · rw [if_neg unknown] at returns
      cases returns
      exact .pclose ready stream
  | write fd n =>
    refine .other rfl ?_
    grind [next, parentWrite, SameParent, State.setPipe]
  | read fd n =>
    refine .other rfl ?_
    grind [next, parentRead, SameParent, State.setPipe]
  | prepare pid =>
    refine .other rfl ?_
    grind [next, prepare, SameParent, State.setChild, State.exit]
  | childRead pid n =>
    refine .other rfl ?_
    grind [next, childRead, SameParent, State.setPipe]
  | childEof pid =>
    refine .other rfl ?_
    grind [next, childEof, SameParent, State.setChild, State.exit]
  | childWrite pid n =>
    refine .other rfl ?_
    grind [next, childWrite, SameParent, State.setChild, State.setPipe, State.exit]
  | childExit pid =>
    refine .other rfl ?_
    grind [next, childExit, SameParent, State.setChild, State.exit]

/-! ## What is known between the calls -/

theorem openStreams_opened (log : List Call) (fd pid : Nat) :
    openStreams (log ++ [.opened fd pid]) = (fd, pid) :: openStreams log := by
  rw [openStreams, List.foldl_append]
  rfl

theorem openStreams_closed (log : List Call) (fd : Nat) :
    openStreams (log ++ [.closed fd]) = (openStreams log).filter (·.1 ≠ fd) := by
  rw [openStreams, List.foldl_append]
  rfl

/-- A stream that is opened stays among the open ones until it is closed. -/
theorem mem_openStreams {log : List Call} {fd pid : Nat} (opened : .opened fd pid ∈ log)
    (kept : .closed fd ∉ log) : (fd, pid) ∈ openStreams log := by
  induction log using List.reverseRecOn with
  | nil => cases opened
  | append_singleton log call ih =>
    have before : .closed fd ∉ log := fun h => kept (List.mem_append_left _ h)
    cases call with
    | opened fd' pid' =>
      rw [openStreams_opened]
      rcases List.mem_append.mp opened with earlier | last
      · exact List.mem_cons_of_mem _ (ih earlier before)
      · cases List.mem_singleton.mp last
        exact List.mem_cons_self
    | closed fd' =>
      have other : fd ≠ fd' := by
        rintro rfl
        exact kept (List.mem_append_right _ (List.mem_singleton_self _))
      have earlier : .opened fd pid ∈ log := by simpa using opened
      rw [openStreams_closed, List.mem_filter]
      exact ⟨ih earlier before, by simpa using other⟩

/-- The descriptors of a pipe that no stream has yet. -/
structure Fresh (fds : Table (End E)) (streams : List Nat) (mode : Mode) (pfd : Nat × Nat) :
    Prop where
  keep : mode.keepFd pfd ∉ streams
  other : mode.otherFd pfd ∉ streams
  differ : mode.keepFd pfd ≠ mode.otherFd pfd
  opened : (lookup fds (mode.keepFd pfd)).isSome

/-- What the parent has in hand in `my_popen`. -/
def InHand (fds : Table (End E)) (streams : List Nat) : MainPc → Prop
  | .fork mode pfd _ => Fresh fds streams mode pfd
  | .closeOther mode pfd pid => Fresh fds streams mode pfd ∧ pid ≠ 0
  | .record mode pfd pid =>
    mode.keepFd pfd ∉ streams ∧ (lookup fds (mode.keepFd pfd)).isSome ∧ pid ≠ 0
  | .ready | .wait _ => True

/-- Every stream that was returned is entered in `fdtopid` and open, closed or not. -/
structure Registered (entry : Table E) (s : State E) (log : List Call) : Prop where
  nodup : s.streams.Nodup
  kept : ∀ fd ∈ s.streams, (lookup s.fds fd).isSome
  entered : ∀ fd, s.fdtopid fd ≠ 0 ↔ fd ∈ s.streams
  opened : ∀ fd pid, .opened fd pid ∈ log ↔ fd ∈ s.streams ∧ s.fdtopid fd = pid
  listed : ∀ fd pid, (fd, pid) ∈ openStreams log → .opened fd pid ∈ log
  closed : ∀ fd, .closed fd ∈ log → fd ∈ s.streams ∧ ∀ pid, (fd, pid) ∉ openStreams log
  inHand : InHand s.fds s.streams s.main
  idle : s.streams = [] →
    (s.main = .ready → s.fds = (State.initial entry).fds) ∧ ∀ pid, s.main ≠ .wait pid
  positive : 0 < s.nextPid

theorem Registered.start (entry : Table E) : Registered entry (State.initial entry) [] where
  nodup := List.nodup_nil
  kept := by simp [State.initial]
  entered := by simp [State.initial]
  opened := by simp [State.initial]
  listed := by simp [openStreams]
  closed := by simp
  inHand := trivial
  idle := fun _ => ⟨fun _ => rfl, fun _ => by simp [State.initial]⟩
  positive := Nat.one_pos

section
variable {entry : Table E} {log : List Call}

/-- A step that opens and closes no stream. -/
theorem Registered.of_quiet (registered : Registered entry s log)
    (kept : ∀ fd ∈ s.streams, (lookup t.fds fd).isSome) (fdtopid : t.fdtopid = s.fdtopid)
    (streams : t.streams = s.streams) (inHand : InHand t.fds s.streams t.main)
    (idle : s.streams = [] →
      (t.main = .ready → t.fds = (State.initial entry).fds) ∧ ∀ pid, t.main ≠ .wait pid)
    (nextPid : s.nextPid ≤ t.nextPid) : Registered entry t log where
  nodup := streams ▸ registered.nodup
  kept := by rwa [streams]
  entered := by
    rw [fdtopid, streams]
    exact registered.entered
  opened := by
    rw [fdtopid, streams]
    exact registered.opened
  listed := registered.listed
  closed := by
    rw [streams]
    exact registered.closed
  inHand := by rwa [streams]
  idle := by rwa [streams]
  positive := Nat.lt_of_lt_of_le registered.positive nextPid

/-- `pipe` takes descriptors that no stream has. -/
theorem Registered.popen (registered : Registered entry s log) (mode : Mode) (output : Nat) :
    Registered entry { s with
      main := .fork mode (allocPair s.fds (.read s.nextPipe) (.write s.nextPipe)).2 output
      fds := (allocPair s.fds (.read s.nextPipe) (.write s.nextPipe)).1
      nextPipe := s.nextPipe + 1
      pipes := Function.update s.pipes s.nextPipe 0 } log := by
  obtain ⟨first, second, old⟩ := allocPair_open s.fds (.read s.nextPipe) (.write s.nextPipe)
  have differ := fd_ne first second (by simp)
  have unused : (allocPair s.fds (.read s.nextPipe) (.write s.nextPipe)).2.1 ∉ s.streams ∧
      (allocPair s.fds (.read s.nextPipe) (.write s.nextPipe)).2.2 ∉ s.streams := by
    constructor
    all_goals
      intro member
      obtain ⟨e, opened⟩ := Option.isSome_iff_exists.mp (registered.kept _ member)
      obtain ⟨-, not_first, not_second⟩ := old _ e opened
    · exact not_first rfl
    · exact not_second rfl
  refine registered.of_quiet ?_ rfl rfl ?_ ?_ (Nat.le_refl _)
  · intro fd member
    obtain ⟨e, opened⟩ := Option.isSome_iff_exists.mp (registered.kept fd member)
    exact Option.isSome_iff_exists.mpr ⟨e, (old fd e opened).1⟩
  · cases mode with
    | r => exact ⟨unused.1, unused.2, differ, by simp [Mode.keepFd, first]⟩
    | w => exact ⟨unused.2, unused.1, differ.symm, by simp [Mode.keepFd, second]⟩
  · intro _
    exact ⟨by simp, by simp⟩

/-- A new stream is entered with its child. -/
theorem Registered.record (registered : Registered entry s log) {mode : Mode} {pfd : Nat × Nat}
    {pid : Nat} (before : s.main = .record mode pfd pid) :
    Registered entry { s with
      main := .ready
      fdtopid := Function.update s.fdtopid (mode.keepFd pfd) pid
      streams := mode.keepFd pfd :: s.streams } (log ++ [.opened (mode.keepFd pfd) pid]) := by
  have inHand := registered.inHand
  rw [before] at inHand
  obtain ⟨fresh, opened, child⟩ := inHand
  have others {fd : Nat} (member : fd ∈ s.streams) : fd ≠ mode.keepFd pfd := by
    rintro rfl
    exact fresh member
  constructor
  · exact List.nodup_cons.mpr ⟨fresh, registered.nodup⟩
  · intro fd member
    rcases List.mem_cons.mp member with rfl | member
    · exact opened
    · exact registered.kept fd member
  · intro fd
    by_cases new : fd = mode.keepFd pfd
    · simp [new, child]
    · simp [new, registered.entered fd, Function.update_of_ne]
  · intro fd pid'
    rw [List.mem_append, List.mem_singleton, registered.opened, List.mem_cons]
    by_cases new : fd = mode.keepFd pfd
    · simp [new, fresh, eq_comm]
    · simp [new, Function.update_of_ne]
  · intro fd pid' member
    rw [openStreams_opened] at member
    rcases List.mem_cons.mp member with same | member
    · cases same
      exact List.mem_append_right _ (List.mem_singleton_self _)
    · exact List.mem_append_left _ (registered.listed fd pid' member)
  · intro fd member
    have earlier : .closed fd ∈ log := by simpa using member
    obtain ⟨stream, gone⟩ := registered.closed fd earlier
    refine ⟨List.mem_cons_of_mem _ stream, ?_⟩
    intro pid' listed
    rw [openStreams_opened] at listed
    rcases List.mem_cons.mp listed with same | listed
    · cases same
      exact fresh stream
    · exact gone pid' listed
  · trivial
  · intro empty
    cases empty
  · exact registered.positive

/-- `my_pclose` of a stream changes nothing but what the parent waits for. -/
theorem Registered.closes (registered : Registered entry s log) {fd : Nat}
    (stream : fd ∈ s.streams) : Registered entry s (log ++ [.closed fd]) where
  nodup := registered.nodup
  kept := registered.kept
  entered := registered.entered
  opened := by
    intro fd' pid
    rw [← registered.opened]
    simp
  listed := by
    intro fd' pid member
    rw [openStreams_closed] at member
    exact List.mem_append_left _ (registered.listed fd' pid (List.mem_filter.mp member |>.1))
  closed := by
    intro fd' member
    by_cases same : fd' = fd
    · rw [same, openStreams_closed]
      exact ⟨stream, by simp⟩
    · have earlier : .closed fd' ∈ log := by simpa [same] using member
      obtain ⟨stream', gone⟩ := registered.closed fd' earlier
      refine ⟨stream', ?_⟩
      intro pid listed
      rw [openStreams_closed] at listed
      exact gone pid (List.mem_filter.mp listed |>.1)
  inHand := registered.inHand
  idle := registered.idle
  positive := registered.positive

/-- Step lemma: what is known is kept by every step of the parent and its children. -/
theorem Registered.step [DecidableEq E] (registered : Registered entry s log)
    (h : next capacity act s = some t) : Registered entry t (log ++ calls act s) := by
  have inHand := registered.inHand
  cases ParentMoves.of_step h with
  | @popen mode output ready =>
    rw [show calls (.popen mode output) s = [] from rfl, List.append_nil]
    exact registered.popen mode output
  | @fork mode pfd output before =>
    have shown : calls .run s = [] := by
      simp [calls, before]
    rw [before] at inHand
    rw [shown, List.append_nil]
    refine registered.of_quiet registered.kept rfl rfl ⟨inHand, ?_⟩ ?_ (Nat.le_succ _)
    · exact Nat.ne_of_gt registered.positive
    · intro _
      exact ⟨by simp [State.setChild], by simp [State.setChild]⟩
  | @closeOther mode pfd pid before =>
    have shown : calls .run s = [] := by
      simp [calls, before]
    rw [before] at inHand
    obtain ⟨fresh, child⟩ := inHand
    rw [shown, List.append_nil]
    refine registered.of_quiet ?_ rfl rfl ⟨fresh.keep, ?_, child⟩ ?_ (Nat.le_refl _)
    · intro fd member
      have other : fd ≠ mode.otherFd pfd := by
        rintro rfl
        exact fresh.other member
      rw [lookup_close_other other]
      exact registered.kept fd member
    · rw [lookup_close_other fresh.differ]
      exact fresh.opened
    · intro _
      exact ⟨by simp, by simp⟩
  | @record mode pfd pid before =>
    have shown : calls .run s = [.opened (mode.keepFd pfd) pid] := by
      simp [calls, before]
    rw [shown]
    exact registered.record before
  | @waited pid before =>
    have shown : calls .run s = [] := by
      simp [calls, before]
    rw [shown, List.append_nil]
    refine registered.of_quiet registered.kept rfl rfl trivial ?_ (Nat.le_refl _)
    intro empty
    exact absurd before ((registered.idle empty).2 pid)
  | @pclose fd ready stream =>
    have waits : Registered entry { s with main := .wait (s.fdtopid fd) } log := by
      refine registered.of_quiet registered.kept rfl rfl trivial ?_ (Nat.le_refl _)
      intro empty
      rw [empty] at stream
      cases stream
    exact waits.closes stream
  | refused stream unknown => exact registered.closes stream
  | other quiet same =>
    rw [quiet, List.append_nil]
    refine registered.of_quiet ?_ same.fdtopid same.streams ?_ ?_ (Nat.le_of_eq same.nextPid.symm)
    · rw [same.fds]
      exact registered.kept
    · rwa [same.main, same.fds]
    · rw [same.main, same.fds]
      exact registered.idle

theorem Registered.of_reachable [DecidableEq E] {s : State E × List Call}
    (reach : (commandCalls capacity entry).Reachable s) : Registered entry s.1 s.2 := by
  refine reach.invariant (I := fun s => Registered entry s.1 s.2) ?_ ?_
  · rintro ⟨_, _⟩ ⟨rfl, rfl⟩
    exact Registered.start entry
  · rintro act ⟨r, log⟩ ⟨u, _⟩ registered ⟨h, rfl⟩
    exact registered.step h

/-- A closed stream is still entered, so the registry is exact while none is closed. -/
theorem Registered.exact_iff (registered : Registered entry s log) :
    RegistryExact s log ↔ ∀ fd, .closed fd ∉ log := by
  constructor
  · intro registry fd member
    obtain ⟨stream, gone⟩ := registered.closed fd member
    exact gone _ ((registry fd _).mpr ⟨rfl, (registered.entered fd).mpr stream⟩)
  · intro kept fd pid
    constructor
    · intro listed
      obtain ⟨stream, entry⟩ := (registered.opened fd pid).mp (registered.listed fd pid listed)
      exact ⟨entry, entry ▸ (registered.entered fd).mpr stream⟩
    · rintro ⟨rfl, child⟩
      have opened := (registered.opened fd _).mpr ⟨(registered.entered fd).mp child, rfl⟩
      exact mem_openStreams opened (kept fd)

/-- Without streams the parent is as it was at entry. -/
theorem Registered.restored (registered : Registered entry s log) (empty : s.streams = [])
    (ready : s.main = .ready) : Restored entry s := by
  constructor
  · rw [(registered.idle empty).1 ready]
  · funext fd
    by_contra child
    have stream := (registered.entered fd).mp child
    rw [empty] at stream
    cases stream

end

section
variable [DecidableEq E] {entry : Table E} {log : List Call}

/-- What the parent has of the streams is right: `fdtopid` has those that are open, and when
all are closed the descriptors and `fdtopid` are what they were. -/
def StreamsAccounted (entry : Table E) (s : State E) (log : List Call) : Prop :=
  RegistryExact s log ∧ (openStreams log = [] → Restored entry s)

/-- Between the calls of any run the streams are accounted for exactly as long as none of
them has been closed. -/
theorem accounted_iff_none_closed (reach : (commandCalls capacity entry).Reachable (s, log))
    (ready : s.main = .ready) : StreamsAccounted entry s log ↔ ∀ fd, .closed fd ∉ log := by
  have registered := Registered.of_reachable reach
  rw [StreamsAccounted, registered.exact_iff]
  refine and_iff_left_of_imp ?_
  intro kept closed
  refine registered.restored ?_ ready
  rw [List.eq_nil_iff_forall_not_mem]
  intro fd stream
  have opened := (registered.opened fd _).mpr ⟨stream, rfl⟩
  have listed := mem_openStreams opened (kept fd)
  rw [closed] at listed
  cases listed

/-- The descriptors of all streams that were returned stay open, so there are no more of
them than descriptors that the parent may have. -/
theorem streams_bounded (reach : (commandCalls capacity entry).Reachable (s, log)) {limit : Nat}
    (below : ∀ fd, (lookup s.fds fd).isSome → fd < limit) : s.streams.length ≤ limit := by
  have registered := Registered.of_reachable reach
  have inside : s.streams ⊆ List.range limit := by
    intro fd member
    exact List.mem_range.mpr (below fd (registered.kept fd member))
  have length := (registered.nodup.subperm inside).length_le
  rwa [List.length_range] at length

end

/-- `my_popen` of a command without output. -/
private def opens : List Act := [.popen .r 0, .run, .run, .run]

theorem open_stream_accounted : ∃ s : State Nat, s.fdtopid 3 = 1 ∧
    StreamsAccounted standardStreams s [.opened 3 1] := by
  have run : (follow (recording (next 4) calls) opens (State.initial standardStreams, [])).map
      (fun s => (s.1.main, s.1.fdtopid 3, s.2)) = some (.ready, 1, [.opened 3 1]) := by
    decide +kernel
  obtain ⟨⟨s, log⟩, followed, facts⟩ := Option.map_eq_some_iff.mp run
  simp only [Prod.mk.injEq] at facts
  obtain ⟨ready, child, rfl⟩ := facts
  have reach : (commandCalls 4 standardStreams).Reachable (s, [.opened 3 1]) :=
    ⟨(State.initial standardStreams, []), ⟨rfl, rfl⟩,
      follow_recording_run (fun _ _ _ step => step) followed⟩
  exact ⟨s, child, (accounted_iff_none_closed reach ready).mpr (by simp)⟩

/-- After `my_pclose` of the only stream its descriptor is open, and its child still entered. -/
theorem closed_stream_stays : ∃ s : State Nat,
    (commandCalls 4 standardStreams).Reachable (s, [.opened 3 1, .closed 3]) ∧ s.main = .ready ∧
      (lookup s.fds 3).isSome ∧ s.fdtopid 3 = 1 ∧
      ¬ StreamsAccounted standardStreams s [.opened 3 1, .closed 3] := by
  have run : (follow (recording (next 4) calls)
      (opens ++ [.prepare 1, .prepare 1, .prepare 1, .childExit 1, .pclose 3, .run])
      (State.initial standardStreams, [])).map
        (fun s => (s.1.main, (lookup s.1.fds 3).isSome, s.1.fdtopid 3, s.2)) =
      some (.ready, true, 1, [.opened 3 1, .closed 3]) := by
    decide +kernel
  obtain ⟨⟨s, log⟩, followed, facts⟩ := Option.map_eq_some_iff.mp run
  simp only [Prod.mk.injEq] at facts
  obtain ⟨ready, opened, child, rfl⟩ := facts
  have reach : (commandCalls 4 standardStreams).Reachable (s, [.opened 3 1, .closed 3]) :=
    ⟨(State.initial standardStreams, []), ⟨rfl, rfl⟩,
      follow_recording_run (fun _ _ _ step => step) followed⟩
  refine ⟨s, reach, ready, opened, child, ?_⟩
  rintro ⟨registry, -⟩
  have listed := (registry 3 1).mpr ⟨child, by decide⟩
  exact absurd listed (by decide)

end Popen
