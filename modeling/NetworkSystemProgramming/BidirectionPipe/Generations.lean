import Mathlib.Tactic.Common
import NetworkSystemProgramming.BidirectionPipe.System

/-!
# The processes of the uppercase filter

A child falls through to the end of the loop body and reads the original stdin next, and
at the end of stdin `read` returns 0, which is not `EOF`. So every process that is forked
forks another one, whatever stdin is.
-/

namespace BidirectionPipe

open ByteBuffers DescriptorTables Pipes StepSystems StepSystem

variable {E : Type} [DecidableEq E]

/-- What may be said of a run up to some state. -/
structure Disciplined (s : State E × List Event) : Prop where
  /-- Only the process that was started reads the original stdin. -/
  original : ∀ pid n, Event.read pid n ∈ s.2 → pid = 0
  once : ∀ pid, s.2.count (.transform pid) ≤ 1
  /-- No more processes are forked than chunks are read. -/
  created : s.1.nextPid - 1 ≤ s.2.countP fun
    | .read _ n => 0 < n
    | .transform _ => false

/-- The four descriptors of the two pipes and that of stdin. -/
structure Wired (p : Process E) (pipeA pipeB : Nat) : Prop where
  p1Read : lookup p.fds p.p1.1 = some (.read pipeA)
  p1Write : lookup p.fds p.p1.2 = some (.write pipeA)
  p2Read : lookup p.fds p.p2.1 = some (.read pipeB)
  p2Write : lookup p.fds p.p2.2 = some (.write pipeB)
  stdin : ∃ e, lookup p.fds p.stdinDup = some (.entry e)
  high : ∀ fd ∈ [p.p1.1, p.p1.2, p.p2.1, p.p2.2, p.stdinDup], 2 ≤ fd

omit [DecidableEq E] in
/-- The result of `fork` changes nothing about the descriptors. -/
theorem Wired.of_local {p : Process E} {pipeA pipeB : Nat} (wired : Wired p pipeA pipeB) (pc : Pc)
    (pid : Nat) : Wired { p with pc, pid } pipeA pipeB :=
  ⟨wired.p1Read, wired.p1Write, wired.p2Read, wired.p2Write, wired.stdin, wired.high⟩

/-- A process at the test of the loop. -/
structure AtTest (s : State E) (pid : Nat) : Prop where
  forked : pid < s.nextPid
  test : (s.procs pid).pc = .read
  stdin : ∃ e, lookup (s.procs pid).fds (s.procs pid).stdinDup = some (.entry e)
  high : 2 ≤ (s.procs pid).stdinDup
  open0 : lookup (s.procs pid).fds 0 ≠ none
  open1 : lookup (s.procs pid).fds 1 ≠ none

section Steps
variable {behind : List Byte} {entry : Table E} {stdin : List (List Byte)} {s t : State E}
  {pid : Nat} {p : Process E}

theorem run_step (here : s.procs pid = p) (h : statement behind s pid p = some t) :
    (plainRuns behind entry stdin).step (.run pid) s t := by
  refine ⟨fun _ => by simp, ?_⟩
  rw [← here] at h
  exact h

theorem readStep_pipe {fd pipe : Nat} {got : List Byte → Process E}
    (opened : lookup (s.procs pid).fds fd = some (.read pipe)) (bytes : s.pipes pipe ≠ []) :
    readStep s pid fd got = some ((s.setPipe pipe ((s.pipes pipe).drop bufSize)).set pid
      (got ((s.pipes pipe).take bufSize))) := by
  simp only [readStep, readFd, opened, ne_eq, bytes, not_false_eq_true, if_true]

theorem readStep_stdin {fd : Nat} {e : E} (got : List Byte → Process E)
    (opened : lookup (s.procs pid).fds fd = some (.entry e)) :
    ∃ rest bytes, readStep s pid fd got =
      some (({ s with stdin := rest } : State E).set pid (got bytes)) := by
  simp only [readStep, readFd, opened]
  cases left : s.stdin with
  | nil => exact ⟨s.stdin, [], rfl⟩
  | cons chunk rest => exact ⟨rest, chunk, rfl⟩

theorem writeStep_pipe {fd pipe : Nat} {bytes : List Byte}
    (opened : lookup (s.procs pid).fds fd = some (.write pipe))
    (reader : Held s.tables s.nextPid (.read pipe)) :
    writeStep s pid fd bytes p = (s.setPipe pipe (s.pipes pipe ++ bytes)).set pid p := by
  simp only [writeStep, writeFd, opened, if_pos reader]

omit [DecidableEq E] in
theorem dup2_fds {old new : Nat} {x : End E} {pc : Pc} (opened : lookup p.fds old = some x) :
    (p.dup2 old new pc).fds = assign p.fds new x := by
  rw [Process.dup2, dup2_of_open opened, Option.getD_some]

variable (behind entry stdin)

/-- A child takes what is in its first pipe, which it has as its stdin from then on. -/
theorem child_receives {A B : Nat} (here : s.procs pid = p) (start : p.pc = .childCloseP1Write)
    (wired : Wired p A B) (bytes : s.pipes A ≠ []) :
    ∃ t fds childBuf, (plainRuns behind entry stdin).Run s t ∧ t.nextPid = s.nextPid ∧
      (∀ other ≠ pid, t.procs other = s.procs other) ∧
      t.procs pid = { p with pc := .childCloseP1Read, fds, childBuf } ∧
      lookup fds =
        Function.update (Function.update (lookup p.fds) p.p1.2 none) 0 (some (.read A)) := by
  let q1 : Process E := p.close p.p1.2 .childDupStdin
  let q2 : Process E := { q1.dup2 p.p1.1 0 .childRead with childBuf := Buffer.zero bufSize }
  let got : Buffer bufSize := q2.childBuf.receive ((s.pipes A).take bufSize)
  let q3 : Process E := { q2 with pc := .childCloseP1Read, childBuf := got }
  let s2 : State E := (s.set pid q1).set pid q2
  let s3 : State E := (s2.setPipe A ((s.pipes A).drop bufSize)).set pid q3
  have differ : p.p1.1 ≠ p.p1.2 := fd_ne wired.p1Read wired.p1Write (by simp)
  have table2 : lookup q2.fds =
      Function.update (Function.update (lookup p.fds) p.p1.2 none) 0 (some (.read A)) := by
    have open1 : lookup q1.fds p.p1.1 = some (.read A) := by
      rw [← wired.p1Read]
      exact lookup_close_other differ
    change lookup (q1.dup2 p.p1.1 0 .childRead).fds = _
    rw [dup2_fds open1, lookup_assign]
    exact congrArg (Function.update · 0 _) (lookup_close _ _)
  have close : (plainRuns behind entry stdin).step (.run pid) s (s.set pid q1) :=
    run_step here (by simp only [statement, start]; rfl)
  have dup : (plainRuns behind entry stdin).step (.run pid) (s.set pid q1) s2 :=
    run_step (set_self _ _ _) rfl
  have read : (plainRuns behind entry stdin).step (.run pid) s2 s3 := by
    refine run_step (set_self _ _ _) ?_
    have open2 : lookup (s2.procs pid).fds p.p1.1 = some (.read A) := by
      rw [set_self, table2]
      simp [Function.update_apply, differ, wired.p1Read]
    exact readStep_pipe open2 bytes
  refine ⟨s3, q2.fds, got, (((Run.refl s).snoc close).snoc dup).snoc read, rfl, ?_, ?_, table2⟩
  · intro other ne
    simp [s3, s2, State.set, State.setPipe, ne]
  · exact set_self _ _ _

/-- A child that has read writes what it has made of it, and falls through to the test of the
loop. -/
theorem child_answers {A B : Nat} (forked : pid < s.nextPid) (here : s.procs pid = p)
    (start : p.pc = .childCloseP1Read) (open1 : lookup p.fds p.p1.1 = some (.read A))
    (open2 : lookup p.fds p.p2.1 = some (.read B)) (open3 : lookup p.fds p.p2.2 = some (.write B))
    (open0 : lookup p.fds 0 ≠ none) {e : E} (opened : lookup p.fds p.stdinDup = some (.entry e))
    (high : ∀ fd ∈ [p.p1.1, p.p2.1, p.p2.2, p.stdinDup], 2 ≤ fd)
    (reader : ∃ other < s.nextPid, other ≠ pid ∧ Holds (s.procs other).fds (.read B)) :
    ∃ t, (plainRuns behind entry stdin).Run s t ∧ t.nextPid = s.nextPid ∧ AtTest t pid := by
  simp only [List.forall_mem_cons] at high
  obtain ⟨a2, c2, d2, i2, -⟩ := high
  let q4 : Process E := p.close p.p1.1 .childUpper
  let q5 : Process E := { q4 with pc := .childCloseP2Read, childBuf := upper q4.childBuf }
  let q6 : Process E := q5.close p.p2.1 .childDupStdout
  let q7 : Process E := q6.dup2 p.p2.2 1 .childWrite
  let q8 : Process E := { q7 with pc := .childCloseP2Write }
  let q9 : Process E := q8.close p.p2.2 .memset
  let q10 : Process E := { q9 with pc := .read, buf := Buffer.zero bufSize }
  let s7 : State E := (((s.set pid q4).set pid q5).set pid q6).set pid q7
  let s8 : State E := (s7.setPipe B (s7.pipes B ++ stringAt behind q7.childBuf)).set pid q8
  have da : p.p2.2 ≠ p.p1.1 := fd_ne open3 open1 (by simp)
  have dc : p.p2.2 ≠ p.p2.1 := fd_ne open3 open2 (by simp)
  have ia : p.stdinDup ≠ p.p1.1 := fd_ne opened open1 (by simp)
  have ic : p.stdinDup ≠ p.p2.1 := fd_ne opened open2 (by simp)
  have id : p.stdinDup ≠ p.p2.2 := fd_ne opened open3 (by simp)
  have table6 : lookup q6.fds =
      Function.update (Function.update (lookup p.fds) p.p1.1 none) p.p2.1 none :=
    (lookup_close _ _).trans (congrArg (Function.update · _ _) (lookup_close _ _))
  have table7 : lookup q7.fds = Function.update (lookup q6.fds) 1 (some (.write B)) := by
    have open6 : lookup q6.fds p.p2.2 = some (.write B) := by
      rw [table6, Function.update_of_ne dc, Function.update_of_ne da]
      exact open3
    change lookup (q6.dup2 p.p2.2 1 .childWrite).fds = _
    rw [dup2_fds open6, lookup_assign]
  have table10 : lookup q10.fds = Function.update (lookup q7.fds) p.p2.2 none := lookup_close _ _
  have quiet : (plainRuns behind entry stdin).Run s s7 :=
    Run.cons (run_step here (by simp only [statement, start]; rfl))
      (Run.cons (run_step (set_self _ _ _) rfl) (Run.cons (run_step (set_self _ _ _) rfl)
        (Run.cons (run_step (set_self _ _ _) rfl) (Run.refl _))))
  have write : (plainRuns behind entry stdin).step (.run pid) s7 s8 := by
    refine run_step (set_self _ _ _) ?_
    have open7 : lookup (s7.procs pid).fds p.p2.2 = some (.write B) := by
      rw [set_self, table7, table6, Function.update_of_ne (Nat.ne_of_gt d2),
        Function.update_of_ne dc, Function.update_of_ne da]
      exact open3
    have held : Held s7.tables s7.nextPid (.read B) := by
      obtain ⟨other, below, ne, holds⟩ := reader
      have same : s7.procs other = s.procs other := by
        simp [s7, State.set, ne]
      refine ⟨other, below, ?_⟩
      rw [State.tables, same]
      exact holds
    exact congrArg some (writeStep_pipe open7 held)
  have last : (plainRuns behind entry stdin).Run s8 ((s8.set pid q9).set pid q10) :=
    Run.cons (run_step (set_self _ _ _) rfl) (Run.cons (run_step (set_self _ _ _) rfl)
      (Run.refl _))
  have final : ((s8.set pid q9).set pid q10).procs pid = q10 := set_self _ _ _
  have i0 : p.stdinDup ≠ 0 := by omega
  have i1 : p.stdinDup ≠ 1 := by omega
  refine ⟨_, (quiet.snoc write).trans last, rfl, ?_⟩
  constructor
  · exact forked
  · rw [final]
  · refine ⟨e, ?_⟩
    rw [final]
    change lookup q10.fds p.stdinDup = _
    rw [table10, table7, table6, ← opened]
    simp [ia, ic, id, i1]
  · rw [final]
    exact i2
  · rw [final, table10, table7, table6, Function.update_of_ne (by omega),
      Function.update_of_ne (by omega), Function.update_of_ne (by omega),
      Function.update_of_ne (by omega)]
    exact open0
  · rw [final, table10, table7, Function.update_of_ne (by omega), Function.update_self]
    simp

/-- From its `fork` on, a child comes back to the test of the loop, when it has something to
read and another process holds the read end of its second pipe. -/
theorem child_runs {A B : Nat} (forked : pid < s.nextPid) (here : s.procs pid = p)
    (start : p.pc = .childCloseP1Write) (wired : Wired p A B) (differ : A ≠ B)
    (bytes : s.pipes A ≠ [])
    (reader : ∃ other < s.nextPid, other ≠ pid ∧ Holds (s.procs other).fds (.read B)) :
    ∃ t, (plainRuns behind entry stdin).Run s t ∧ t.nextPid = s.nextPid ∧ AtTest t pid := by
  obtain ⟨r, fds, buf, first, nextPid, others, there, table⟩ :=
    child_receives behind entry stdin here start wired bytes
  obtain ⟨p1Read, p1Write, p2Read, p2Write, ⟨e, opened⟩, high⟩ := wired
  have above := high
  simp only [List.forall_mem_cons] at above
  obtain ⟨a2, -, c2, d2, i2, -⟩ := above
  have kept {fd : Nat} {x : End E} (held : lookup p.fds fd = some x) (ne : fd ≠ p.p1.2)
      (not0 : 2 ≤ fd) : lookup fds fd = some x := by
    rw [table, Function.update_of_ne (Nat.ne_of_gt (Nat.lt_of_lt_of_le Nat.zero_lt_two not0)),
      Function.update_of_ne ne]
    exact held
  obtain ⟨t, second, same, ready⟩ := child_answers behind entry stdin (nextPid ▸ forked) there rfl
    (kept p1Read (fd_ne p1Read p1Write (by simp)) a2)
    (kept p2Read (fd_ne p2Read p1Write (by simp)) c2)
    (kept p2Write (fd_ne p2Write p1Write (by simpa using differ.symm)) d2)
    (by rw [table, Function.update_self]; simp)
    (kept opened (fd_ne opened p1Write (by simp)) i2)
    (by simp only [List.forall_mem_cons]; exact ⟨a2, c2, d2, i2, by simp⟩)
    (by
      obtain ⟨other, below, ne, holds⟩ := reader
      exact ⟨other, nextPid ▸ below, ne, (others other ne).symm ▸ holds⟩)
  exact ⟨t, first.trans second, same.trans nextPid, ready⟩

/-- A process at the test of the loop reads stdin, makes two pipes and forks. -/
theorem parent_forks (ready : AtTest s pid) :
    ∃ t p A B, (plainRuns behind entry stdin).Run s t ∧ t.nextPid = s.nextPid + 1 ∧
      t.procs pid = { p with pc := .closeP1Read, pid := s.nextPid } ∧
      t.procs s.nextPid = { p with pc := .childCloseP1Write, pid := 0 } ∧ Wired p A B ∧
      A ≠ B := by
  obtain ⟨forked, test, ⟨e, opened⟩, above2, open0, open1⟩ := ready
  obtain ⟨x0, open0⟩ := Option.ne_none_iff_exists'.mp open0
  obtain ⟨x1, open1⟩ := Option.ne_none_iff_exists'.mp open1
  let p := s.procs pid
  let c := s.nextPid
  let A := s.nextPipe
  let B := s.nextPipe + 1
  let madeA := allocPair p.fds (End.read A) (.write A)
  let madeB := allocPair madeA.1 (End.read B) (.write B)
  obtain ⟨newA1, newA2, oldA⟩ := allocPair_open p.fds (End.read A) (.write A)
  obtain ⟨newB1, newB2, oldB⟩ := allocPair_open madeA.1 (End.read B) (.write B)
  obtain ⟨rest, bytes, read⟩ := readStep_stdin
    (fun bytes => { p with pc := .pipe1, buf := p.buf.receive bytes }) opened
  let q1 : Process E := { p with pc := .pipe1, buf := p.buf.receive bytes }
  let q2 : Process E := { q1 with pc := .pipe2, fds := madeA.1, p1 := madeA.2 }
  let q3 : Process E := { q2 with pc := .fork, fds := madeB.1, p2 := madeB.2 }
  let q4 : Process E := { q3 with pc := .closeP1Read, pid := c }
  let child : Process E := { q3 with pc := .childCloseP1Write, pid := 0 }
  let s1 : State E := ({ s with stdin := rest } : State E).set pid q1
  let s2 : State E := (({ s1 with nextPipe := A + 1 } : State E).setPipe A []).set pid q2
  let s3 : State E := (({ s2 with nextPipe := B + 1 } : State E).setPipe B []).set pid q3
  let s4 : State E := (({ s3 with nextPid := c + 1 } : State E).set pid q4).set c child
  have older : pid ≠ c := Nat.ne_of_lt forked
  have wired : Wired q3 A B := by
    refine ⟨(oldB _ _ newA1).1, (oldB _ _ newA2).1, newB1, newB2,
      ⟨e, (oldB _ _ (oldA _ _ opened).1).1⟩, ?_⟩
    have low0 := oldA _ _ open0
    have low1 := oldA _ _ open1
    have low0' := (oldB _ _ low0.1).2
    have low1' := (oldB _ _ low1.1).2
    have above {fd : Nat} (not0 : 0 ≠ fd) (not1 : 1 ≠ fd) : 2 ≤ fd := by omega
    simp only [List.forall_mem_cons]
    exact ⟨above low0.2.1 low1.2.1, above low0.2.2 low1.2.2, above low0'.1 low1'.1,
      above low0'.2 low1'.2, above2, by simp⟩
  have step1 : (plainRuns behind entry stdin).step (.run pid) s s1 := by
    refine run_step (p := p) rfl ?_
    simp only [statement, p, test]
    exact read
  have step2 : (plainRuns behind entry stdin).step (.run pid) s1 s2 :=
    run_step (set_self _ _ _) rfl
  have step3 : (plainRuns behind entry stdin).step (.run pid) s2 s3 :=
    run_step (set_self _ _ _) rfl
  have step4 : (plainRuns behind entry stdin).step (.run pid) s3 s4 :=
    run_step (set_self _ _ _) rfl
  have run : (plainRuns behind entry stdin).Run s s4 :=
    (((Run.refl s).snoc step1).snoc step2).snoc step3 |>.snoc step4
  refine ⟨s4, q3, A, B, run, rfl, ?_, set_self _ _ _, wired, Nat.ne_of_lt (Nat.lt_succ_self A)⟩
  rw [set_other _ _ older, set_self]

/-- A process that has forked hands over what it has got, when its child can read it. -/
theorem parent_writes {A B : Nat} (here : s.procs pid = p) (start : p.pc = .closeP1Read)
    (wired : Wired p A B) (differ : A ≠ B)
    (reader : ∃ other < s.nextPid, other ≠ pid ∧ Holds (s.procs other).fds (.read A)) :
    ∃ t, (plainRuns behind entry stdin).Run s t ∧ t.nextPid = s.nextPid ∧
      (∀ other ≠ pid, t.procs other = s.procs other) ∧ t.pipes A ≠ [] ∧
      Holds (t.procs pid).fds (.read B) := by
  have high := wired.high
  simp only [List.forall_mem_cons] at high
  obtain ⟨-, highB, highC, -⟩ := high
  let q5 : Process E := p.close p.p1.1 .dupStdout
  let q6 : Process E := q5.dup2 p.p1.2 1 .write
  let q7 : Process E := { q6 with pc := .closeP1Write }
  let s6 : State E := (s.set pid q5).set pid q6
  let s7 : State E := (s6.setPipe A (s6.pipes A ++ (stringAt behind q6.buf ++ [0]))).set pid q7
  have ba : p.p1.2 ≠ p.p1.1 := fd_ne wired.p1Write wired.p1Read (by simp)
  have ca : p.p2.1 ≠ p.p1.1 := fd_ne wired.p2Read wired.p1Read (by simpa using differ.symm)
  have table6 : lookup q6.fds =
      Function.update (Function.update (lookup p.fds) p.p1.1 none) 1 (some (.write A)) := by
    have open5 : lookup q5.fds p.p1.2 = some (.write A) := by
      rw [← wired.p1Write]
      exact lookup_close_other ba
    change lookup (q5.dup2 p.p1.2 1 .write).fds = _
    rw [dup2_fds open5, lookup_assign]
    exact congrArg (Function.update · 1 _) (lookup_close _ _)
  have quiet : (plainRuns behind entry stdin).Run s s6 :=
    Run.cons (run_step here (by simp only [statement, start]; rfl))
      (Run.cons (run_step (set_self _ _ _) rfl) (Run.refl _))
  have others (other : Nat) (ne : other ≠ pid) : s6.procs other = s.procs other := by
    simp [s6, State.set, ne]
  have write : (plainRuns behind entry stdin).step (.run pid) s6 s7 := by
    refine run_step (set_self _ _ _) ?_
    have open6 : lookup (s6.procs pid).fds p.p1.2 = some (.write A) := by
      rw [set_self, table6, Function.update_of_ne (Nat.ne_of_gt highB),
        Function.update_of_ne ba]
      exact wired.p1Write
    have held : Held s6.tables s6.nextPid (.read A) := by
      obtain ⟨other, below, ne, holds⟩ := reader
      refine ⟨other, below, ?_⟩
      rw [State.tables, others other ne]
      exact holds
    exact congrArg some (writeStep_pipe open6 held)
  refine ⟨s7, quiet.snoc write, rfl, ?_, ?_, p.p2.1, ?_⟩
  · intro other ne
    exact (set_other _ _ ne).trans (others other ne)
  · change (s6.setPipe A _).pipes A ≠ []
    simp [State.setPipe]
  · rw [set_self]
    change lookup q6.fds _ = _
    rw [table6, Function.update_of_ne (Nat.ne_of_gt highC), Function.update_of_ne ca]
    exact wired.p2Read

/-- A process at the test of the loop forks a child and hands it what it has read. -/
theorem parent_runs (ready : AtTest s pid) :
    ∃ t p A B, (plainRuns behind entry stdin).Run s t ∧ t.nextPid = s.nextPid + 1 ∧
      t.procs s.nextPid = p ∧ p.pc = .childCloseP1Write ∧ Wired p A B ∧ A ≠ B ∧
      t.pipes A ≠ [] ∧ ∃ other < t.nextPid, other ≠ s.nextPid ∧
        Holds (t.procs other).fds (.read B) := by
  have forked : pid < s.nextPid := ready.forked
  have older : pid ≠ s.nextPid := Nat.ne_of_lt forked
  obtain ⟨r, p, A, B, first, nextPid, parent, child, wired, differ⟩ :=
    parent_forks behind entry stdin ready
  have reader : Holds (r.procs s.nextPid).fds (.read A) := by
    rw [child]
    exact ⟨p.p1.1, wired.p1Read⟩
  obtain ⟨t, second, same, others, bytes, holds⟩ := parent_writes behind entry stdin parent rfl
    (wired.of_local _ _) differ ⟨s.nextPid, by omega, older.symm, reader⟩
  refine ⟨t, _, A, B, first.trans second, same.trans nextPid, (others _ older.symm).trans child,
    rfl, wired.of_local _ _, differ, bytes, pid, ?_, older, holds⟩
  omega

/-- Every process that comes to the test of the loop has a child that comes there, too. -/
theorem generation (ready : AtTest s pid) :
    ∃ t, (plainRuns behind entry stdin).Run s t ∧ t.nextPid = s.nextPid + 1 ∧
      AtTest t s.nextPid := by
  obtain ⟨r, p, A, B, first, nextPid, here, start, wired, differ, bytes, reader⟩ :=
    parent_runs behind entry stdin ready
  obtain ⟨t, second, same, ready'⟩ := child_runs behind entry stdin (by omega) here start wired
    differ bytes reader
  exact ⟨t, first.trans second, same.trans nextPid, ready'⟩

variable {entry}

/-- The process that is started comes to the test, too. -/
theorem start_runs (standard : FirstOpen 2 entry) :
    ∃ s, (plainRuns behind entry stdin).Reachable s ∧ s.nextPid = 1 ∧ AtTest s 0 := by
  obtain ⟨e0, open0⟩ := Option.ne_none_iff_exists'.mp (standard 0 (by decide))
  obtain ⟨e1, open1⟩ := Option.ne_none_iff_exists'.mp (standard 1 (by decide))
  let fds : Table (End E) := entry.map (Option.map .entry)
  have table0 : lookup fds 0 = some (.entry e0) := by rw [lookup_map, open0, Option.map_some]
  have table1 : lookup fds 1 = some (.entry e1) := by rw [lookup_map, open1, Option.map_some]
  let fds1 := assign fds (lowest fds) (.entry e1)
  let fds2 := assign fds1 (lowest fds1) (.entry e0)
  have kept {t : Table (End E)} {fd : Nat} {x y : End E} (opened : lookup t fd = some x) :
      lookup (assign t (lowest t) y) fd = some x ∧ fd ≠ lowest t := by
    have ne : fd ≠ lowest t := by
      rintro rfl
      rw [lookup_lowest] at opened
      cases opened
    rw [lookup_assign, Function.update_of_ne ne]
    exact ⟨opened, ne⟩
  let s0 : State E := State.initial entry stdin
  let q1 : Process E := { Process.start fds with
    pc := .dupIn, fds := fds1, stdoutDup := lowest fds }
  let q2 : Process E := { q1 with pc := .read, fds := fds2, stdinDup := lowest fds1 }
  have open10 : lookup fds1 0 = some (.entry e0) := (kept table0).1
  have open11 : lookup fds1 1 = some (.entry e1) := (kept table1).1
  have dup1 : (Process.start fds).dup 1 = (fds1, lowest fds) := by
    simp only [Process.dup, Process.start, table1]
    rfl
  have dup0 : q1.dup 0 = (fds2, lowest fds1) := by
    simp only [Process.dup, q1, open10]
    rfl
  have step1 : (plainRuns behind entry stdin).step (.run 0) s0 (s0.set 0 q1) := by
    refine run_step (p := Process.start fds) rfl ?_
    change some (s0.set 0 { Process.start fds with
      pc := .dupIn, fds := ((Process.start fds).dup 1).1
      stdoutDup := ((Process.start fds).dup 1).2 }) = _
    rw [dup1]
  have step2 : (plainRuns behind entry stdin).step (.run 0) (s0.set 0 q1)
      ((s0.set 0 q1).set 0 q2) := by
    refine run_step (set_self _ _ _) ?_
    change some ((s0.set 0 q1).set 0 { q1 with
      pc := .read, fds := (q1.dup 0).1, stdinDup := (q1.dup 0).2 }) = _
    rw [dup0]
  have start : (plainRuns behind entry stdin).Reachable s0 := Reachable.initial rfl
  refine ⟨_, (start.next step1).next step2, rfl, ?_⟩
  have not0 := (kept (y := .entry e0) open10).2
  have not1 := (kept (y := .entry e0) open11).2
  constructor
  · exact Nat.zero_lt_one
  · rw [set_self]
  · rw [set_self]
    refine ⟨e0, ?_⟩
    change lookup (assign _ _ _) (lowest fds1) = _
    rw [lookup_assign, Function.update_self]
  · rw [set_self]
    change 2 ≤ lowest fds1
    omega
  · rw [set_self, (kept open10).1]
    simp
  · rw [set_self, (kept open11).1]
    simp

/-- For every `n` there is a run in which the `n`-th process that is forked comes to the test of
the loop. -/
theorem generations (standard : FirstOpen 2 entry) (n : Nat) :
    ∃ s, (plainRuns behind entry stdin).Reachable s ∧ s.nextPid = n + 1 ∧ AtTest s n := by
  induction n with
  | zero => exact start_runs behind stdin standard
  | succ n ih =>
    obtain ⟨s, reach, nextPid, ready⟩ := ih
    obtain ⟨t, run, next, ready'⟩ := generation behind entry stdin ready
    rw [nextPid] at next ready'
    exact ⟨t, reach.run run, next, ready'⟩

end Steps

/-- Whatever stdin is: there is a run that breaks the discipline, and the number of processes is
not bounded. -/
theorem filter_never_disciplined (behind : List Byte) {entry : Table E} (stdin : List (List Byte))
    (standard : FirstOpen 2 entry) :
    (¬ ∀ s, (filterRuns behind entry stdin).Reachable s → Disciplined s) ∧
      ¬ ∃ bound, ∀ s, (filterRuns behind entry stdin).Reachable s → s.1.nextPid ≤ bound := by
  have reached (n : Nat) : ∃ s log, (filterRuns behind entry stdin).Reachable (s, log) ∧
      s.nextPid = n + 1 ∧ AtTest s n := by
    obtain ⟨s, ⟨r, start, run⟩, nextPid, ready⟩ := generations behind stdin standard n
    obtain ⟨log, logged⟩ : ∃ log, (filterRuns behind entry stdin).Run (r, []) (s, [] ++ log) :=
      logged_run run []
    have first : (filterRuns behind entry stdin).Reachable (r, []) := Reachable.initial ⟨start, rfl⟩
    exact ⟨s, _, first.run logged, nextPid, ready⟩
  constructor
  · intro disciplined
    obtain ⟨s, log, reach, -, ready⟩ := reached 1
    obtain ⟨e, opened⟩ := ready.stdin
    let received (bytes : List Byte) : Process E :=
      { s.procs 1 with pc := .pipe1, buf := (s.procs 1).buf.receive bytes }
    obtain ⟨rest, bytes, read⟩ := readStep_stdin received opened
    have step : (filterRuns behind entry stdin).step (.run 1) (s, log)
        (({ s with stdin := rest } : State E).set 1 (received bytes),
          log ++ [.read 1 (s.stdin.headD []).length]) := by
      refine ⟨run_step rfl ?_, ?_⟩
      · rw [statement, ready.test]
        exact read
      · simp [events, ready.test]
    have seen : .read 1 (s.stdin.headD []).length ∈ log ++ [.read 1 (s.stdin.headD []).length] :=
      List.mem_append_right log (List.mem_singleton_self _)
    have original : 1 = 0 := (disciplined _ (reach.next step)).original 1 _ seen
    exact absurd original (by decide)
  · rintro ⟨bound, bounded⟩
    obtain ⟨s, log, reach, nextPid, -⟩ := reached bound
    have small : s.nextPid ≤ bound := bounded _ reach
    omega

/-- Two lines, and then the end of the input. -/
theorem two_lines_fork_on :
    (¬ ∀ s, (filterRuns [] standardStreams [[97, 10], [98, 10]]).Reachable s → Disciplined s) ∧
      ¬ ∃ bound, ∀ s, (filterRuns [] standardStreams [[97, 10], [98, 10]]).Reachable s →
        s.1.nextPid ≤ bound :=
  filter_never_disciplined [] [[97, 10], [98, 10]] (by decide)

/-- One line, and the child that has transformed it reads the original stdin. -/
theorem one_line_read_on : ¬ ∀ (behind : List Byte) (entry : Table Nat) (stdin : List (List Byte)),
    FirstOpen 2 entry → (∀ chunk ∈ stdin, chunk ≠ [] ∧ chunk.length ≤ bufSize) →
      (∀ s, (filterRuns behind entry stdin).Reachable s → Disciplined s) ∧
        ∃ bound, ∀ s, (filterRuns behind entry stdin).Reachable s → s.1.nextPid ≤ bound := by
  intro claim
  let parent : List Act := List.replicate 9 (.run 0)
  let child : List Act := List.replicate 11 (.run 1)
  have run : (follow (recording (guarded Succeeds (next [])) events) (parent ++ child)
      (State.initial standardStreams [[97, 10]], [])).map Prod.snd =
      some [.read 0 2, .transform 1, .read 1 0] := by
    decide +kernel
  obtain ⟨s, followed, log⟩ := Option.map_eq_some_iff.mp run
  have start : (filterRuns [] standardStreams [[97, 10]]).Reachable
      (State.initial standardStreams [[97, 10]], []) := Reachable.initial ⟨rfl, rfl⟩
  have reach := start.run
    (follow_recording_run (fun _ _ _ h => Option.ite_none_right_eq_some.mp h) followed)
  have disciplined := (claim [] standardStreams [[97, 10]] (by decide) (by decide)).1 s reach
  have original : 1 = 0 := disciplined.original 1 0 (by rw [log]; decide)
  exact absurd original (by decide)

end BidirectionPipe
