import NetworkSystemProgramming.BidirectionPipe.Stages

/-!
# Chunks in the runs of the filter

What each statement does to the chunk that a process has read.
-/

namespace BidirectionPipe

open ByteBuffers DescriptorTables Pipes StepSystems StepSystem

/-! ## What the buffers hold -/

theorem toupper_ne_zero {c : Byte} (nonzero : c ≠ 0) : toupper c ≠ 0 := by
  grind [toupper]

theorem map_toupper_clean {s : List Byte} (clean : 0 ∉ s) : 0 ∉ s.map toupper := by
  rw [List.mem_map]
  rintro ⟨c, member, zero⟩
  exact toupper_ne_zero (fun same => clean (same ▸ member)) zero

section
variable {chunk : List Byte}

/-- The NUL that is sent does not change what the buffer holds. -/
theorem receive_terminated (short : chunk.length < bufSize) :
    ((Buffer.zero bufSize).receive (chunk ++ [0])).bytes = padded bufSize chunk := by
  rw [Buffer.receive_zero, padded_terminated short]
  rw [List.length_append]
  exact short

/-- The loop of the child over a string that ends in its buffer. -/
theorem upper_padded (clean : 0 ∉ chunk) (short : chunk.length < bufSize)
    {childBuf : Buffer bufSize} (holds : childBuf.bytes = padded bufSize chunk) :
    (upper childBuf).bytes = padded bufSize (chunk.map toupper) := by
  have text : childBuf.str = chunk := Buffer.str_of_padded clean short holds
  have fits : (chunk.map toupper).length ≤ bufSize := by
    rw [List.length_map]
    exact Nat.le_of_lt short
  have behind : (padded bufSize chunk).drop chunk.length =
      List.replicate (bufSize - chunk.length) 0 := by
    rw [padded, List.drop_left]
  rw [upper, text, Buffer.receive_bytes _ fits, overwrite, holds, List.length_map, behind, padded,
    List.length_map]

end

/-! ## The statements -/

section
variable {E : Type} [DecidableEq E] {behind : List Byte} {s t : State E}
  {log : List (Nat × List Byte)} {pid : Nat} {p p' : Process E}

/-- The statements that close a descriptor. -/
theorem Flowing.closing (flowing : Flowing s log) (known : pid < s.nextPid)
    (pcs : (s.procs pid).pc ∈ [.childCloseP1Read, .childCloseP2Read, .childCloseP2Write,
      .closeP1Read, .closeP1Write, .closeP2Read] ∨
      (s.procs pid).pc ∈ [.childCloseP1Write, .closeP2Write])
    (h : statement behind s pid (s.procs pid) = some t) : Flowing t log := by
  simp only [List.mem_cons, List.not_mem_nil, or_false] at pcs
  rcases pcs with pcs | pcs
  · rcases pcs with pc | pc | pc | pc | pc | pc
    all_goals
      simp only [statement, pc, Option.some.injEq] at h
      subst h
      refine flowing.close known 0 (by rw [pc]; decide) (by decide) rfl ?_ ?_
      · simp only [Process.ends, pc]
        rfl
      · simp only [Process.ends, Process.close, pc]
        rfl
  · rcases pcs with pc | pc
    all_goals
      simp only [statement, pc, Option.some.injEq] at h
      subst h
      refine flowing.close known 1 (by rw [pc]; decide) (by decide) rfl ?_ ?_
      · simp only [Process.ends, pc]
        rfl
      · simp only [Process.ends, Process.close, pc]
        rfl

omit [DecidableEq E] in
/-- `dup2` onto stdin or stdout. -/
theorem Flowing.duplicate (flowing : Flowing s log) (known : pid < s.nextPid) (old : Nat)
    {new : Nat} (below : new < 2) {p' : Process E} (moves : (s.procs pid).pc.Moves p'.pc)
    (table : p'.fds = ((s.procs pid).dup2 old new p'.pc).fds) (fds : SameFds (s.procs pid) p')
    (same : SameBuffers (s.procs pid) p')
    (childBuf : p'.pc = .childRead → p'.childBuf = Buffer.zero bufSize)
    (parentBuf : p'.pc = .readBack → p'.parentBuf = Buffer.zero bufSize)
    (owner : p'.pc.owner pid = (s.procs pid).pc.owner pid)
    (ends : ∀ A, p'.ends A ⊆ (s.procs pid).ends A) : Flowing (s.set pid p') log := by
  have spares : Spares none (s.procs pid).fds p'.fds := by
    rw [table]
    exact dup2_spares _ old below _
  refine flowing.moves known p' moves spares (fun _ => nofun) fds same childBuf parentBuf ?_
    s.stdout
  intro x needed
  rw [owner] at needed
  exact ⟨ends _ needed, nofun⟩

/-- The statements that put an end in the place of stdin or stdout. -/
theorem Flowing.duplicating (flowing : Flowing s log) (known : pid < s.nextPid)
    (pcs : (s.procs pid).pc ∈ [.childDupStdin, .childDupStdout, .dupStdout, .dupStdin])
    (h : statement behind s pid (s.procs pid) = some t) : Flowing t log := by
  simp only [List.mem_cons, List.not_mem_nil, or_false] at pcs
  rcases pcs with pc | pc | pc | pc
  all_goals
    simp only [statement, pc, Option.some.injEq] at h
    subst h
    refine flowing.duplicate known _ ?_ ?_ rfl ⟨rfl, rfl, rfl⟩ ⟨?_, ?_, ?_⟩ ?_ ?_ ?_ ?_
  all_goals
    simp [Process.dup2, Process.ends, Pc.Moves, Pc.Within, Pc.childStage, Pc.parentStage, Pc.got,
      Pc.owner, Pc.Inherits, pc]

omit [DecidableEq E] in
/-- A copy of a low descriptor, and what it leaves open. -/
theorem dup_spares {fd : Nat} (low : ∀ fd < 2, ∃ e, lookup p.fds fd = some (.entry e))
    (below : fd < 2) : Spares none p.fds (p.dup fd).1 ∧
      (∀ i < 2, lookup (p.dup fd).1 i = lookup p.fds i) ∧ 2 ≤ (p.dup fd).2 ∧
      ∃ e, lookup (p.dup fd).1 (p.dup fd).2 = some (.entry e) := by
  obtain ⟨e, opened⟩ := low fd below
  have free := lookup_lowest p.fds
  have above : 2 ≤ lowest p.fds := by
    by_contra small
    obtain ⟨e', held⟩ := low (lowest p.fds) (by omega)
    rw [free] at held
    cases held
  have made : p.dup fd = (assign p.fds (lowest p.fds) (.entry e), lowest p.fds) := by
    simp only [Process.dup, opened]
  rw [made]
  refine ⟨⟨?_, ?_⟩, ?_, above, e, by rw [lookup_assign, Function.update_self]⟩
  · intro i small held
    rw [lookup_assign, Function.update_of_ne (by omega)]
    exact held
  · intro i x _ held _
    have other : i ≠ lowest p.fds := by
      rintro rfl
      rw [free] at held
      cases held
    rw [lookup_assign, Function.update_of_ne other]
    exact held
  · intro i small
    rw [lookup_assign, Function.update_of_ne (by omega)]

/-- The copy of stdout. -/
theorem Flowing.savingOut (flowing : Flowing s log) (known : pid < s.nextPid)
    (pc : (s.procs pid).pc = .dupOut)
    (h : statement behind s pid (s.procs pid) = some t) : Flowing t log := by
  have ready := flowing.ready pid known
  have low := ready.entry (Or.inl pc)
  obtain ⟨spares, rest, saved⟩ := dup_spares low (show 1 < 2 by decide)
  have within : (s.procs pid).pc.Within .dupIn := by
    rw [pc]
    decide
  let p' : Process E := { s.procs pid with
    pc := .dupIn
    fds := ((s.procs pid).dup 1).1
    stdoutDup := ((s.procs pid).dup 1).2 }
  have next : t = s.set pid p' := by
    simp only [statement, pc, Option.some.injEq] at h
    exact h.symm
  have ready' : Ready pid p' := by
    constructor
    · have buf := ready.placed.buf (Or.inr (Or.inr pc))
      constructor <;> simp [p', Pc.childStage, Pc.parentStage, buf]
    · exact fun fd below => spares.low fd below (ready.low fd below)
    · intro _ fd below
      obtain ⟨e, opened⟩ := low fd below
      exact ⟨e, (rest fd below).trans opened⟩
    · exact fun _ => saved
    · exact fun _ other => absurd rfl other
    · exact fun _ needed => absurd needed List.not_mem_nil
  rw [next]
  exact flowing.within known p' ready' within ⟨fun _ => rfl, fun _ => rfl, fun _ => rfl⟩ s.stdout

/-- The copy of stdin. -/
theorem Flowing.savingIn (flowing : Flowing s log) (known : pid < s.nextPid)
    (pc : (s.procs pid).pc = .dupIn)
    (h : statement behind s pid (s.procs pid) = some t) : Flowing t log := by
  have ready := flowing.ready pid known
  have low := ready.entry (Or.inr pc)
  obtain ⟨spares, -, saved⟩ := dup_spares low (show 0 < 2 by decide)
  have within : (s.procs pid).pc.Within .read := by
    rw [pc]
    decide
  let p' : Process E := { s.procs pid with
    pc := .read
    fds := ((s.procs pid).dup 0).1
    stdinDup := ((s.procs pid).dup 0).2 }
  have next : t = s.set pid p' := by
    simp only [statement, pc, Option.some.injEq] at h
    exact h.symm
  have ready' : Ready pid p' := by
    constructor
    · have buf := ready.placed.buf (Or.inr (Or.inl pc))
      constructor <;> simp [p', Pc.childStage, Pc.parentStage, buf]
    · exact fun fd below => spares.low fd below (ready.low fd below)
    · simp [p']
    · intro _
      have savedOut : p'.Saved (s.procs pid).stdoutDup :=
        (ready.savedOut (by simp [pc])).next spares (fun _ => (Option.some_ne_none _).symm)
      exact savedOut
    · exact fun _ _ => saved
    · exact fun _ needed => absurd needed List.not_mem_nil
  rw [next]
  exact flowing.within known p' ready' within ⟨fun _ => rfl, fun _ => rfl, fun _ => rfl⟩ s.stdout

/-- The end of the loop. -/
theorem Flowing.clearing (flowing : Flowing s log) (known : pid < s.nextPid)
    (pc : (s.procs pid).pc = .memset)
    (h : statement behind s pid (s.procs pid) = some t) : Flowing t log := by
  have ready := flowing.ready pid known
  let p' : Process E := { s.procs pid with pc := .read, buf := Buffer.zero bufSize }
  have next : t = s.set pid p' := by
    simp only [statement, pc, Option.some.injEq] at h
    exact h.symm
  have placed : Placed pid p' := by
    constructor <;> simp [p', Pc.childStage, Pc.parentStage]
  have ready' : Ready pid p' :=
    ready.next (.refl _) (fun _ => (Option.some_ne_none _).symm) ⟨by simp [pc], by simp [pc]⟩
      ⟨by simp [p'], by simp [p']⟩ placed rfl rfl fun _ needed => absurd needed List.not_mem_nil
  have within : (s.procs pid).pc.Within .read := by
    rw [pc]
    decide
  rw [next]
  exact flowing.within known p' ready' within
    ⟨by simp [pc, Pc.parentStage], fun _ => rfl, fun _ => rfl⟩ s.stdout

omit [DecidableEq E] in
theorem stringAt_padded {c : List Byte} (short : Short c) {buf : Buffer bufSize}
    (holds : buf.bytes = padded bufSize c) : stringAt behind buf = c := by
  obtain ⟨clean, room⟩ := short
  have pad : bufSize - c.length = (bufSize - c.length - 1) + 1 := by omega
  rw [stringAt, holds, padded, pad, List.replicate_succ, List.append_assoc, List.append_assoc,
    List.cons_append]
  exact cstr_terminated clean _

theorem Short.upper {c : List Byte} (short : Short c) : Short (c.map toupper) :=
  ⟨map_toupper_clean short.1, by rw [List.length_map]; exact short.2⟩

/-- A `read` of a pipe that holds no more than it asks for. -/
theorem readStep_whole {fd pipe : Nat} {got : List Byte → Process E}
    (opened : lookup (s.procs pid).fds fd = some (.read pipe))
    (fits : (s.pipes pipe).length ≤ bufSize) (h : readStep s pid fd got = some t) :
    (s.pipes pipe = [] → ¬ Held s.tables s.nextPid (.write pipe)) ∧
      t = (s.setPipe pipe []).set pid (got (s.pipes pipe)) := by
  by_cases bytes : s.pipes pipe = []
  · have same : s.setPipe pipe [] = s := by
      rw [State.setPipe, ← bytes, Function.update_eq_self]
    by_cases writer : Held s.tables s.nextPid (.write pipe)
    · simp [readStep, readFd, opened, bytes, writer] at h
    · simp only [readStep, readFd, opened, bytes, writer, ne_eq, not_true_eq_false, if_false,
        Option.some.injEq] at h
      rw [same, bytes]
      exact ⟨fun _ => writer, h.symm⟩
  · rw [readStep_pipe opened bytes, List.take_of_length_le fits, List.drop_eq_nil_of_le fits] at h
    exact ⟨fun none => absurd none bytes, (Option.some.inj h).symm⟩

/-- The loop of the child. -/
theorem Flowing.transforming (flowing : Flowing s log) (known : pid < s.nextPid)
    (pc : (s.procs pid).pc = .childUpper)
    (h : statement behind s pid (s.procs pid) = some t) : Flowing t log := by
  have ready := flowing.ready pid known
  let p' : Process E := { s.procs pid with
    pc := .childCloseP2Read
    childBuf := upper (s.procs pid).childBuf }
  have next : t = s.set pid p' := by
    simp only [statement, pc, Option.some.injEq] at h
    exact h.symm
  have keeps : (s.procs pid).pc.Keeps .childCloseP2Read := by
    rw [pc]
    decide
  have ready' : Ready pid p' :=
    ready.keep keeps rfl ⟨rfl, rfl, rfl⟩ (by simp [Process.ends, p', pc])
  subst next
  refine flowing.update known ready' rfl rfl (fun _ _ _ => ⟨rfl, rfl⟩) ?_ ?_ (fun _ _ => rfl)
    (fun _ => ⟨rfl, rfl⟩) ?_
  · intro c _ _ passing
    refine absurd ?_ passing.forked
    rw [pc]
    rfl
  · intro c n _ _ short passing
    obtain ⟨parent, buf, pipeA, pipeB⟩ := passing.of_took (by rw [pc]; rfl)
    change Passing c (s.procs n) p' (s.pipes (2 * n)) (s.pipes (2 * n + 1))
    rw [pipeA, pipeB]
    exact .turned parent rfl (upper_padded short.1 short.2 buf)
  · intro newest
    exact newest.idle rfl (by rw [pc]; rfl) rfl

/-- What the `write` of the child answers. -/
theorem Flowing.childWrite_next {n : Nat} (flowing : Flowing s log) (known : n + 1 < s.nextPid)
    (pc : (s.procs (n + 1)).pc = .childWrite)
    (h : statement behind s (n + 1) (s.procs (n + 1)) = some t) :
    ∃ c, lastRead log n = some c ∧ (s.procs n).pc.parentStage = .between ∧ s.pipes (2 * n) = [] ∧
      t = (s.setPipe (2 * n + 1) (c.map toupper)).set (n + 1)
        { s.procs (n + 1) with pc := .childCloseP2Write } := by
  have stage : (s.procs (n + 1)).pc.childStage = .turned := by
    rw [pc]
    rfl
  obtain ⟨c, read, short, passing⟩ := flowing.pairs n known
  obtain ⟨parent, buf, pipeA, pipeB⟩ := passing.of_turned stage
  have reader := (flowing.parent_holds (by omega) (by rw [parent]; decide)
    (ends_between parent (2 * n))).2
  have opened := (flowing.child_holds known (by rw [stage]; decide)
    (ends_child (by rw [stage]; decide) (2 * n))).1
  refine ⟨c, read, parent, pipeA, ?_⟩
  simp only [statement, pc, Option.some.injEq] at h
  rw [writeStep_pipe opened reader, pipeB, List.nil_append, stringAt_padded short.upper buf] at h
  exact h.symm

/-- The `write` of the child. -/
theorem Flowing.answering (flowing : Flowing s log) (known : pid < s.nextPid)
    (pc : (s.procs pid).pc = .childWrite)
    (h : statement behind s pid (s.procs pid) = some t) : Flowing t log := by
  have ready := flowing.ready pid known
  obtain ⟨n, rfl⟩ : ∃ n, pid = n + 1 :=
    Nat.exists_eq_add_one.mpr (ready.placed.child (by rw [pc]; decide))
  obtain ⟨c, read, parent, pipeA, next⟩ := flowing.childWrite_next known pc h
  let p' : Process E := { s.procs (n + 1) with pc := .childCloseP2Write }
  have keeps : (s.procs (n + 1)).pc.Keeps .childCloseP2Write := by
    rw [pc]
    decide
  have ready' : Ready (n + 1) p' :=
    ready.keep keeps rfl ⟨rfl, rfl, rfl⟩ (by simp [Process.ends, p', pc])
  subst next
  refine flowing.child_step known ready' (by rw [pc]; decide) ⟨rfl, rfl⟩ read (Or.inr rfl) ?_
  rw [Function.update_of_ne (by omega), Function.update_self, pipeA]
  exact .answered parent rfl

/-- What the `write` of the parent hands over. -/
theorem Flowing.write_next (flowing : Flowing s log) (known : pid < s.nextPid)
    (pc : (s.procs pid).pc = .write)
    (h : statement behind s pid (s.procs pid) = some t) :
    ∃ c, lastRead log pid = some c ∧ (s.procs (pid + 1)).pc.childStage = .waits ∧
      s.pipes (2 * pid + 1) = [] ∧
      t = (s.setPipe (2 * pid) (c ++ [0])).set pid { s.procs pid with pc := .closeP1Write } := by
  have stage : (s.procs pid).pc.parentStage = .ahead := by
    rw [pc]
    rfl
  have below := flowing.below known (by rw [stage]; decide)
  obtain ⟨c, read, short, passing⟩ := flowing.pairs pid below
  obtain ⟨child, buf, pipeA, pipeB⟩ := passing.of_ahead stage
  have reader := (flowing.child_holds below (by rw [child]; decide) (ends_waits child (2 * pid))).2
  have opened := (flowing.parent_holds known (by rw [stage]; decide)
    (ends_ahead stage (2 * pid))).1
  refine ⟨c, read, child, pipeB, ?_⟩
  simp only [statement, pc, Option.some.injEq] at h
  rw [writeStep_pipe opened reader, pipeA, List.nil_append, stringAt_padded short buf] at h
  exact h.symm

/-- The `write` of the parent. -/
theorem Flowing.handing (flowing : Flowing s log) (known : pid < s.nextPid)
    (pc : (s.procs pid).pc = .write)
    (h : statement behind s pid (s.procs pid) = some t) : Flowing t log := by
  have ready := flowing.ready pid known
  obtain ⟨c, read, child, pipeB, next⟩ := flowing.write_next known pc h
  let p' : Process E := { s.procs pid with pc := .closeP1Write }
  have keeps : (s.procs pid).pc.Keeps .closeP1Write := by
    rw [pc]
    decide
  have ready' : Ready pid p' :=
    ready.keep keeps rfl ⟨rfl, rfl, rfl⟩ (by simp [Process.ends, p', pc])
  have same : SameBuffers (s.procs pid) p' := ⟨fun _ => rfl, fun _ => rfl, fun _ => rfl⟩
  subst next
  refine flowing.parent_step known ready' (by rw [pc]; decide) (by rw [pc]; rfl) same read
    (Or.inl rfl) ?_
  rw [Function.update_self, Function.update_of_ne (by omega), pipeB]
  exact .handed rfl child

/-- The `read` of the child. -/
theorem Flowing.taking (flowing : Flowing s log) (known : pid < s.nextPid)
    (pc : (s.procs pid).pc = .childRead)
    (h : statement behind s pid (s.procs pid) = some t) : Flowing t log := by
  have ready := flowing.ready pid known
  have stage : (s.procs pid).pc.childStage = .waits := by
    rw [pc]
    rfl
  obtain ⟨n, rfl⟩ : ∃ n, pid = n + 1 :=
    Nat.exists_eq_add_one.mpr (ready.placed.child (by rw [stage]; decide))
  obtain ⟨c, read, short, passing⟩ := flowing.pairs n known
  have opened := (flowing.child_holds known (by rw [stage]; decide) (ends_waits stage (2 * n))).1
  simp only [statement, pc] at h
  rcases passing.of_waits stage with ⟨parent, pipeA⟩ | ⟨parent, pipeA, pipeB⟩
  · -- the parent has the other end of the pipe, so that `read` waits
    have writer := (flowing.parent_holds (by omega) (by rw [parent]; decide)
      (ends_ahead parent (2 * n))).2
    exact absurd writer ((readStep_whole opened (by simp [pipeA]) h).1 pipeA)
  · have fits : (s.pipes (2 * n)).length ≤ bufSize := by
      rw [pipeA, List.length_append]
      exact short.2
    have next := (readStep_whole opened fits h).2
    rw [pipeA] at next
    let p' : Process E := { s.procs (n + 1) with
      pc := .childCloseP1Read
      childBuf := (s.procs (n + 1)).childBuf.receive (c ++ [0]) }
    change t = (s.setPipe (2 * n) []).set (n + 1) p' at next
    have keeps : (s.procs (n + 1)).pc.Keeps .childCloseP1Read := by
      rw [pc]
      decide
    have ready' : Ready (n + 1) p' :=
      ready.keep keeps rfl ⟨rfl, rfl, rfl⟩ (by simp [Process.ends, p', pc])
    have buf : p'.childBuf.bytes = padded bufSize c := by
      simp only [p', ready.placed.childBuf pc]
      exact receive_terminated short.2
    subst next
    refine flowing.child_step known ready' (by rw [pc]; decide) ⟨rfl, rfl⟩ read (Or.inl rfl) ?_
    rw [Function.update_self, Function.update_of_ne (by omega), pipeB]
    exact .taken parent rfl buf

/-- The `read` of the answer. -/
theorem Flowing.readingBack (flowing : Flowing s log) (known : pid < s.nextPid)
    (pc : (s.procs pid).pc = .readBack)
    (h : statement behind s pid (s.procs pid) = some t) : Flowing t log := by
  have ready := flowing.ready pid known
  have stage : (s.procs pid).pc.parentStage = .between := by
    rw [pc]
    rfl
  have below := flowing.below known (by rw [stage]; decide)
  obtain ⟨c, read, short, passing⟩ := flowing.pairs pid below
  have opened := (flowing.parent_holds known (by rw [stage]; decide)
    (ends_between stage (2 * pid))).1
  simp only [statement, pc] at h
  rcases passing.of_between stage with ⟨child, pipeB⟩ | ⟨child, pipeA, pipeB⟩
  · -- the child has the other end of the pipe, so that `read` waits
    have writer := (flowing.child_holds below child (ends_child child (2 * pid))).2
    exact absurd writer ((readStep_whole opened (by simp [pipeB]) h).1 pipeB)
  · have fits : (s.pipes (2 * pid + 1)).length ≤ bufSize := by
      rw [pipeB]
      exact Nat.le_of_lt short.upper.2
    have next := (readStep_whole opened fits h).2
    rw [pipeB] at next
    let p' : Process E := { s.procs pid with
      pc := .closeP2Read
      parentBuf := (s.procs pid).parentBuf.receive (c.map toupper) }
    change t = (s.setPipe (2 * pid + 1) []).set pid p' at next
    have keeps : (s.procs pid).pc.Keeps .closeP2Read := by
      rw [pc]
      decide
    have ready' : Ready pid p' :=
      ready.keep keeps rfl ⟨rfl, rfl, rfl⟩ (by simp [Process.ends, p', pc])
    have same : SameBuffers (s.procs pid) p' := ⟨fun _ => rfl, fun _ => rfl, by simp [stage]⟩
    have buf : p'.parentBuf.bytes = padded bufSize (c.map toupper) := by
      simp only [p', ready.placed.parentBuf pc]
      exact Buffer.receive_zero (Nat.le_of_lt short.upper.2)
    subst next
    refine flowing.parent_step known ready' (by rw [pc]; decide) (by rw [pc]; rfl) same read
      (Or.inr rfl) ?_
    rw [Function.update_of_ne (by omega), pipeA]
    exact .done rfl child buf

/-- What is written to the original stdout. -/
theorem Flowing.writeOut_eq (flowing : Flowing s log) (behind : List Byte) (known : pid < s.nextPid)
    (pc : (s.procs pid).pc = .writeOut) :
    ∃ c, lastRead log pid = some c ∧ statement behind s pid (s.procs pid) =
      some { s with
        procs := Function.update s.procs pid { s.procs pid with pc := .wait }
        stdout := s.stdout ++ c.map toupper } := by
  have stage : (s.procs pid).pc.parentStage = .after := by
    rw [pc]
    rfl
  obtain ⟨c, read, short, passing⟩ :=
    flowing.pairs pid (flowing.below known (by rw [stage]; decide))
  obtain ⟨-, e, opened⟩ := (flowing.ready pid known).savedOut (by simp [pc])
  refine ⟨c, read, ?_⟩
  simp only [statement, pc, writeStep, writeFd, opened]
  rw [stringAt_padded short.upper (passing.of_after stage)]
  rfl

/-- The `write` to the original stdout. -/
theorem Flowing.writingOut (flowing : Flowing s log) (known : pid < s.nextPid)
    (pc : (s.procs pid).pc = .writeOut)
    (h : statement behind s pid (s.procs pid) = some t) : Flowing t log := by
  have ready := flowing.ready pid known
  obtain ⟨c, -, written⟩ := flowing.writeOut_eq behind known pc
  let p' : Process E := { s.procs pid with pc := .wait }
  have next := Option.some.inj (h.symm.trans written)
  have keeps : (s.procs pid).pc.Keeps .wait := by
    rw [pc]
    decide
  have ready' : Ready pid p' :=
    ready.keep keeps rfl ⟨rfl, rfl, rfl⟩ (by simp [Process.ends, p', pc])
  have within : (s.procs pid).pc.Within .wait := by
    rw [pc]
    decide
  rw [next]
  exact flowing.within known p' ready' within ⟨fun _ => rfl, fun _ => rfl, fun _ => rfl⟩ _

/-- No child ends, so `waitpid` does not return. -/
theorem Flowing.waits (flowing : Flowing s log) (known : pid < s.nextPid)
    (pc : (s.procs pid).pc = .wait) : statement behind s pid (s.procs pid) = none := by
  have stage : (s.procs pid).pc.parentStage ≠ .none := by
    rw [pc]
    decide
  have below := flowing.below known stage
  have child : (s.procs pid).pid = pid + 1 := (flowing.ready pid known).placed.parent stage
  have runs := (flowing.ready (pid + 1) below).placed.runs
  simp only [statement, pc, child, if_neg runs]

/-- What the `read` of the original stdin gets. -/
theorem Flowing.read_eq (flowing : Flowing s log) (behind : List Byte) (known : pid < s.nextPid)
    (pc : (s.procs pid).pc = .read) :
    statement behind s pid (s.procs pid) =
      some (({ s with stdin := s.stdin.tail } : State E).set pid { s.procs pid with
        pc := .pipe1
        buf := (s.procs pid).buf.receive (s.stdin.headD []) }) := by
  obtain ⟨-, e, opened⟩ := (flowing.ready pid known).savedIn (by simp [pc]) (by simp [pc])
  simp only [statement, pc, readStep, readFd, opened]
  cases left : s.stdin with
  | nil => simp [State.set, left]
  | cons chunk rest => rfl

/-- The `read` of the original stdin. -/
theorem Flowing.reading (flowing : Flowing s log) (known : pid < s.nextPid)
    (pc : (s.procs pid).pc = .read) (short : Short (s.stdin.headD []))
    (h : statement behind s pid (s.procs pid) = some t) :
    Flowing t (log ++ [(pid, s.stdin.headD [])]) := by
  have ready := flowing.ready pid known
  have stage : (s.procs pid).pc.parentStage = .none := by
    rw [pc]
    rfl
  have last := flowing.last known stage
  let p' : Process E := { s.procs pid with
    pc := .pipe1
    buf := (s.procs pid).buf.receive (s.stdin.headD []) }
  have next := Option.some.inj (h.symm.trans (flowing.read_eq behind known pc))
  have keeps : (s.procs pid).pc.Keeps .pipe1 := by
    rw [pc]
    decide
  have ready' : Ready pid p' :=
    ready.keep keeps rfl ⟨rfl, rfl, rfl⟩ nofun
  subst next
  refine flowing.update known ready' rfl rfl (fun _ _ _ => ⟨rfl, rfl⟩) ?_ ?_ ?_
    (fun other => absurd last other) ?_
  · intro c _ _ passing
    exact absurd stage passing.forked
  · intro c m _ _ _ passing
    have same : SameBuffers (s.procs pid) p' := ⟨by simp [stage], fun _ => rfl, fun _ => rfl⟩
    exact passing.child_within (by rw [pc]; rfl) same
  · intro n below
    exact lastRead_other log (by omega) _
  · intro newest
    refine ⟨rfl, ?_, ?_, fun _ => ⟨_, lastRead_own log pid _, short, ?_⟩, nofun, nofun⟩
    · rw [newest.count, pc]
      rfl
    · rw [List.length_append, newest.reads, pc]
      rfl
    · simp only [p', ready.placed.buf (Or.inl pc)]
      exact Buffer.receive_zero (Nat.le_of_lt short.2)

omit [DecidableEq E] in
/-- The ends of a new pipe are above stdin and stdout. -/
theorem allocPair_high {t : Table (End E)} (low : ∀ fd < 2, lookup t fd ≠ none) (x y : End E) :
    2 ≤ (allocPair t x y).2.1 ∧ 2 ≤ (allocPair t x y).2.2 := by
  obtain ⟨_, _, old⟩ := allocPair_open t x y
  have differ (fd : Nat) (below : fd < 2) :
      fd ≠ (allocPair t x y).2.1 ∧ fd ≠ (allocPair t x y).2.2 := by
    obtain ⟨z, opened⟩ := Option.ne_none_iff_exists'.mp (low fd below)
    exact (old fd z opened).2
  constructor
  · by_contra small
    exact (differ _ (by omega)).1 rfl
  · by_contra small
    exact (differ _ (by omega)).2 rfl

/-- From one call of `pipe` to the next, and to `fork`. -/
def Pc.Makes (a b : Pc) : Prop := a = .pipe1 ∧ b = .pipe2 ∨ a = .pipe2 ∧ b = .fork

theorem Pc.Makes.stages {a b : Pc} (makes : a.Makes b) :
    a.parentStage = .none ∧ b.parentStage = .none ∧ b.childStage = a.childStage ∧
      b.made = a.made + 1 ∧ b.got = a.got := by
  rcases makes with ⟨rfl, rfl⟩ | ⟨rfl, rfl⟩ <;> decide

omit [DecidableEq E] in
/-- A new pipe beside the ends that are at hand. -/
theorem Ready.makes {n pipe : Nat} (ready : Ready n p) (makes : p.pc.Makes p'.pc)
    {made : Table (End E) × Nat × Nat} (new : made = allocPair p.fds (.read pipe) (.write pipe))
    (table : p'.fds = made.1) (fds : SameFds p p')
    (ends : ∀ x ∈ p'.ends (2 * n), x ∈ p.ends (2 * n) ∨
      x = (made.2.1, .read pipe) ∨ x = (made.2.2, .write pipe)) : Ready n p' := by
  have spares : Spares none p.fds p'.fds := by
    rw [table, new]
    exact allocPair_spares _ _ _
  have owners : p.pc.owner n = n ∧ p'.pc.owner n = n := by
    rcases makes with ⟨old, next⟩ | ⟨old, next⟩ <;> rw [old, next] <;> exact ⟨rfl, rfl⟩
  have placed : Placed n p' := by
    rcases makes with ⟨_, next⟩ | ⟨_, next⟩ <;> constructor <;>
      simp [next, Pc.childStage, Pc.parentStage]
  refine ready.next spares (fun _ => (Option.some_ne_none _).symm) ?_ ?_ placed fds.stdoutDup
    fds.stdinDup ?_
  · rcases makes with ⟨old, _⟩ | ⟨old, _⟩ <;> simp [old]
  · rcases makes with ⟨_, next⟩ | ⟨_, next⟩ <;> simp [next]
  · obtain ⟨newRead, newWrite, _⟩ := allocPair_open p.fds (.read pipe) (.write pipe)
    obtain ⟨highRead, highWrite⟩ := allocPair_high ready.low (.read pipe) (.write pipe)
    intro x needed
    rw [owners.2] at needed
    rcases ends x needed with old | rfl | rfl
    · refine ready.kept spares ?_ (Option.some_ne_none _).symm
      rw [owners.1]
      exact old
    · rw [table, new]
      exact ⟨highRead, newRead⟩
    · rw [table, new]
      exact ⟨highWrite, newWrite⟩

omit [DecidableEq E] in
theorem Newest.makes {n nextPipe : Nat} {pipes : Nat → List Byte}
    (newest : Newest log nextPipe pipes n p) (makes : p.pc.Makes p'.pc) (buf : p'.buf = p.buf) :
    Newest log (nextPipe + 1) (Function.update pipes nextPipe []) n p' := by
  obtain ⟨-, parent, -, more, got⟩ := makes.stages
  have count := newest.count
  refine ⟨parent, ?_, ?_, ?_, ?_, ?_⟩
  · rw [more, ← Nat.add_assoc, ← count]
  · rw [newest.reads, got]
  · intro _
    rw [buf]
    refine newest.chunk ?_
    rcases makes with ⟨old, _⟩ | ⟨old, _⟩ <;> simp [old]
  · intro _
    rcases makes with ⟨old, _⟩ | ⟨old, _⟩ <;> rw [old] at count
    · rw [count]
      exact Function.update_self _ _ _
    · rw [Function.update_of_ne (by rw [count]; exact Nat.ne_of_lt (Nat.lt_succ_self _))]
      exact newest.pipeA (Or.inl old)
  · intro forks
    rcases makes with ⟨_, next⟩ | ⟨old, _⟩
    · rw [next] at forks
      cases forks
    · rw [old] at count
      rw [count]
      exact Function.update_self _ _ _

omit [DecidableEq E] in
/-- The process that was forked last makes a pipe. -/
theorem Flowing.making (flowing : Flowing s log) (known : pid < s.nextPid) (p' : Process E)
    (makes : (s.procs pid).pc.Makes p'.pc) {made : Table (End E) × Nat × Nat}
    (new : made = allocPair (s.procs pid).fds (.read s.nextPipe) (.write s.nextPipe))
    (table : p'.fds = made.1) (fds : SameFds (s.procs pid) p') (buf : p'.buf = (s.procs pid).buf)
    (buffers : SameBuffers (s.procs pid) p')
    (ends : ∀ x ∈ p'.ends (2 * pid), x ∈ (s.procs pid).ends (2 * pid) ∨
      x = (made.2.1, .read s.nextPipe) ∨ x = (made.2.2, .write s.nextPipe)) :
    Flowing ((({ s with nextPipe := s.nextPipe + 1 } : State E).setPipe s.nextPipe []).set pid p')
      log := by
  obtain ⟨parent, -, child, -⟩ := makes.stages
  have last := flowing.last known parent
  have ready' := (flowing.ready pid known).makes makes new table fds ends
  have own : s.nextPipe = 2 * pid ∨ s.nextPipe = 2 * pid + 1 := by
    have count := (flowing.newest pid last).count
    rcases makes with ⟨old, _⟩ | ⟨old, _⟩ <;> rw [old] at count
    · exact Or.inl count
    · exact Or.inr count
  refine flowing.update known ready' rfl rfl ?_ ?_ ?_ (fun _ _ => rfl)
    (fun other => absurd last other) (fun newest => newest.makes makes buf)
  · intro m other _
    exact ⟨Function.update_of_ne (by omega) _ _, Function.update_of_ne (by omega) _ _⟩
  · intro c _ _ passing
    exact absurd parent passing.forked
  · intro c m same _ _ passing
    change Passing c _ p' (Function.update s.pipes _ _ _) (Function.update s.pipes _ _ _)
    rw [Function.update_of_ne (by omega), Function.update_of_ne (by omega)]
    exact passing.child_within child buffers

/-- The two calls of `pipe`. -/
theorem Flowing.piping (flowing : Flowing s log) (known : pid < s.nextPid)
    (pcs : (s.procs pid).pc ∈ [.pipe1, .pipe2])
    (h : statement behind s pid (s.procs pid) = some t) : Flowing t log := by
  have count := (flowing.newest pid (flowing.last known ?_)).count
  · simp only [List.mem_cons, List.not_mem_nil, or_false] at pcs
    rcases pcs with pc | pc
    · rw [pc] at count
      change s.nextPipe = 2 * pid at count
      simp only [statement, pc, Option.some.injEq] at h
      subst h
      refine flowing.making known _ (Or.inl ⟨pc, rfl⟩) rfl rfl ⟨rfl, rfl, rfl⟩ rfl
        ⟨fun _ => rfl, fun _ => rfl, fun _ => rfl⟩ ?_
      intro x needed
      simp only [Process.ends, State.makePipe, List.mem_cons, List.not_mem_nil, or_false] at needed
      rw [count] at needed ⊢
      exact Or.inr needed
    · rw [pc] at count
      change s.nextPipe = 2 * pid + 1 at count
      simp only [statement, pc, Option.some.injEq] at h
      subst h
      refine flowing.making known _ (Or.inr ⟨pc, rfl⟩) rfl rfl ⟨rfl, rfl, rfl⟩ rfl
        ⟨fun _ => rfl, fun _ => rfl, fun _ => rfl⟩ ?_
      intro x needed
      simp only [Process.ends, State.makePipe, List.mem_cons, List.not_mem_nil, or_false, pc]
        at needed ⊢
      rw [count] at needed ⊢
      rcases needed with first | second | newRead | newWrite
      · exact Or.inl (Or.inl first)
      · exact Or.inl (Or.inr second)
      · exact Or.inr (Or.inl newRead)
      · exact Or.inr (Or.inr newWrite)
  · simp only [List.mem_cons, List.not_mem_nil, or_false] at pcs
    rcases pcs with pc | pc <;> rw [pc] <;> rfl

omit [DecidableEq E] in
/-- The ends of the two pipes go to both. -/
theorem Ready.forked {n : Nat} (ready : Ready n p) (pc : p.pc = .fork) :
    Ready n { p with pc := .closeP1Read, pid := n + 1 } ∧
      Ready (n + 1) { p with pc := .childCloseP1Write, pid := 0 } := by
  have savedOut : p.Saved p.stdoutDup := ready.savedOut (by simp [pc])
  have savedIn : p.Saved p.stdinDup := ready.savedIn (by simp [pc]) (by simp [pc])
  have ends := ready.ends
  rw [pc] at ends
  simp only [Process.ends, pc] at ends
  constructor
  · refine ⟨?_, ready.low, ?_, fun _ => savedOut, fun _ _ => savedIn, ends⟩
    · constructor <;> simp [Pc.childStage, Pc.parentStage]
    · simp
  · refine ⟨?_, ready.low, ?_, fun _ => savedOut, fun _ _ => savedIn, ends⟩
    · constructor <;> simp [Pc.childStage, Pc.parentStage]
    · simp

/-- `fork`, which hands the chunk and the two pipes to a parent and a child. -/
theorem Flowing.forking (flowing : Flowing s log) (known : pid < s.nextPid)
    (pc : (s.procs pid).pc = .fork)
    (h : statement behind s pid (s.procs pid) = some t) : Flowing t log := by
  have stage : (s.procs pid).pc.parentStage = .none := by
    rw [pc]
    rfl
  have last := flowing.last known stage
  have newest := flowing.newest pid last
  obtain ⟨c, read, short, buf⟩ := newest.chunk (Or.inr (Or.inr pc))
  obtain ⟨readyParent, readyChild⟩ := (flowing.ready pid known).forked pc
  let p' : Process E := { s.procs pid with pc := .closeP1Read, pid := pid + 1 }
  let q : Process E := { s.procs pid with pc := .childCloseP1Write, pid := 0 }
  have next : t = (({ s with nextPid := pid + 2 } : State E).set pid p').set (pid + 1) q := by
    simp only [statement, pc, ← last, Option.some.injEq] at h
    exact h.symm
  have procs (n : Nat) (other : n ≠ pid + 1) (own : n ≠ pid) : t.procs n = s.procs n := by
    rw [next, set_other _ _ other, set_other _ _ own]
  have parent : t.procs pid = p' := by
    rw [next, set_other _ _ (by omega), set_self]
  have child : t.procs (pid + 1) = q := by
    rw [next, set_self]
  have nextPid : t.nextPid = pid + 2 := by
    rw [next]
    rfl
  have pipes : t.pipes = s.pipes := by
    rw [next]
    rfl
  constructor
  · omega
  · intro n below
    by_cases own : n = pid
    · rw [own, parent]
      exact readyParent
    · by_cases new : n = pid + 1
      · rw [new, child]
        exact readyChild
      · rw [procs n new own]
        exact flowing.ready n (by omega)
  · intro n above
    rw [procs n (by omega) (by omega)]
    exact flowing.unborn n (by omega)
  · intro n below
    rw [pipes]
    by_cases own : n = pid
    · subst own
      refine ⟨c, read, short, ?_⟩
      rw [parent, child, newest.pipeA (Or.inr pc), newest.pipeB pc]
      exact .ahead rfl rfl buf
    · by_cases before : n + 1 = pid
      · obtain ⟨c', read', short', passing⟩ := flowing.pairs n (by omega)
        refine ⟨c', read', short', ?_⟩
        rw [before] at passing ⊢
        rw [procs n (by omega) own, parent]
        have same : SameBuffers (s.procs pid) p' := ⟨fun _ => rfl, fun _ => rfl, fun _ => rfl⟩
        exact passing.child_within (by rw [pc]; rfl) same
      · rw [procs n (by omega) own, procs (n + 1) (by omega) before]
        exact flowing.pairs n (by omega)
  · intro n again
    obtain rfl : n = pid + 1 := by omega
    rw [child]
    have count := newest.count
    have reads := newest.reads
    rw [pc] at count reads
    refine ⟨rfl, ?_, reads, by simp [q], by simp [q], by simp [q]⟩
    rw [next]
    exact count

/-- The chunks that a step gets from the original stdin. -/
def readsOf (act : Act) (s : State E) : List (Nat × List Byte) :=
  match act with
  | .run pid => if (s.procs pid).pc = .read then [(pid, s.stdin.headD [])] else []
  | .fails _ => []

omit [DecidableEq E] in
theorem readsOf_other (other : (s.procs pid).pc ≠ .read) : readsOf (.run pid) s = [] :=
  if_neg other

theorem Flowing.step (flowing : Flowing s log)
    (short : (s.procs pid).pc = .read → Short (s.stdin.headD []))
    (h : statement behind s pid (s.procs pid) = some t) :
    Flowing t (log ++ readsOf (.run pid) s) := by
  have known : pid < s.nextPid := by
    by_contra above
    simp [statement, flowing.unborn pid (by omega)] at h
  by_cases reads : (s.procs pid).pc = .read
  · have got : readsOf (.run pid) s = [(pid, s.stdin.headD [])] := if_pos reads
    rw [got]
    exact flowing.reading known reads (short reads) h
  · rw [readsOf_other reads, List.append_nil]
    cases pc : (s.procs pid).pc with
    | read => exact absurd pc reads
    | dupOut => exact flowing.savingOut known pc h
    | dupIn => exact flowing.savingIn known pc h
    | memset => exact flowing.clearing known pc h
    | pipe1 | pipe2 => exact flowing.piping known (by simp [pc]) h
    | fork => exact flowing.forking known pc h
    | childCloseP1Read | childCloseP2Read | childCloseP2Write | closeP1Read | closeP1Write
    | closeP2Read | childCloseP1Write | closeP2Write =>
      exact flowing.closing known (by simp [pc]) h
    | childDupStdin | childDupStdout | dupStdout | dupStdin =>
      exact flowing.duplicating known (by simp [pc]) h
    | childRead => exact flowing.taking known pc h
    | childUpper => exact flowing.transforming known pc h
    | childWrite => exact flowing.answering known pc h
    | write => exact flowing.handing known pc h
    | readBack => exact flowing.readingBack known pc h
    | writeOut => exact flowing.writingOut known pc h
    | wait =>
      rw [flowing.waits known pc] at h
      cases h
    | exited => simp [statement, pc] at h

end

end BidirectionPipe
