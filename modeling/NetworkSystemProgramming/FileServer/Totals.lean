import Mathlib.Algebra.Group.Int.Defs
import NetworkSystemProgramming.FileServer.Isolation

/-!
# The totals that the client reports

`main` of `svmsg_file_client.c` from its first `mq_receive` on: it counts the bytes in an
`ssize_t` and the messages in an `int`. With a single client there is one session only,
and that session always comes to its end.
-/

namespace FileServer

open ByteBuffers StepSystems StepSystem

def INT_MAX : Int := 2 ^ 31 - 1

/-- What a sum leaves in an `int`, and in an `ssize_t`. -/
def toInt (x : Int) : Int := x.bmod (2 ^ 32)

def toSsize (x : Int) : Int := x.bmod (2 ^ 64)

/-- How far `main` comes with the messages that it gets. -/
inductive Outcome where
  | waits
  | failure (text : List Byte)
  | report (totBytes numMsgs : Int)
  deriving DecidableEq

/-- The loop over the messages with data, and the line printed behind it. -/
def countLoop (resp : ResponseMsg) (totBytes numMsgs : Int) : List (List Byte) → Outcome
  | [] => if mtype resp = RESP_MT_DATA then .waits else .report (toSsize (totBytes - 1)) numMsgs
  | wire :: rest =>
    if mtype resp = RESP_MT_DATA then
      countLoop (mqReceive resp wire) (toSsize (totBytes + wire.length)) (toInt (numMsgs + 1)) rest
    else .report (toSsize (totBytes - 1)) numMsgs

def clientMain (resp : ResponseMsg) : List (List Byte) → Outcome
  | [] => .waits
  | wire :: rest =>
    let resp := mqReceive resp wire
    if mtype resp = RESP_MT_FAILURE then .failure (cstr (data resp))
    else countLoop resp wire.length 1 rest

/-! ## The loop on the messages of a file -/

/-- The message for the end of the file is taken for that as well. -/
theorem end_typed {resp : ResponseMsg} (zero : HighZero resp) :
    mtype (mqReceive resp endMessage.wire) = RESP_MT_END :=
  mtype_of_type (m := RESP_MT_END) (by decide)
    (mqReceive_type endMessage_sent (by decide : RESP_MT_END < 256) (by decide) resp
      (zero.inPlace (by decide)))

theorem highZero_zero : HighZero (Buffer.zero _) := by
  rw [HighZero, TypeInPlace]
  simp only [Buffer.zero, List.drop_replicate, List.take_replicate]
  rfl

/-- The bytes of the messages for a file. -/
def wires (blocks : List (List Byte)) : List (List Byte) :=
  (messagesFor (some blocks)).map Message.wire

theorem wires_nil : wires [] = [endMessage.wire] := rfl

theorem wires_cons (block : List Byte) (rest : List (List Byte)) :
    wires (block :: rest) = (dataMessage block).wire :: wires rest := rfl

theorem length_data_wire (block : List Byte) : (dataMessage block).wire.length = block.length := by
  simp [dataMessage]

section
variable {blocks : List (List Byte)} {resp : ResponseMsg}

/-- Every block is taken for one, and the loop ends with the message behind them. -/
theorem receiveLoop_types (split : ∀ b ∈ blocks, b ≠ [] ∧ b.length ≤ RESP_MSG_SIZE)
    (zero : HighZero resp) : (receiveLoop resp (wires blocks)).map Received.mtype =
      List.replicate blocks.length RESP_MT_DATA ++ [RESP_MT_END] := by
  induction blocks generalizing resp with
  | nil =>
    have last : (decode (mqReceive resp endMessage.wire) endMessage.wire.length).mtype =
        RESP_MT_END := end_typed zero
    have stops : RESP_MT_END ≠ RESP_MT_DATA := by decide
    rw [wires_nil, receiveLoop, last, if_neg stops, List.map_singleton, last]
    rfl
  | cons block rest ih =>
    obtain ⟨nonempty, fits⟩ := split block List.mem_cons_self
    obtain ⟨type, zero'⟩ := data_type nonempty fits
      (zero.inPlace (List.length_pos_iff.mpr nonempty))
    have goes_on : (decode (mqReceive resp (dataMessage block).wire)
        (dataMessage block).wire.length).mtype = RESP_MT_DATA := type
    rw [wires_cons, receiveLoop, if_pos goes_on, List.map_cons, goes_on,
      ih (fun b hb => split b (List.mem_cons_of_mem block hb)) zero']
    simp [List.replicate_succ]

/-- What the loop adds to its counters. -/
theorem countLoop_wires (split : ∀ b ∈ blocks, b ≠ [] ∧ b.length ≤ RESP_MSG_SIZE)
    (zero : HighZero resp) (data : mtype resp = RESP_MT_DATA) (totBytes numMsgs : Int) :
    countLoop resp totBytes numMsgs (wires blocks) =
      .report (toSsize (totBytes + blocks.flatten.length))
        (toInt (numMsgs + blocks.length + 1)) := by
  induction blocks generalizing resp totBytes numMsgs with
  | nil =>
    have last : mtype (mqReceive resp endMessage.wire) ≠ RESP_MT_DATA := end_type resp
    have one : (endMessage.wire.length : Int) = 1 := by decide
    have back : toSsize (toSsize (totBytes + 1) - 1) = toSsize totBytes := by
      rw [toSsize, toSsize, Int.sub_eq_add_neg, Int.bmod_add_bmod]
      congr 1
      omega
    rw [wires_nil, countLoop, if_pos data, countLoop, if_neg last, one, back]
    simp
  | cons block rest ih =>
    obtain ⟨nonempty, fits⟩ := split block List.mem_cons_self
    obtain ⟨type, zero'⟩ := data_type nonempty fits
      (zero.inPlace (List.length_pos_iff.mpr nonempty))
    rw [wires_cons, countLoop, if_pos data, length_data_wire,
      ih (fun b hb => split b (List.mem_cons_of_mem block hb)) zero' type]
    congr 1
    · rw [toSsize, toSsize, Int.bmod_add_bmod, List.flatten_cons, List.length_append, toSsize]
      congr 1
      push_cast
      omega
    · rw [toInt, toInt, Int.add_assoc, Int.bmod_add_bmod, List.length_cons, toInt]
      congr 1
      push_cast
      omega

/-- The report on a file: what fits of its length and of the number of messages. -/
theorem clientMain_wires (split : ∀ b ∈ blocks, b ≠ [] ∧ b.length ≤ RESP_MSG_SIZE)
    (zero : HighZero resp) : clientMain resp (wires blocks) =
      .report (toSsize blocks.flatten.length) (toInt (blocks.length + 1)) := by
  cases blocks with
  | nil =>
    have last : mtype (mqReceive resp endMessage.wire) = RESP_MT_END := end_typed zero
    have opened : RESP_MT_END ≠ RESP_MT_FAILURE := by decide
    have stops : RESP_MT_END ≠ RESP_MT_DATA := by decide
    have one : (endMessage.wire.length : Int) = 1 := by decide
    simp only [wires_nil, clientMain, last, countLoop]
    rw [if_neg opened, if_neg stops, one]
    rfl
  | cons block rest =>
    obtain ⟨nonempty, fits⟩ := split block List.mem_cons_self
    obtain ⟨type, zero'⟩ := data_type nonempty fits
      (zero.inPlace (List.length_pos_iff.mpr nonempty))
    have opened : ¬ mtype (mqReceive resp (dataMessage block).wire) = RESP_MT_FAILURE := by
      rw [type]
      decide
    simp only [wires_cons, clientMain]
    rw [if_neg opened, length_data_wire,
      countLoop_wires (fun b hb => split b (List.mem_cons_of_mem block hb)) zero' type]
    have bytes : ((block :: rest).flatten.length : Int) = block.length + rest.flatten.length := by
      rw [List.flatten_cons, List.length_append, Int.natCast_add]
    have messages : ((block :: rest).length : Int) = 1 + rest.length := by
      rw [List.length_cons, Int.natCast_add, Int.add_comm, Int.natCast_one]
    rw [bytes, messages]

theorem toInt_exact_iff (n : Nat) : toInt n = n ↔ (n : Int) ≤ INT_MAX := by
  have wraps := Int.bmod_lt (x := n) (m := 2 ^ 32) (by decide)
  rw [toInt, INT_MAX]
  constructor
  · intro same
    rw [same] at wraps
    omega
  · intro fits
    exact Int.bmod_eq_of_le (by omega) (by omega)

theorem length_flatten_le (fits : ∀ b ∈ blocks, b.length ≤ RESP_MSG_SIZE) :
    blocks.flatten.length ≤ blocks.length * RESP_MSG_SIZE := by
  induction blocks with
  | nil => exact Nat.zero_le _
  | cons block rest ih =>
    have first := fits block List.mem_cons_self
    have others := ih (fun b hb => fits b (List.mem_cons_of_mem block hb))
    rw [List.flatten_cons, List.length_append, List.length_cons, Nat.add_mul, Nat.one_mul]
    omega

/-- So many blocks are never too long for an `ssize_t`. -/
theorem toSsize_exact (split : ∀ b ∈ blocks, b ≠ [] ∧ b.length ≤ RESP_MSG_SIZE)
    (few : (blocks.length : Int) ≤ INT_MAX) :
    toSsize blocks.flatten.length = blocks.flatten.length := by
  have bound := length_flatten_le (fun b hb => (split b hb).2)
  rw [INT_MAX] at few
  rw [RESP_MSG_SIZE] at bound
  exact Int.bmod_eq_of_le (by omega) (by omega)

end

/-! ## A single client -/

/-- The client has left the loop. -/
def Left (s : State Unit) : Prop := (s.clients ()).pc = .exiting ∨ (s.clients ()).pc = .exited

/-- The statements that the client has still to come to, messages apart. -/
def ClientPc.rank : ClientPc → Nat
  | .openServer => 9
  | .openResp => 8
  | .send => 7
  | .recv => 3
  | .exiting => 2
  | .exited => 0
  | .refused => 0

def ChildPc.rank : ChildPc → Nat
  | .openResp => 3
  | .serve => 2
  | .exiting => 1
  | .exited => 0

def ServerPc.rank : ServerPc Unit → Nat
  | .receive => 0
  | .fork _ => 2

/-- A bound on the steps of the child, forked or not. -/
def childRank (w : World Unit) : Option Child → Nat
  | none => 2 * (messages w ()).length + 4
  | some child => 2 * child.todo.length + child.pc.rank

/-- A bound on the steps that are left. -/
def State.rank (w : World Unit) (s : State Unit) : Nat :=
  (s.clients ()).pc.rank + 3 * s.requests.length + s.server.rank + childRank w (s.children ()) +
    (s.waiting ()).length

/-- What holds in every state with a single client whose file can be opened. -/
structure Alone (w : World Unit) (s : State Unit) : Prop where
  one : OneSession w s
  linked : s.serverLinked = true
  admitted : (s.clients ()).pc ≠ .refused

section
variable {w : World Unit} {s t : State Unit} {act : Act Unit}

theorem Session.not_opening {c : Unit} {q : Nat} {client : Client Unit} {child : Option Child}
    {requests : List Unit} {server : ServerPc Unit} {content : List (Tagged Unit)}
    (session : Session w c q client child requests server content) : client.pc ≠ .openResp := by
  cases session <;> simp

theorem Session.not_forked {c d : Unit} {q : Nat} {client : Client Unit} {child : Option Child}
    {requests : List Unit} {server : ServerPc Unit} {content : List (Tagged Unit)}
    (session : Session w c q client child requests server content) (fork : server = .fork d) :
    child = none := by
  cases session with
  | forking => rfl
  | opened | queued | starting | serving | served => cases fork

/-- Nobody else has the name linked when the client opens it. -/
theorem OneSession.opensAlone (one : OneSession w s) (act : Act Unit) : OpensAlone act s := by
  cases act with
  | client c =>
    intro opens
    cases one with
    | idle free => exact free
    | busy d q linked session => exact absurd opens session.not_opening
  | server => exact trivial
  | child c => exact trivial

/-- The child is forked once. -/
theorem OneSession.not_forked (one : OneSession w s) (fork : s.server = .fork ()) :
    s.children () = none := by
  cases one with
  | idle _ _ receive =>
    rw [receive] at fork
    cases fork
  | busy d q linked session => exact session.not_forked fork

/-- The steps of the client, by the statement that it executes. -/
inductive ClientMoves (s : State Unit) : State Unit → Prop
  | openServer (pc : (s.clients ()).pc = .openServer) :
      ClientMoves s (s.setClient () { s.clients () with
        pc := if s.serverLinked then .openResp else .refused })
  | openResp (pc : (s.clients ()).pc = .openResp) {q : Nat} (linked : s.respName = some q) :
      ClientMoves s (s.setClient () { s.clients () with pc := .send, clientId := some q })
  | createResp (pc : (s.clients ()).pc = .openResp) (free : s.respName = none) :
      ClientMoves s ({ s.setQueue s.nextId [] with
        respName := some s.nextId
        nextId := s.nextId + 1 }.setClient () { s.clients () with
          pc := .send
          clientId := some s.nextId })
  | send (pc : (s.clients ()).pc = .send) :
      ClientMoves s ({ s with requests := s.requests ++ [()] }.setClient ()
        { s.clients () with pc := .recv })
  | recv (pc : (s.clients ()).pc = .recv) {q : Nat} {m : Tagged Unit} {rest : List (Tagged Unit)}
      (opened : (s.clients ()).clientId = some q) (content : s.queues q = m :: rest) :
      ClientMoves s ((s.setQueue q rest).setClient () { s.clients () with
        pc := if mtype (mqReceive (s.clients ()).resp m.message.wire) = RESP_MT_DATA then .recv
          else .exiting
        resp := mqReceive (s.clients ()).resp m.message.wire
        received := (s.clients ()).received ++ [m] })
  | exit (pc : (s.clients ()).pc = .exiting) :
      ClientMoves s ({ s with respName := none }.setClient () { s.clients () with pc := .exited })

theorem ClientMoves.of_step (step : clientStep () s = some t) : ClientMoves s t := by
  simp only [clientStep] at step
  split at step
  all_goals grind [ClientMoves]

/-- The name of the server queue stays linked, and the client is not refused. -/
theorem admitted_step (opened : (w.file ()).isSome) (linked : s.serverLinked = true)
    (admitted : (s.clients ()).pc ≠ .refused) (step : next w act s = some t) :
    t.serverLinked = true ∧ (t.clients ()).pc ≠ .refused := by
  cases act with
  | client c =>
    cases ClientMoves.of_step step with
    | openServer | openResp | createResp | send | exit =>
      simp [State.setClient, State.setQueue, linked]
    | recv =>
      rw [setClient_self]
      refine ⟨linked, ?_⟩
      split <;> simp
  | server =>
    simp only [next, serverStep] at step
    grind [State.setChild]
  | child c =>
    obtain ⟨child, here, step⟩ := Option.bind_eq_some_iff.mp step
    simp only [childStep] at step
    grind [State.setChild, State.setQueue]

/-- What a step of the child changes in the bound. -/
theorem rank_setChild (child : Child) : (s.setChild () child).rank w + childRank w (s.children ()) =
    s.rank w + childRank w (some child) := by
  simp only [State.rank, State.waiting, setChild_self]
  simp only [State.setChild]
  omega

/-- A message more makes at most one step more. -/
theorem rank_setQueue (q : Nat) (m : Tagged Unit) :
    (s.setQueue q (s.queues q ++ [m])).rank w ≤ s.rank w + 1 := by
  have longer : ((s.setQueue q (s.queues q ++ [m])).waiting ()).length ≤
      (s.waiting ()).length + 1 := by
    simp only [State.waiting, State.setQueue, Function.update_apply]
    cases (s.clients ()).clientId with
    | none => simp
    | some r =>
      by_cases same : r = q
      · simp [same]
      · simp [same]
  simp only [State.rank]
  simp only [State.setQueue] at longer ⊢
  omega

theorem rank_client (one : OneSession w s) (step : clientStep () s = some t) :
    t.rank w < s.rank w := by
  cases ClientMoves.of_step step with
  | openServer pc =>
    have lower : (if s.serverLinked then ClientPc.openResp else .refused).rank ≤ 8 := by
      split <;> simp [ClientPc.rank]
    simp only [State.rank, State.waiting, setClient_self, pc]
    simp only [State.setClient, ClientPc.rank] at lower ⊢
    omega
  | openResp pc linked =>
    have free : s.respName = none := one.opensAlone (.client ()) pc
    rw [free] at linked
    cases linked
  | createResp pc =>
    simp only [State.rank, State.waiting, setClient_self, pc]
    simp only [State.setClient, ClientPc.rank, State.setQueue, Function.update_self,
      List.length_nil]
    omega
  | send pc =>
    simp only [State.rank, State.waiting, setClient_self, pc]
    simp only [State.setClient, ClientPc.rank, List.length_append, List.length_singleton]
    omega
  | @recv pc q m rest opened content =>
    simp only [State.rank, State.waiting, setClient_self, pc, opened, content]
    simp only [State.setClient, State.setQueue, Function.update_self, List.length_cons]
    by_cases goes_on : mtype (mqReceive (s.clients ()).resp m.message.wire) = RESP_MT_DATA
    · rw [if_pos goes_on]
      omega
    · rw [if_neg goes_on]
      simp only [ClientPc.rank]
      omega
  | exit pc =>
    simp only [State.rank, State.waiting, setClient_self, pc]
    simp only [State.setClient, ClientPc.rank]
    omega

theorem rank_server (one : OneSession w s) (step : serverStep w s = some t) :
    t.rank w < s.rank w := by
  cases server : s.server with
  | receive =>
    cases requests : s.requests with
    | nil => simp [serverStep, server, requests] at step
    | cons c rest =>
      simp only [serverStep, server, requests, Option.some.injEq] at step
      subst step
      simp only [State.rank, State.waiting, server, requests, ServerPc.rank, List.length_cons]
      omega
  | fork c =>
    obtain rfl : c = () := rfl
    have once : s.children () = none := one.not_forked server
    simp only [serverStep, server, Option.some.injEq] at step
    subst step
    have change := rank_setChild (w := w) (s := { s with server := .receive })
      ⟨.openResp, none, messages w ()⟩
    have received : { s with server := .receive }.rank w + 2 = s.rank w := by
      simp only [State.rank, State.waiting, server, ServerPc.rank]
      omega
    simp only [once, childRank, ChildPc.rank] at change
    change ({ s with server := .receive }.setChild () ⟨.openResp, none, messages w ()⟩).rank w < _
    omega

theorem rank_child {child : Child} (here : s.children () = some child)
    (step : childStep w () child s = some t) : t.rank w < s.rank w := by
  -- what the child does to the rest of the state is made up for by its own progress
  have moved : ∀ (u : State Unit) (child' : Child) (n : Nat), u.children () = some child →
      u.rank w ≤ s.rank w + n → childRank w (some child') + n < childRank w (some child) →
      (u.setChild () child').rank w < s.rank w := by
    intro u child' n same bound less
    have change := rank_setChild (w := w) (s := u) child'
    rw [same] at change
    omega
  cases pc : child.pc with
  | openResp =>
    simp only [childStep, pc, Option.some.injEq] at step
    subst step
    exact moved s _ 0 here (Nat.le_refl _) (by simp [childRank, pc, ChildPc.rank])
  | serve =>
    cases todo : child.todo with
    | nil =>
      simp only [childStep, pc, todo, Option.some.injEq] at step
      subst step
      exact moved s _ 0 here (Nat.le_refl _) (by simp [childRank, pc, todo, ChildPc.rank])
    | cons m rest =>
      cases opened : child.clientId with
      | none =>
        have shorter :=
          (List.dropWhile_suffix (l := rest) (fun m => m.mtype = RESP_MT_DATA)).length_le
        simp only [childStep, pc, todo, opened, Option.some.injEq] at step
        subst step
        refine moved s _ 0 here (Nat.le_refl _) ?_
        simp only [childRank, pc, todo, List.length_cons]
        omega
      | some q =>
        simp only [childStep, pc, todo, opened] at step
        obtain ⟨-, same⟩ := Option.ite_none_right_eq_some.mp step
        cases same
        refine moved _ _ 1 here (rank_setQueue q ⟨(), m⟩) ?_
        simp only [childRank, pc, todo, List.length_cons]
        omega
  | exiting =>
    simp only [childStep, pc, Option.some.injEq] at step
    subst step
    exact moved { s with serverLinked := s.serverLinked && (w.file ()).isSome } _ 0 here
      (Nat.le_refl _) (by simp [childRank, pc, ChildPc.rank])
  | exited => simp [childStep, pc] at step

/-- Every step of a party leaves fewer. -/
theorem rank_step (one : OneSession w s) (step : next w act s = some t) : t.rank w < s.rank w := by
  cases act with
  | client c => exact rank_client one step
  | server => exact rank_server one step
  | child c =>
    obtain ⟨child, here, step⟩ := Option.bind_eq_some_iff.mp step
    exact rank_child here step

/-- Until the client has left the loop somebody can take a step. -/
theorem Alone.moves (alone : Alone w s) (inside : ¬ Left s) : ∃ act t, next w act s = some t := by
  cases pc : (s.clients ()).pc with
  | openServer => exact ⟨.client (), by simp [next, clientStep, pc]⟩
  | openResp =>
    have free : s.respName = none := alone.one.opensAlone (.client ()) pc
    exact ⟨.client (), by simp [next, clientStep, pc, free]⟩
  | send =>
    obtain ⟨act, t, -, step, -⟩ := alone.one.progress (Or.inl pc)
    exact ⟨act, t, step⟩
  | recv =>
    obtain ⟨act, t, -, step, -⟩ := alone.one.progress (Or.inr pc)
    exact ⟨act, t, step⟩
  | exiting => exact absurd (Or.inl pc) inside
  | exited => exact absurd (Or.inr pc) inside
  | refused => exact absurd pc alone.admitted

/-- What is assumed of the single client: its file can be opened, `read` returns it in
blocks, and `resp` is zero before it is used. -/
structure Prepared (w : World Unit) (blocks : List (List Byte)) : Prop where
  opened : w.file () = some blocks
  split : ∀ b ∈ blocks, b ≠ [] ∧ b.length ≤ RESP_MSG_SIZE
  zero : w.clientResp () = Buffer.zero _

variable {blocks : List (List Byte)}

theorem Prepared.splits (prepared : Prepared w blocks) (c : Unit) : Splitting (w.file c) := by
  intro opened here
  rw [prepared.opened] at here
  cases here
  exact prepared.split

theorem Prepared.first (prepared : Prepared w blocks) (c : Unit) : FirstTypeInPlace w c := by
  intro block rest here
  rw [prepared.opened] at here
  cases here
  rw [prepared.zero]
  exact highZero_zero.inPlace
    (List.length_pos_iff.mpr (prepared.split block List.mem_cons_self).1)

theorem Alone.step (prepared : Prepared w blocks) (alone : Alone w s)
    (step : next w act s = some t) : Alone w t := by
  have opened : (w.file ()).isSome := by simp [prepared.opened]
  obtain ⟨linked, admitted⟩ := admitted_step opened alone.linked alone.admitted step
  exact ⟨alone.one.step prepared.splits prepared.first (alone.one.opensAlone act) step, linked,
    admitted⟩

theorem Alone.start : Alone w (State.initial w) := ⟨.start, rfl, by simp [State.initial]⟩

theorem Alone.of_reachable (prepared : Prepared w blocks) (reach : (fileService w).Reachable s) :
    Alone w s := by
  refine reach.invariant ?_ ?_
  · rintro r rfl
    exact .start
  · intro act r t alone step
    exact alone.step prepared step

/-- Run lemma: the client leaves its loop in every run. -/
theorem leaves_loop (prepared : Prepared w blocks) :
    Inevitable (fileService w) Left (State.initial w) := by
  refine Inevitable.of_measure (Alone w) Nat.lt_wfRel.wf (State.rank w) ?_ ?_ _ .start
  · intro r alone inside
    exact alone.moves inside
  · intro act r t alone step
    exact ⟨alone.step prepared step, rank_step alone.one step⟩

/-! ## The report -/

/-- The bytes that the client has got. -/
def State.got (s : State Unit) : List (List Byte) :=
  (s.clients ()).received.map fun m => m.message.wire

/-- The types as the loop reads them, and the line that is printed. -/
structure ExactTotals (w : World Unit) (blocks : List (List Byte)) (s : State Unit) : Prop where
  types : (receiveLoop (w.clientResp ()) s.got).map Received.mtype =
    List.replicate blocks.length RESP_MT_DATA ++ [RESP_MT_END]
  whole : (receiveLoop (w.clientResp ()) s.got).length = s.got.length
  printed : clientMain (w.clientResp ()) s.got =
    .report blocks.flatten.length (blocks.length + 1)

/-- In every run the client leaves its loop, and then the totals are exact. -/
def TotalsExact (w : World Unit) (blocks : List (List Byte)) : Prop :=
  Inevitable (fileService w) Left (State.initial w) ∧
    ∀ s, (fileService w).Reachable s → Left s → ExactTotals w blocks s

/-- A client that has left the loop has got the messages for its file. -/
theorem got_wires (prepared : Prepared w blocks) (reach : (fileService w).Reachable s)
    (left : Left s) : s.got = wires blocks := by
  have alone := Alone.of_reachable prepared reach
  have all := (alone.one.received ()).2 left
  rw [State.got, all, tagged_eq (prepared.splits ()), prepared.opened, List.map_map]
  rfl

/-- The totals of a client that has left the loop are exact while the number of messages
fits in an `int`. -/
theorem exactTotals_iff_fits (prepared : Prepared w blocks) (reach : (fileService w).Reachable s)
    (left : Left s) : ExactTotals w blocks s ↔ (blocks.length : Int) + 1 ≤ INT_MAX := by
  have zero : HighZero (w.clientResp ()) := prepared.zero ▸ highZero_zero
  have got := got_wires prepared reach left
  have types := receiveLoop_types prepared.split zero
  have report := clientMain_wires prepared.split zero
  have messages := toInt_exact_iff (blocks.length + 1)
  rw [Int.natCast_add, Int.natCast_one] at messages
  constructor
  · intro exact_totals
    have printed := exact_totals.printed
    rw [got, report] at printed
    injection printed with _ count
    exact messages.mp count
  · intro fits
    have length := congrArg List.length types
    refine ⟨by rw [got, types], ?_, ?_⟩
    · rw [List.length_map, List.length_append, List.length_replicate, List.length_singleton]
        at length
      rw [got, length, wires, messagesFor]
      simp
    · rw [got, report, messages.mpr fits, toSsize_exact prepared.split (by omega)]

/-- With a single client every run comes to the end of the receive loop, where the report
is the length of the file and the number of its messages; the one condition is that the
number of messages fits in an `int`. -/
theorem totals_exact_iff_fits (prepared : Prepared w blocks) :
    TotalsExact w blocks ↔ (blocks.length : Int) + 1 ≤ INT_MAX := by
  have ends := leaves_loop prepared
  constructor
  · rintro ⟨-, totals⟩
    obtain ⟨s, run, left⟩ := ends.run
    have reach : (fileService w).Reachable s := (Reachable.initial rfl).run run
    exact (exactTotals_iff_fits prepared reach left).mp (totals s reach left)
  · intro fits
    exact ⟨ends, fun s reach left => (exactTotals_iff_fits prepared reach left).mpr fits⟩

end

/-- A client whose file is read in these blocks. -/
private def reader (blocks : List (List Byte)) : World Unit where
  file _ := some blocks
  clientResp _ := Buffer.zero _
  childResp _ := Buffer.zero _

/-- A last block that is shorter than `mtype`. -/
theorem short_block_totals : TotalsExact (reader [[104, 101, 108, 108, 111], [10]])
    [[104, 101, 108, 108, 111], [10]] :=
  (totals_exact_iff_fits ⟨rfl, by decide, rfl⟩).mpr (by decide)

/-- A file that comes in 2147483647 reads of one byte. -/
private def manyBlocks : List (List Byte) := List.replicate 2147483647 [10]

/-- Its messages are one more than an `int` can count. -/
theorem message_count_wraps : Prepared (reader manyBlocks) manyBlocks ∧
    ¬ TotalsExact (reader manyBlocks) manyBlocks := by
  have prepared : Prepared (reader manyBlocks) manyBlocks := by
    refine ⟨rfl, ?_, rfl⟩
    intro block member
    rw [List.eq_of_mem_replicate member]
    decide
  refine ⟨prepared, ?_⟩
  rintro ⟨ends, totals⟩
  obtain ⟨s, run, left⟩ := ends.run
  have reach : (fileService (reader manyBlocks)).Reachable s := (Reachable.initial rfl).run run
  have fits := (exactTotals_iff_fits prepared reach left).mp (totals s reach left)
  rw [manyBlocks, List.length_replicate, INT_MAX] at fits
  omega

end FileServer
