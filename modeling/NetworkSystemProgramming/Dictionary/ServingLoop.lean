import NetworkSystemProgramming.Dictionary.RequestReply

/-!
# The loop of the child

`while (recv(cd,tryit.word,sizeof(tryit.word),0) >= 0)`, the same in both servers: `recv`
returns the requests one after the other, and 0 each time it is called behind the last one,
when the client has closed. A send to a client that is gone does nothing: SIGPIPE is left
out.
-/

namespace Dictionary

open ByteBuffers StepSystems StepSystem

/-- What the child does in a turn, with the number that `recv` returns. -/
inductive ChildEvent where
  | recv (count : Nat)
  | lookup
  | send
  deriving DecidableEq

/-- The child, what `recv` is still to return, what was sent, and what has been done. -/
structure Serving where
  child : Child
  requests : List (List Byte)
  toClient : List (List Byte)
  log : List ChildEvent

def Child.receive (child : Child) (block : List Byte) : Child :=
  { child with
    pc := .lookup
    tryit := { child.tryit with word := child.tryit.word.receive block } }

/-- What is seen of a statement other than `recv`. -/
def ChildPc.shows : ChildPc → List ChildEvent
  | .lookup => [.lookup]
  | .send => [.send]
  | _ => []

/-- One statement of the child. The test of the loop holds for 0, too. -/
def serve (resource : Option (List Byte)) (s : Serving) : Option Serving :=
  if s.child.pc = .recv then
    let block := s.requests.headD []
    some ⟨s.child.receive block, s.requests.tail, s.toClient, s.log ++ [.recv block.length]⟩
  else
    (childStep resource s.child s.toClient).map fun (child, toClient) =>
      ⟨child, s.requests, toClient, s.log ++ s.child.pc.shows⟩

/-- The child in front of the loop. -/
def Serving.initial (tryit : Dictrec) (requests : List (List Byte)) : Serving :=
  ⟨⟨.recv, tryit, Lookup5.initial⟩, requests, [], []⟩

def servingRuns (resource : Option (List Byte)) (tryit : Dictrec) (requests : List (List Byte)) :
    StepSystem Serving Unit :=
  ofNext (· = Serving.initial tryit requests) fun _ => serve resource

/-- What a `recv` that returns `count` should lead to. -/
def turn (count : Nat) : List ChildEvent :=
  if count = 0 then [.recv 0] else [.recv count, .lookup, .send]

/-- A lookup and a send for each request and for nothing else, and an end. -/
structure EndsWithClient (resource : Option (List Byte)) (tryit : Dictrec)
    (requests : List (List Byte)) : Prop where
  turns : ∀ s, (servingRuns resource tryit requests).Reachable s →
    s.child.pc = .recv ∨ s.child.pc = .exited → ∃ counts : List Nat, s.log = counts.flatMap turn
  ends : ∃ s, (servingRuns resource tryit requests).Reachable s ∧ s.child.pc = .exited

/-- What every `recv` leads to. -/
def fullTurn (count : Nat) : List ChildEvent := [.recv count, .lookup, .send]

section
variable {resource : Option (List Byte)} {tryit : Dictrec} {requests : List (List Byte)}

/-! ## How the child can end -/

theorem turns_last (counts : List Nat) : (counts.flatMap turn).getLast? ≠ some .lookup := by
  rcases counts.eq_nil_or_concat with rfl | ⟨counts, n, rfl⟩
  · simp
  · rw [List.concat_eq_append, List.flatMap_append, List.flatMap_singleton, List.getLast?_append,
      turn]
    split <;> simp

/-- Only a lookup that fails ends the child. -/
theorem serve_exits {s s' : Serving} (h : serve resource s = some s')
    (exits : s'.child.pc = .exited) : s'.log = s.log ++ [.lookup] := by
  cases pc : s.child.pc with
  | recv =>
    simp only [serve, pc, if_true] at h
    cases h
    cases exits
  | lookup =>
    simp only [serve, pc, reduceCtorEq, if_false] at h
    obtain ⟨_, -, rfl⟩ := Option.map_eq_some_iff.mp h
    rfl
  | send =>
    simp only [serve, childStep, pc, reduceCtorEq, if_false, Option.map_some] at h
    cases h
    cases exits
  | clear =>
    simp only [serve, childStep, pc, reduceCtorEq, if_false, Option.map_some] at h
    cases h
    cases exits
  | exited => simp [serve, childStep, pc] at h

theorem exited_log {s : Serving} (reach : (servingRuns resource tryit requests).Reachable s)
    (exits : s.child.pc = .exited) : s.log.getLast? = some .lookup := by
  refine reach.invariant (I := fun s => s.child.pc = .exited → s.log.getLast? = some .lookup)
    ?_ ?_ exits
  · rintro s rfl exits
    cases exits
  · intro _ s s' _ h exits
    rw [serve_exits h exits]
    exact List.getLast?_concat

end

/-! ## What it does instead -/

section
variable {records : List Dictrec} (tryit : Dictrec) (requests : List (List Byte))

/-- The child at the test of the loop. -/
def Serving.AtTest (records : List Dictrec) (s : Serving) : Prop :=
  s.child.pc = .recv ∧ s.child.statics.Ready (outFile records)

/-- A turn looks up and sends, also when `recv` returns 0. -/
theorem serves_turn (readable : Readable records) {s : Serving}
    (test : s.AtTest records) :
    ∃ t, (servingRuns (some (outFile records)) tryit requests).Run s t ∧ t.AtTest records ∧
      t.requests = s.requests.tail ∧ t.log = s.log ++ fullTurn (s.requests.headD []).length := by
  obtain ⟨⟨pc, record, statics⟩, blocks, toClient, log⟩ := s
  obtain ⟨waits, ready⟩ := test
  obtain rfl : pc = .recv := waits
  let block := blocks.headD []
  let received : Dictrec := { record with word := record.word.receive block }
  obtain ⟨found, statics', call, ready', -⟩ := lookup_answers readable
    (show received.word.str = (record.word.receive block).str from rfl) ready toClient
  let s1 : Serving := ⟨⟨.lookup, received, statics⟩, blocks.tail, toClient,
    log ++ [.recv block.length]⟩
  let s2 : Serving := ⟨⟨.send, found, statics'⟩, blocks.tail, toClient, s1.log ++ [.lookup]⟩
  let s3 : Serving := ⟨⟨.clear, found, statics'⟩, blocks.tail, deliver toClient found.text.str,
    s2.log ++ [.send]⟩
  let s4 : Serving := ⟨⟨.recv, { found with word := Buffer.zero WORD }, statics'⟩, blocks.tail,
    s3.toClient, s3.log ++ []⟩
  have step1 : serve (some (outFile records)) ⟨⟨.recv, record, statics⟩, blocks, toClient, log⟩ =
      some s1 := rfl
  have step2 : serve (some (outFile records)) s1 = some s2 := by
    simp only [serve, s1, reduceCtorEq, if_false, call]
    rfl
  have step3 : serve (some (outFile records)) s2 = some s3 := rfl
  have step4 : serve (some (outFile records)) s3 = some s4 := rfl
  have run := ((((Run.refl _).snoc (T := servingRuns (some (outFile records)) tryit requests)
    (l := ()) step1).snoc (l := ()) step2).snoc (l := ()) step3).snoc (l := ()) step4
  exact ⟨s4, run, ⟨rfl, ready'⟩, rfl, by simp [s4, s3, s2, s1, fullTurn, block]⟩

/-- The turns for the requests. -/
theorem serves_requests (readable : Readable records) {s : Serving}
    (test : s.AtTest records) :
    ∃ t, (servingRuns (some (outFile records)) tryit requests).Run s t ∧ t.AtTest records ∧
      t.requests = [] ∧ t.log = s.log ++ (s.requests.map List.length).flatMap fullTurn := by
  induction left : s.requests generalizing s with
  | nil => exact ⟨s, Run.refl s, test, left, by simp⟩
  | cons block rest ih =>
    obtain ⟨t, run, test', behind, log⟩ :=
      serves_turn tryit requests readable test
    rw [left] at behind log
    obtain ⟨u, run', test'', behind', log'⟩ := ih test' behind
    refine ⟨u, run.trans run', test'', behind', ?_⟩
    rw [log', log]
    simp

/-- Behind the last request the turns go on, one for each 0. -/
theorem serves_closed (readable : Readable records) (n : Nat) {s : Serving}
    (test : s.AtTest records) (closed : s.requests = []) :
    ∃ t, (servingRuns (some (outFile records)) tryit requests).Run s t ∧ t.AtTest records ∧
      t.requests = [] ∧ t.log = s.log ++ (List.replicate n 0).flatMap fullTurn := by
  induction n generalizing s with
  | zero => exact ⟨s, Run.refl s, test, closed, by simp⟩
  | succ n ih =>
    obtain ⟨t, run, test', behind, log⟩ :=
      serves_turn tryit requests readable test
    rw [closed] at behind log
    obtain ⟨u, run', test'', behind', log'⟩ := ih test' behind
    refine ⟨u, run.trans run', test'', behind', ?_⟩
    rw [log', log, List.replicate_succ]
    simp

/-- On a readable file the child does not end. -/
theorem serves_on (readable : Readable records) {s : Serving}
    (reach : (servingRuns (some (outFile records)) tryit requests).Reachable s) :
    s.child.pc ≠ .exited := by
  have runs : s.child.statics.Ready (outFile records) ∧ s.child.pc ≠ .exited := by
    refine reach.invariant
      (I := fun s => s.child.statics.Ready (outFile records) ∧ s.child.pc ≠ .exited) ?_ ?_
    · rintro s rfl
      exact ⟨Lookup5.initial_ready _, nofun⟩
    · rintro _ ⟨⟨pc, record, statics⟩, blocks, toClient, log⟩ t ⟨ready, runs⟩ h
      have h : serve (some (outFile records)) _ = some t := h
      cases pc with
      | recv =>
        cases h
        exact ⟨ready, nofun⟩
      | lookup =>
        obtain ⟨found, statics', call, ready', -⟩ := lookup_answers readable
          (show record.word.str = record.word.str from rfl) ready toClient
        simp only [serve, reduceCtorEq, if_false, call, Option.map_some] at h
        cases h
        exact ⟨ready', nofun⟩
      | send =>
        cases h
        exact ⟨ready, nofun⟩
      | clear =>
        cases h
        exact ⟨ready, nofun⟩
      | exited => exact absurd rfl runs
  exact runs.2

end

/-! ## The child of a connection -/

/-- The connection in which the requests are under way and the client has closed. -/
structure Shows (s : Serving) (c : Connection) : Prop where
  child : c.child = some s.child
  closed : c.client.pc = .finished
  toServer : c.toServer = s.requests
  toClient : c.toClient = s.toClient
  blocks : ∀ block ∈ s.requests, block ≠ [] ∧ block.length ≤ WORD

/-- No process is killed by SIGPIPE. -/
def Unpiped (act : Act) (_ : Connection) : Prop := act ≠ .clientSigpipe ∧ act ≠ .serverSigpipe

section
variable {resource : Option (List Byte)}

theorem recv_block {block : List Byte} {rest : List (List Byte)}
    (blocks : ∀ b ∈ block :: rest, b ≠ [] ∧ b.length ≤ WORD) (gone : Bool) :
    recv WORD block.length (block :: rest) gone = some (block, rest) := by
  obtain ⟨nonempty, fits⟩ := blocks block List.mem_cons_self
  have bytes := List.length_pos_iff.mpr nonempty
  have dropped : dropBytes 0 rest = rest := by
    cases rest with
    | nil => rfl
    | cons next others =>
      have more := List.length_pos_iff.mpr (blocks next (by simp)).1
      rw [dropBytes, if_pos more, List.drop_zero]
  have room : block.length ≤ (block :: rest).flatten.length := by simp
  simp [recv, nonempty, bytes, fits, dropBytes, dropped]

/-- Each statement of the loop is a step of the connection. -/
theorem serve_next (serverTryit : Dictrec) {s s' : Serving} {c : Connection} (shows : Shows s c)
    (h : serve resource s = some s') :
    ∃ act c', Unpiped act c ∧ next resource serverTryit act c = some c' ∧ Shows s' c' := by
  obtain ⟨client, child, toServer, toClient⟩ := c
  obtain ⟨child', requests, toClient', log⟩ := s
  obtain ⟨here, closed, under, sent, blocks⟩ := shows
  obtain rfl : child = some child' := here
  obtain rfl : toServer = requests := under
  obtain rfl : toClient = toClient' := sent
  have gone : clientGone ⟨client, some child', toServer, toClient⟩ = true := by
    simpa [clientGone] using closed
  by_cases waits : child'.pc = .recv
  · simp only [serve, waits, if_true] at h
    cases h
    cases toServer with
    | nil =>
      refine ⟨.serverRecv 0, ⟨client, some (child'.receive []), [], toClient⟩,
        by simp [Unpiped], ?_, ?_⟩
      · simp [next, waits, recv, gone, Child.receive]
      · exact ⟨rfl, closed, rfl, rfl, fun _ member => absurd member List.not_mem_nil⟩
    | cons block rest =>
      refine ⟨.serverRecv block.length, ⟨client, some (child'.receive block), rest, toClient⟩,
        by simp [Unpiped], ?_, ?_⟩
      · simp [next, waits, recv_block blocks, Child.receive]
      · exact ⟨rfl, closed, rfl, rfl, fun b member => blocks b (List.mem_cons_of_mem block member)⟩
  · simp only [serve, waits, if_false] at h
    obtain ⟨⟨child'', toClient'⟩, step, rfl⟩ := Option.map_eq_some_iff.mp h
    refine ⟨.server, ⟨client, some child'', toServer, toClient'⟩, by simp [Unpiped], ?_, ?_⟩
    · exact next_server step serverTryit client toServer
    · exact ⟨rfl, closed, rfl, rfl, blocks⟩

/-- Run lemma: a run of the loop is a run of the connection. -/
theorem serve_run {s t : Serving} {c : Connection} {clientTryit serverTryit tryit : Dictrec}
    {queries requests : List (List Byte)} (shows : Shows s c)
    (run : (servingRuns resource tryit requests).Run s t) :
    ∃ d, ((dialogue resource clientTryit serverTryit queries).restrict Unpiped).Run c d ∧
      Shows t d := by
  induction run with
  | refl => exact ⟨c, Run.refl c, shows⟩
  | tail _ step ih =>
    obtain ⟨d, run, shows⟩ := ih
    obtain ⟨_, h⟩ := step
    obtain ⟨act, e, plain, next, shows'⟩ := serve_next serverTryit shows h
    exact ⟨e, run.snoc (l := act) ⟨plain, next⟩, shows'⟩

end

/-- Whatever the requests are: the child does not do what it should, and on a readable file
it never ends by itself, with a lookup and a send for each `recv` that returns 0. -/
theorem dialogue_outlives_client (resource : Option (List Byte)) (tryit : Dictrec)
    (requests : List (List Byte)) :
    ¬ EndsWithClient resource tryit requests ∧
      ∀ records : List Dictrec, Readable records → resource = some (outFile records) →
        (∀ s, (servingRuns resource tryit requests).Reachable s → s.child.pc ≠ .exited) ∧
        ∀ n, ∃ s, (servingRuns resource tryit requests).Reachable s ∧
          s.log = (requests.map List.length ++ List.replicate n 0).flatMap fullTurn := by
  constructor
  · intro property
    obtain ⟨s, reach, exits⟩ := property.ends
    obtain ⟨counts, log⟩ := property.turns s reach (Or.inr exits)
    have last := exited_log reach exits
    rw [log] at last
    exact turns_last counts last
  · rintro records readable rfl
    refine ⟨fun s reach => serves_on tryit requests readable reach, ?_⟩
    intro n
    have test : (Serving.initial tryit requests).AtTest records :=
      ⟨rfl, Lookup5.initial_ready _⟩
    obtain ⟨t, first, test', closed, log⟩ := serves_requests tryit requests readable test
    obtain ⟨u, second, -, -, log'⟩ := serves_closed tryit requests readable n test' closed
    refine ⟨u, (Reachable.initial rfl).run (first.trans second), ?_⟩
    rw [log', log, List.flatMap_append]
    rfl

/-- One query, and the client closes. -/
theorem closed_client_looked_up : ¬ ∀ (resource : Option (List Byte)) (tryit : Dictrec)
    (requests : List (List Byte)), (∀ q ∈ requests, q ≠ [] ∧ q.length ≤ WORD) →
      EndsWithClient resource tryit requests := by
  intro claim
  have property := claim (some exampleTable.file) Dictrec.zero [[99, 97, 116]] (by decide)
  have run : (follow (fun _ => serve (some exampleTable.file)) (List.replicate 8 ())
      (Serving.initial Dictrec.zero [[99, 97, 116]])).map (fun s => (s.child.pc, s.log)) =
      some (.recv, [.recv 3, .lookup, .send, .recv 0, .lookup, .send]) := by
    decide +kernel
  obtain ⟨s, followed, shown⟩ := Option.map_eq_some_iff.mp run
  obtain ⟨pc, log⟩ := Prod.mk.inj shown
  obtain ⟨counts, turns⟩ := property.turns s ((Reachable.initial rfl).run (follow_run followed))
    (Or.inl pc)
  rw [log] at turns
  rcases counts with _ | ⟨n, _ | ⟨m, counts⟩⟩
  · cases turns
  · grind [turn]
  · cases counts <;> grind [turn]

end Dictionary
