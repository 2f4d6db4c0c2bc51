import NetworkSystemProgramming.FileServer.Encoding
import NetworkSystemProgramming.FileServer.System

/-!
# One client at a time is served its own messages

All response queues have the same name. As long as no client opens the name while
another one has it linked, there is one session at a time: a client, its request, the
child that handles it and the queue between them.
-/

namespace FileServer

open ByteBuffers StepSystems StepSystem

variable {I : Type} [DecidableEq I]

/-! ## How the types arrive -/

/-- The bytes of `mtype` that a message of `n` bytes does not reach are zero. -/
def TypeInPlace (resp : ResponseMsg) (n : Nat) : Prop :=
  (resp.bytes.drop n).take (MTYPE_SIZE - n) = List.replicate (MTYPE_SIZE - n) 0

theorem mtypeBytes_small {m : Nat} (small : m < 256) {n : Nat} (positive : 0 < n) :
    (mtypeBytes m).drop n = List.replicate (MTYPE_SIZE - n) 0 := by
  obtain ⟨k, rfl⟩ : ∃ k, n = k + 1 := ⟨n - 1, by omega⟩
  have high : m / 256 = 0 := Nat.div_eq_of_lt small
  have zeros : ∀ w, leBytes w 0 = List.replicate w 0 := by
    intro w
    induction w with
    | zero => rfl
    | succ w ih => rw [leBytes, Nat.zero_div, ih, List.replicate_succ]; rfl
  rw [mtypeBytes, MTYPE_SIZE, leBytes, List.drop_succ_cons, high, zeros, List.drop_replicate]
  congr 1
  omega

/-- After a message whose type is in place the structure has the whole type. -/
theorem mqReceive_type {m : Message} (sent : m.Sent) (small : m.mtype < 256)
    (positive : 0 < m.wire.length) (resp : ResponseMsg)
    (inPlace : TypeInPlace resp m.wire.length) :
    (mqReceive resp m.wire).bytes.take MTYPE_SIZE = mtypeBytes m.mtype := by
  rw [mqReceive_bytes sent]
  have le := wire_le_full sent
  have taken : (m.full.take m.wire.length).length = m.wire.length := by
    rw [List.length_take, Nat.min_eq_left le]
  by_cases whole : MTYPE_SIZE ≤ m.wire.length
  · rw [List.take_append_of_le_length (by rw [taken]; exact whole), List.take_take,
      Nat.min_eq_left whole, Message.full]
    exact List.take_left' (length_mtypeBytes _)
  · have short : m.full.take m.wire.length = (mtypeBytes m.mtype).take m.wire.length := by
      rw [Message.full, List.take_append_of_le_length]
      rw [length_mtypeBytes]
      omega
    rw [List.take_append, taken, List.take_of_length_le (by rw [taken]; omega), inPlace, short,
      ← mtypeBytes_small small positive, List.take_append_drop]

/-- The high bytes of the type are zero. -/
def HighZero (resp : ResponseMsg) : Prop := TypeInPlace resp 1

theorem HighZero.inPlace {resp : ResponseMsg} (zero : HighZero resp) {n : Nat} (positive : 0 < n) :
    TypeInPlace resp n := by
  obtain ⟨k, rfl⟩ : ∃ k, n = 1 + k := ⟨n - 1, by omega⟩
  have shorter := congrArg (List.drop k) zero
  rw [List.drop_take, List.drop_drop, List.drop_replicate] at shorter
  rw [TypeInPlace, ← Nat.sub_sub]
  exact shorter

theorem HighZero.of_type {resp : ResponseMsg} {m : Nat} (small : m < 256)
    (typed : resp.bytes.take MTYPE_SIZE = mtypeBytes m) : HighZero resp := by
  have high := congrArg (List.drop 1) typed
  rwa [List.drop_take, mtypeBytes_small small Nat.one_pos] at high

theorem mtype_of_type {resp : ResponseMsg} {m : Nat} (known : leValue (mtypeBytes m) = m)
    (typed : resp.bytes.take MTYPE_SIZE = mtypeBytes m) : mtype resp = m := by
  rw [mtype, typed, known]

/-- A block is taken for one when its type is in place. -/
theorem data_type {block : List Byte} (nonempty : block ≠ []) (fits : block.length ≤ RESP_MSG_SIZE)
    {resp : ResponseMsg} (inPlace : TypeInPlace resp block.length) :
    mtype (mqReceive resp (dataMessage block).wire) = RESP_MT_DATA ∧
      HighZero (mqReceive resp (dataMessage block).wire) := by
  have length : (dataMessage block).wire.length = block.length := by simp [dataMessage]
  have typed := mqReceive_type (dataMessage_sent fits) (by decide : RESP_MT_DATA < 256)
    (by rw [length]; exact List.length_pos_iff.mpr nonempty) resp (length ▸ inPlace)
  exact ⟨mtype_of_type (m := RESP_MT_DATA) (by decide) typed,
    HighZero.of_type (m := RESP_MT_DATA) (by decide) typed⟩

/-- A failure is never taken for a block. -/
theorem failure_type (resp : ResponseMsg) :
    mtype (mqReceive resp failureMessage.wire) ≠ RESP_MT_DATA := by
  have typed := mqReceive_type failureMessage_sent (by decide : RESP_MT_FAILURE < 256)
    (by decide) resp rfl
  rw [mtype_of_type (m := RESP_MT_FAILURE) (by decide) typed]
  decide

/-- Nor is the end-of-file message, whatever its high bytes are. -/
theorem end_type (resp : ResponseMsg) :
    mtype (mqReceive resp endMessage.wire) ≠ RESP_MT_DATA := by
  have first : endMessage.full.take endMessage.wire.length = [3] := by decide
  rw [mtype, mqReceive_bytes endMessage_sent, first, List.singleton_append]
  change 3 + 256 * leValue _ ≠ 2
  omega

/-! ## Sessions -/

/-- The messages of the child that handles the request of `c`. -/
def messages (w : World I) (c : I) : List Message := serveRequest (w.file c) (w.childResp c)

def tagged (w : World I) (c : I) : List (Tagged I) := (messages w c).map (Tagged.mk c)

/-- The child has nothing to send any more. -/
def Child.Done (child : Child) : Prop := child.todo = [] ∧ child.pc ≠ .openResp

/-- A client that does not use the response queue, with its child. -/
inductive Outside (w : World I) (c : I) : Client I → Option Child → Prop
  | before {pc} (early : pc = .openServer ∨ pc = .openResp ∨ pc = .refused) :
      Outside w c ⟨pc, w.clientResp c, none, []⟩ none
  | done {resp q child} (quiet : Child.Done child) :
      Outside w c ⟨.exited, resp, some q, tagged w c⟩ (some child)

/-- The next block will be taken for one. -/
def TypesReady (w : World I) (c : I) (resp : ResponseMsg) (received : List (Tagged I)) : Prop :=
  (resp = w.clientResp c ∧ received = []) ∨ HighZero resp

/-- A client that uses the response queue `q`: its child, the content of the server
queue, the main loop and the content of `q`. -/
inductive Session (w : World I) (c : I) (q : Nat) :
    Client I → Option Child → List I → ServerPc I → List (Tagged I) → Prop
  | opened : Session w c q ⟨.send, w.clientResp c, some q, []⟩ none [] .receive []
  | queued : Session w c q ⟨.recv, w.clientResp c, some q, []⟩ none [c] .receive []
  | forking : Session w c q ⟨.recv, w.clientResp c, some q, []⟩ none [] (.fork c) []
  | starting : Session w c q ⟨.recv, w.clientResp c, some q, []⟩
      (some ⟨.openResp, none, messages w c⟩) [] .receive []
  | serving {resp received content todo child}
      (split : received ++ content ++ todo.map (Tagged.mk c) = tagged w c)
      (unfinished : content ++ todo.map (Tagged.mk c) ≠ [])
      (types : TypesReady w c resp received)
      (stage : child = ⟨.serve, some q, todo⟩ ∨ todo = [] ∧ Child.Done child) :
      Session w c q ⟨.recv, resp, some q, received⟩ (some child) [] .receive content
  | served {resp child} (quiet : Child.Done child) :
      Session w c q ⟨.exiting, resp, some q, tagged w c⟩ (some child) [] .receive []

/-- At most one client uses a response queue, and its name is free otherwise. -/
inductive OneSession (w : World I) (s : State I) : Prop
  | idle (free : s.respName = none) (requests : s.requests = []) (server : s.server = .receive)
      (outside : ∀ c, Outside w c (s.clients c) (s.children c))
  | busy (c : I) (q : Nat) (linked : s.respName = some q)
      (session : Session w c q (s.clients c) (s.children c) s.requests s.server (s.queues q))
      (outside : ∀ d, d ≠ c → Outside w d (s.clients d) (s.children d))

/-- No client opens the name while it is linked. -/
def OpensAlone (act : Act I) (s : State I) : Prop :=
  match act with
  | .client c => (s.clients c).pc = .openResp → s.respName = none
  | _ => True

/-- In the structure of the client the type of a short first block is in place. -/
def FirstTypeInPlace (w : World I) (c : I) : Prop :=
  ∀ block rest, w.file c = some (block :: rest) → TypeInPlace (w.clientResp c) block.length

section
variable {w : World I} {s t : State I} {c d : I} {q : Nat}

omit [DecidableEq I] in
theorem Outside.not_session {client : Client I} {child child' : Option Child}
    {requests : List I} {server : ServerPc I} {content : List (Tagged I)}
    (outside : Outside w d client child) : ¬ Session w c q client child' requests server content := by
  intro session
  cases outside with
  | before early => rcases early with rfl | rfl | rfl <;> cases session
  | done => cases session

/-- A step of a client outside, or of its child, that leaves it outside. -/
theorem OneSession.of_outside (one : OneSession w s)
    (before : Outside w d (s.clients d) (s.children d))
    (after : Outside w d (t.clients d) (t.children d))
    (others : ∀ e, e ≠ d → t.clients e = s.clients e ∧ t.children e = s.children e)
    (requests : t.requests = s.requests) (server : t.server = s.server)
    (respName : t.respName = s.respName) (queues : t.queues = s.queues) : OneSession w t := by
  have outside : ∀ e, (e ≠ d → Outside w e (s.clients e) (s.children e)) →
      Outside w e (t.clients e) (t.children e) := by
    intro e kept
    by_cases self : e = d
    · rw [self]
      exact after
    · rw [(others e self).1, (others e self).2]
      exact kept self
  cases one with
  | idle free empty receive all =>
    exact .idle (respName ▸ free) (requests ▸ empty) (server ▸ receive)
      (fun e => outside e (fun _ => all e))
  | busy c q linked session all =>
    have other : c ≠ d := by
      rintro rfl
      exact before.not_session session
    refine .busy c q (respName ▸ linked) ?_ (fun e ne => outside e (fun _ => all e ne))
    rw [(others c other).1, (others c other).2, requests, server, queues]
    exact session

omit [DecidableEq I] in
theorem tagged_eq (split : Splitting (w.file c)) :
    tagged w c = (messagesFor (w.file c)).map (Tagged.mk c) := by
  rw [tagged, messages, serveRequest_eq split]

omit [DecidableEq I] in
theorem tagged_own {m : Tagged I} (member : m ∈ tagged w c) : m.sender = c := by
  obtain ⟨_, _, rfl⟩ := List.mem_map.mp member
  rfl

omit [DecidableEq I] in
/-- The last message of a request is not one with data, and is not taken for one. -/
theorem last_message (split : Splitting (w.file c)) {front : List (Tagged I)} {m : Tagged I}
    (all : front ++ [m] = tagged w c) (resp : ResponseMsg) :
    m.message.mtype ≠ RESP_MT_DATA ∧ mtype (mqReceive resp m.message.wire) ≠ RESP_MT_DATA := by
  rw [tagged_eq split] at all
  cases opened : w.file c with
  | none =>
    have last : m = ⟨c, failureMessage⟩ := by
      have := congrArg List.getLast? all
      simpa [opened, messagesFor] using this
    rw [last]
    exact ⟨show RESP_MT_FAILURE ≠ RESP_MT_DATA by decide, failure_type resp⟩
  | some blocks =>
    have last : m = ⟨c, endMessage⟩ := by
      have := congrArg List.getLast? all
      simpa [opened, messagesFor] using this
    rw [last]
    exact ⟨show RESP_MT_END ≠ RESP_MT_DATA by decide, end_type resp⟩

omit [DecidableEq I] in
/-- Every other one carries a block of the file. -/
theorem inner_message (split : Splitting (w.file c)) {front more : List (Tagged I)} {m : Tagged I}
    (all : front ++ m :: more = tagged w c) (unfinished : more ≠ []) :
    ∃ block, m.message = dataMessage block ∧ block ≠ [] ∧ block.length ≤ RESP_MSG_SIZE ∧
      (front = [] → ∃ rest, w.file c = some (block :: rest)) := by
  rw [tagged_eq split] at all
  cases opened : w.file c with
  | none =>
    have length := congrArg List.length all
    have := List.length_pos_iff.mpr unfinished
    simp only [opened, messagesFor, List.length_append, List.length_cons, List.length_map,
      List.length_nil] at length
    omega
  | some blocks =>
    obtain ⟨others, last, rfl⟩ := (List.eq_nil_or_concat more).resolve_left unfinished
    have inner : front ++ m :: others = blocks.map (fun b => ⟨c, dataMessage b⟩) := by
      rw [opened, messagesFor, List.map_append, List.map_map, List.concat_eq_append,
        ← List.cons_append, ← List.append_assoc] at all
      exact (List.append_inj' all rfl).1
    have member : m ∈ blocks.map (fun b => (⟨c, dataMessage b⟩ : Tagged I)) := by
      rw [← inner]
      simp
    obtain ⟨block, hb, rfl⟩ := List.mem_map.mp member
    obtain ⟨nonempty, fits⟩ := split blocks opened block hb
    refine ⟨block, rfl, nonempty, fits, ?_⟩
    rintro rfl
    cases blocks with
    | nil => cases hb
    | cons first rest =>
      have head := (List.cons.inj inner).1
      have same : block = first := congrArg (fun m => m.message.data) head
      exact ⟨rest, by rw [same]⟩

theorem OneSession.outside_client (one : OneSession w s)
    (outside : Outside w d (s.clients d) (s.children d)) (early : (s.clients d).pc ≠ .openResp)
    (h : clientStep d s = some t) : OneSession w t := by
  have keep : ∀ client, t = s.setClient d client → Outside w d client (s.children d) →
      OneSession w t := by
    rintro client rfl after
    refine one.of_outside outside ?_ ?_ rfl rfl rfl rfl
    · rw [setClient_self]
      exact after
    · intro e ne
      exact ⟨setClient_other s client ne, rfl⟩
  generalize hc : s.clients d = client at outside early
  generalize hd : s.children d = child at outside keep
  cases outside with
  | before at_start =>
    rcases at_start with rfl | rfl | rfl
    · simp only [clientStep, hc, Option.some.injEq] at h
      refine keep _ h.symm (.before ?_)
      split
      · exact Or.inr (Or.inl rfl)
      · exact Or.inr (Or.inr rfl)
    · exact absurd rfl early
    · simp [clientStep, hc] at h
  | done => simp [clientStep, hc] at h

/-- A child that has sent everything only comes to its end. -/
theorem Child.Done.step {child : Child} (done : child.Done) (h : childStep w d child s = some t) :
    ∃ (child' : Child) (linked : Bool), child'.Done ∧
      t = { s with serverLinked := linked }.setChild d child' := by
  obtain ⟨todo, past⟩ := done
  cases pc : child.pc with
  | openResp => exact absurd pc past
  | serve =>
    simp only [childStep, pc, todo, Option.some.injEq] at h
    exact ⟨⟨.exiting, child.clientId, []⟩, s.serverLinked, ⟨rfl, by simp⟩, h.symm⟩
  | exiting =>
    simp only [childStep, pc, Option.some.injEq] at h
    exact ⟨{ child with pc := .exited }, _, ⟨todo, by simp⟩, h.symm⟩
  | exited => simp [childStep, pc] at h

theorem OneSession.outside_child (one : OneSession w s)
    (outside : Outside w d (s.clients d) (s.children d)) {child : Child}
    (here : s.children d = some child) (h : childStep w d child s = some t) :
    OneSession w t := by
  rw [here] at outside
  have quiet : child.Done := by
    generalize s.clients d = client at outside
    cases outside with
    | done quiet => exact quiet
  obtain ⟨child', linked, quiet', rfl⟩ := quiet.step h
  refine one.of_outside (here ▸ outside) ?_ ?_ rfl rfl rfl rfl
  · rw [setChild_self]
    change Outside w d (s.clients d) (some child')
    generalize s.clients d = client at outside
    cases outside with
    | done => exact .done quiet'
  · intro e ne
    exact ⟨rfl, setChild_other _ child' ne⟩

/-- A client opens the name while it is free, and the session begins. -/
theorem OneSession.opens (free : s.respName = none) (requests : s.requests = [])
    (server : s.server = .receive) (outside : ∀ c, Outside w c (s.clients c) (s.children c))
    (pc : (s.clients c).pc = .openResp) (h : clientStep c s = some t) : OneSession w t := by
  simp only [clientStep, pc, free, Option.some.injEq] at h
  subst h
  have at_start := outside c
  refine .busy c s.nextId rfl ?_ ?_
  · generalize hc : s.clients c = client at pc at_start
    generalize hd : s.children c = child at at_start
    cases at_start with
    | before early =>
      simp only [setClient_self]
      change Session w c s.nextId _ (s.children c) s.requests s.server
        ((s.setQueue s.nextId []).queues s.nextId)
      rw [hd, requests, server, setQueue_self]
      exact .opened
    | done => cases pc
  · intro d ne
    rw [setClient_other _ _ ne]
    exact outside d

/-- What the client of the session does. -/
theorem OneSession.session_client (splits : Splitting (w.file c)) (first : FirstTypeInPlace w c)
    (linked : s.respName = some q)
    (session : Session w c q (s.clients c) (s.children c) s.requests s.server (s.queues q))
    (outside : ∀ d, d ≠ c → Outside w d (s.clients d) (s.children d))
    (h : clientStep c s = some t) : OneSession w t := by
  generalize hc : s.clients c = client at session
  generalize hd : s.children c = child at session
  generalize hr : s.requests = requests at session
  generalize hs : s.server = server at session
  generalize hq : s.queues q = content at session
  have others : ∀ {u : State I} {client : Client I}, u.clients = s.clients →
      u.children = s.children → ∀ d, d ≠ c →
        Outside w d ((u.setClient c client).clients d) ((u.setClient c client).children d) := by
    intro u client clients children d ne
    rw [setClient_other u client ne, clients]
    change Outside w d (s.clients d) (u.children d)
    rw [children]
    exact outside d ne
  cases session with
  | opened =>
    simp only [clientStep, hc, hr] at h
    rw [List.length_nil, if_pos (by decide)] at h
    cases h
    refine .busy c q linked ?_ (others rfl rfl)
    rw [setClient_self]
    change Session w c q _ (s.children c) _ s.server (s.queues q)
    rw [hd, hs, hq]
    exact .queued
  | queued => simp [clientStep, hc, hq] at h
  | forking => simp [clientStep, hc, hq] at h
  | starting => simp [clientStep, hc, hq] at h
  | @serving resp received _ todo child split unfinished types stage =>
    cases content with
    | nil => simp [clientStep, hc, hq] at h
    | cons m rest =>
      simp only [clientStep, hc, hq, Option.some.injEq] at h
      subst h
      have shape : received ++ m :: (rest ++ todo.map (Tagged.mk c)) = tagged w c := by
        simpa using split
      refine .busy c q linked ?_ (others rfl rfl)
      rw [setClient_self]
      change Session w c q _ (s.children c) s.requests s.server ((s.setQueue q rest).queues q)
      rw [hd, hr, hs, setQueue_self]
      by_cases more : rest ++ todo.map (Tagged.mk c) = []
      · -- the last message ends the loop
        obtain ⟨rfl, empty⟩ := List.append_eq_nil_iff.mp more
        have todo_nil : todo = [] := List.map_eq_nil_iff.mp empty
        rw [more] at shape
        rw [if_neg (last_message splits shape resp).2, shape]
        apply Session.served
        rcases stage with rfl | ⟨-, done⟩
        · exact ⟨todo_nil, by simp⟩
        · exact done
      · obtain ⟨block, message, nonempty, fits, at_front⟩ := inner_message splits shape more
        have inPlace : TypeInPlace resp block.length := by
          rcases types with ⟨rfl, front⟩ | zero
          · obtain ⟨blocks, opened⟩ := at_front front
            exact first block blocks opened
          · exact zero.inPlace (List.length_pos_iff.mpr nonempty)
        obtain ⟨goes_on, zero⟩ := data_type nonempty fits inPlace
        rw [← message] at goes_on zero
        rw [if_pos goes_on]
        exact .serving (by simpa using split) more (Or.inr zero) stage
  | @served resp child quiet =>
    simp only [clientStep, hc, Option.some.injEq] at h
    subst h
    refine .idle rfl hr hs ?_
    intro d
    by_cases self : d = c
    · subst self
      rw [setClient_self]
      change Outside w d _ (s.children d)
      rw [hd]
      exact .done quiet
    · exact others rfl rfl d self

/-- What the main loop does with the request of the session. -/
theorem OneSession.session_server (linked : s.respName = some q)
    (session : Session w c q (s.clients c) (s.children c) s.requests s.server (s.queues q))
    (outside : ∀ d, d ≠ c → Outside w d (s.clients d) (s.children d))
    (h : serverStep w s = some t) : OneSession w t := by
  generalize hc : s.clients c = client at session
  generalize hd : s.children c = child at session
  generalize hr : s.requests = requests at session
  generalize hs : s.server = server at session
  generalize hq : s.queues q = content at session
  cases session with
  | opened => simp [serverStep, hs, hr] at h
  | queued =>
    simp only [serverStep, hs, hr, Option.some.injEq] at h
    subst h
    refine .busy c q linked ?_ outside
    change Session w c q (s.clients c) (s.children c) [] _ (s.queues q)
    rw [hc, hd, hq]
    exact .forking
  | forking =>
    simp only [serverStep, hs, Option.some.injEq] at h
    subst h
    refine .busy c q linked ?_ ?_
    · rw [setChild_self]
      change Session w c q (s.clients c) _ s.requests _ (s.queues q)
      rw [hc, hr, hq]
      exact .starting
    · intro d ne
      rw [setChild_other _ _ ne]
      exact outside d ne
  | starting => simp [serverStep, hs, hr] at h
  | serving => simp [serverStep, hs, hr] at h
  | served => simp [serverStep, hs, hr] at h

/-- What the child of the session does. -/
theorem OneSession.session_child (linked : s.respName = some q)
    (session : Session w c q (s.clients c) (s.children c) s.requests s.server (s.queues q))
    (outside : ∀ d, d ≠ c → Outside w d (s.clients d) (s.children d)) {child : Child}
    (here : s.children c = some child) (h : childStep w c child s = some t) :
    OneSession w t := by
  generalize hc : s.clients c = client at session
  generalize hr : s.requests = requests at session
  generalize hs : s.server = server at session
  generalize hq : s.queues q = content at session
  rw [here] at session
  have others : ∀ {u : State I} {child : Child}, u.clients = s.clients →
      u.children = s.children → ∀ d, d ≠ c →
        Outside w d ((u.setChild c child).clients d) ((u.setChild c child).children d) := by
    intro u child clients children d ne
    rw [setChild_other u child ne, children]
    change Outside w d (u.clients d) (s.children d)
    rw [clients]
    exact outside d ne
  have ends : ∀ {child' : Child} {linked' : Bool},
      Session w c q client (some child') requests server content →
      OneSession w ({ s with serverLinked := linked' }.setChild c child') := by
    intro child' linked' session'
    refine .busy c q linked ?_ (others rfl rfl)
    rw [setChild_self]
    change Session w c q (s.clients c) _ s.requests s.server (s.queues q)
    rw [hc, hr, hs, hq]
    exact session'
  cases session with
  | starting =>
    simp only [childStep, linked, Option.some.injEq] at h
    subst h
    refine ends (.serving rfl ?_ (Or.inl ⟨rfl, rfl⟩) (Or.inl rfl))
    simp [messages, serveRequest_ne_nil]
  | @serving resp received _ todo _ split unfinished types stage =>
    rcases stage with rfl | ⟨rfl, quiet⟩
    · cases todo with
      | nil =>
        simp only [childStep, Option.some.injEq] at h
        subst h
        exact ends (.serving split unfinished types (Or.inr ⟨rfl, rfl, by simp⟩))
      | cons m rest =>
        simp only [childStep] at h
        split at h
        · cases h
          refine .busy c q linked ?_ (others rfl rfl)
          rw [setChild_self]
          change Session w c q (s.clients c) _ s.requests s.server
            ((s.setQueue q (s.queues q ++ [⟨c, m⟩])).queues q)
          rw [hc, hr, hs, hq, setQueue_self]
          exact .serving (by simpa using split) (by simp) types (Or.inl rfl)
        · cases h
    · obtain ⟨child', linked', quiet', rfl⟩ := quiet.step h
      exact ends (.serving split unfinished types (Or.inr ⟨rfl, quiet'⟩))
  | served quiet =>
    obtain ⟨child', linked', quiet', rfl⟩ := quiet.step h
    exact ends (.served quiet')

/-- Step lemma: while no client opens the name when it is linked, there is at most one
session. -/
theorem OneSession.step (splits : ∀ c, Splitting (w.file c)) (first : ∀ c, FirstTypeInPlace w c)
    (one : OneSession w s) {act : Act I} (alone : OpensAlone act s)
    (h : next w act s = some t) : OneSession w t := by
  cases act with
  | client d =>
    cases one with
    | idle free requests server outside =>
      by_cases opens : (s.clients d).pc = .openResp
      · exact .opens free requests server outside opens h
      · exact (OneSession.idle free requests server outside).outside_client (outside d) opens h
    | busy c q linked session outside =>
      by_cases self : d = c
      · subst self
        exact .session_client (splits d) (first d) linked session outside h
      · refine (OneSession.busy c q linked session outside).outside_client (outside d self) ?_ h
        intro opens
        rw [alone opens] at linked
        cases linked
  | server =>
    cases one with
    | idle free requests server outside =>
      simp only [next, serverStep, server, requests] at h
      cases h
    | busy c q linked session outside => exact .session_server linked session outside h
  | child d =>
    obtain ⟨child, here, step⟩ := Option.bind_eq_some_iff.mp h
    cases one with
    | idle free requests server outside =>
      exact (OneSession.idle free requests server outside).outside_child (outside d) here step
    | busy c q linked session outside =>
      by_cases self : d = c
      · subst self
        exact .session_child linked session outside here step
      · exact (OneSession.busy c q linked session outside).outside_child (outside d self) here step

omit [DecidableEq I] in
theorem OneSession.start : OneSession w (State.initial w) :=
  .idle rfl rfl rfl (fun _ => .before (Or.inl rfl))

end

/-! ## Every client gets its own messages -/

/-- The last message received is the RESP_MT_END or RESP_MT_FAILURE of the client's own
request. -/
def Ended (s : State I) (c : I) : Prop :=
  ∃ m, (s.clients c).received.getLast? = some m ∧ m.sender = c ∧ m.message.mtype ≠ RESP_MT_DATA

section
variable {w : World I} {s t : State I} {c : I}

omit [DecidableEq I] in
theorem Outside.received {client : Client I} {child : Option Child}
    (outside : Outside w c client child) : client.received <+: tagged w c ∧
      (client.pc = .exiting ∨ client.pc = .exited → client.received = tagged w c) ∧
      ¬ (client.pc = .send ∨ client.pc = .recv) := by
  cases outside with
  | before early =>
    refine ⟨List.nil_prefix, ?_, ?_⟩ <;> rcases early with rfl | rfl | rfl <;> simp
  | done => exact ⟨List.prefix_rfl, fun _ => rfl, by simp⟩

omit [DecidableEq I] in
theorem Session.received {client : Client I} {child : Option Child} {requests : List I}
    {server : ServerPc I} {content : List (Tagged I)} {q : Nat}
    (session : Session w c q client child requests server content) :
    client.received <+: tagged w c ∧
      (client.pc = .exiting ∨ client.pc = .exited → client.received = tagged w c) := by
  cases session with
  | opened | queued | forking | starting => exact ⟨List.nil_prefix, by simp⟩
  | served => exact ⟨List.prefix_rfl, fun _ => rfl⟩
  | serving split =>
    refine ⟨?_, by simp⟩
    rw [← split, List.append_assoc]
    exact List.prefix_append _ _

/-- A client has received its own messages in order, and all of them once it has left
the loop. -/
theorem OneSession.received (one : OneSession w s) (c : I) :
    (s.clients c).received <+: tagged w c ∧
      ((s.clients c).pc = .exiting ∨ (s.clients c).pc = .exited →
        (s.clients c).received = tagged w c) := by
  cases one with
  | idle _ _ _ outside => exact ⟨(outside c).received.1, (outside c).received.2.1⟩
  | busy d q _ session outside =>
    by_cases self : c = d
    · subst self
      exact session.received
    · exact ⟨(outside c self).received.1, (outside c self).received.2.1⟩

omit [DecidableEq I] in
theorem ended_of_all (splits : Splitting (w.file c)) (all : (s.clients c).received = tagged w c) :
    Ended s c := by
  have nonempty : tagged w c ≠ [] := by simp [tagged, messages, serveRequest_ne_nil]
  obtain ⟨front, m, shape⟩ := (List.eq_nil_or_concat (tagged w c)).resolve_left nonempty
  rw [List.concat_eq_append] at shape
  refine ⟨m, ?_, ?_, (last_message splits shape.symm (w.clientResp c)).1⟩
  · rw [all, shape, List.getLast?_concat]
  · exact tagged_own (w := w) (by simp [shape])

/-- The steps that the child of a client has still to take, and those up to its fork. -/
def childWork (w : World I) (c : I) : Option Child → Nat
  | none => 3 + 2 * (messages w c).length
  | some child => (if child.pc = .openResp then 1 else 0) + 2 * child.todo.length

/-- The messages that wait for a client. -/
def State.waiting (s : State I) (c : I) : List (Tagged I) :=
  match (s.clients c).clientId with
  | none => []
  | some q => s.queues q

/-- A bound on the work that is left in the session of a client. -/
def State.work (w : World I) (c : I) (s : State I) : Nat :=
  (if (s.clients c).pc = .send then 3 else 0) + 2 * s.requests.length +
    (if s.server = .receive then 0 else 1) + childWork w c (s.children c) + (s.waiting c).length

/-- While a client waits for messages, somebody in its session can take a step. -/
theorem OneSession.progress (one : OneSession w s)
    (waits : (s.clients c).pc = .send ∨ (s.clients c).pc = .recv) :
    ∃ act t, OpensAlone act s ∧ next w act s = some t ∧ t.work w c < s.work w c ∧
      ((t.clients c).pc = .recv ∨ (t.clients c).pc = .exiting) := by
  have not_outside : ¬ Outside w c (s.clients c) (s.children c) := fun outside =>
    outside.received.2.2 waits
  cases one with
  | idle _ _ _ outside => exact absurd (outside c) not_outside
  | busy d q linked session outside =>
    by_cases self : c = d
    · subst self
      generalize hc : s.clients c = client at session
      generalize hd : s.children c = child at session
      generalize hr : s.requests = requests at session
      generalize hs : s.server = server at session
      generalize hq : s.queues q = content at session
      cases session with
      | opened =>
        have step : next w (.client c) s = some ({ s with requests := s.requests ++ [c] }.setClient c
            ⟨.recv, w.clientResp c, some q, []⟩) := by
          simp [next, clientStep, hc, hr, MAXMSG]
        refine ⟨.client c, _, by simp [OpensAlone, hc], step, ?_, by simp⟩
        simp [State.work, State.waiting, childWork, State.setClient, hc, hd, hr, hs, hq]
      | queued =>
        have step : next w .server s = some { s with requests := [], server := .fork c } := by
          simp [next, serverStep, hs, hr]
        refine ⟨.server, _, trivial, step, ?_, by simp [hc]⟩
        simp [State.work, State.waiting, childWork, hc, hd, hr, hs, hq]
      | forking =>
        have step : next w .server s = some ({ s with server := .receive }.setChild c
            ⟨.openResp, none, messages w c⟩) := by
          simp [next, serverStep, hs, messages]
        refine ⟨.server, _, trivial, step, ?_, by simp [hc, State.setChild]⟩
        simp [State.work, State.waiting, childWork, State.setChild, hc, hd, hr, hs, hq]
      | starting =>
        have step : next w (.child c) s = some (s.setChild c ⟨.serve, some q, messages w c⟩) := by
          simp [next, childStep, hd, linked]
        refine ⟨.child c, _, trivial, step, ?_, by simp [hc, State.setChild]⟩
        simp [State.work, State.waiting, childWork, State.setChild, hc, hd, hr, hs, hq]
      | @serving resp received _ todo child split unfinished types stage =>
        cases content with
        | nil =>
          -- nothing has arrived yet, so the child has still to send
          obtain ⟨m, rest, rfl⟩ : ∃ m rest, todo = m :: rest := by
            cases todo with
            | nil => exact absurd rfl unfinished
            | cons m rest => exact ⟨m, rest, rfl⟩
          obtain rfl : child = ⟨.serve, some q, m :: rest⟩ := by
            rcases stage with same | ⟨empty, -⟩
            · exact same
            · cases empty
          have step : next w (.child c) s =
              some ((s.setQueue q [⟨c, m⟩]).setChild c ⟨.serve, some q, rest⟩) := by
            simp [next, childStep, hd, hq, MAXMSG]
          refine ⟨.child c, _, trivial, step, ?_, by simp [hc, State.setChild, State.setQueue]⟩
          simp [State.work, State.waiting, childWork, State.setChild, State.setQueue, hc, hd, hr,
            hs, hq]
          omega
        | cons m rest =>
          have step : next w (.client c) s = some ((s.setQueue q rest).setClient c
              ⟨if mtype (mqReceive resp m.message.wire) = RESP_MT_DATA then .recv else .exiting,
                mqReceive resp m.message.wire, some q, received ++ [m]⟩) := by
            simp [next, clientStep, hc, hq]
          refine ⟨.client c, _, by simp [OpensAlone, hc], step, ?_, ?_⟩
          · by_cases goes_on : mtype (mqReceive resp m.message.wire) = RESP_MT_DATA
            · simp [State.work, State.waiting, childWork, State.setClient, State.setQueue, hc, hd,
                hr, hs, hq, goes_on]
            · simp [State.work, State.waiting, childWork, State.setClient, State.setQueue, hc, hd,
                hr, hs, hq, goes_on]
          · rw [setClient_self]
            split
            · exact Or.inl rfl
            · exact Or.inr rfl
      | served => rw [hc] at waits; simp at waits
    · exact absurd (outside c self) not_outside

/-- Run lemma: the session of a client comes to its end. -/
theorem OneSession.finishes (splits : ∀ c, Splitting (w.file c))
    (first : ∀ c, FirstTypeInPlace w c) (c : I) (n : Nat) :
    ∀ s : State I, OneSession w s → s.work w c ≤ n →
      ((s.clients c).pc = .send ∨ (s.clients c).pc = .recv) →
        ∃ t, ((fileService w).restrict OpensAlone).Run s t ∧ OneSession w t ∧
          (t.clients c).pc = .exiting := by
  induction n with
  | zero =>
    intro s one bound waits
    obtain ⟨act, t, -, -, less, -⟩ := one.progress waits
    omega
  | succ n ih =>
    intro s one bound waits
    obtain ⟨act, t, alone, step, less, after⟩ := one.progress waits
    have move : ((fileService w).restrict OpensAlone).step act s t := ⟨alone, step⟩
    have one' := one.step splits first alone step
    rcases after with recv | exiting
    · obtain ⟨u, run, one'', done⟩ := ih t one' (by omega) (Or.inr recv)
      exact ⟨u, Run.cons move run, one'', done⟩
    · exact ⟨t, Run.snoc (Run.refl s) move, one', exiting⟩

/-- As long as no client opens "/MSG12" while it is linked, every response that a client
receives is its own, a client leaves the loop with the last message of its own request,
and a client that has opened the queue gets there. -/
theorem isolated_when_alone (splits : ∀ c, Splitting (w.file c))
    (first : ∀ c, FirstTypeInPlace w c)
    (reach : ((fileService w).restrict OpensAlone).Reachable s) (c : I) :
    (∀ m ∈ (s.clients c).received, m.sender = c) ∧
      ((s.clients c).pc = .exiting ∨ (s.clients c).pc = .exited → Ended s c) ∧
      ((s.clients c).pc = .send ∨ (s.clients c).pc = .recv →
        ∃ t, ((fileService w).restrict OpensAlone).Run s t ∧ Ended t c) := by
  have one : OneSession w s := by
    refine reach.invariant ?_ ?_
    · rintro r rfl
      exact .start
    · rintro act r t one ⟨alone, step⟩
      exact one.step splits first alone step
  refine ⟨?_, ?_, ?_⟩
  · intro m member
    exact tagged_own ((one.received c).1.subset member)
  · intro left
    exact ended_of_all (splits c) ((one.received c).2 left)
  · intro waits
    obtain ⟨t, run, one', exiting⟩ :=
      OneSession.finishes splits first c (s.work w c) s one (Nat.le_refl _) waits
    exact ⟨t, run, ended_of_all (splits c) ((one'.received c).2 (Or.inl exiting))⟩

end

/-! ## Two clients at a time -/

instance (act : Act I) (s : State I) : Decidable (OpensAlone act s) :=
  match act with
  | .client c => inferInstanceAs (Decidable ((s.clients c).pc = .openResp → s.respName = none))
  | .server => inferInstanceAs (Decidable True)
  | .child _ => inferInstanceAs (Decidable True)

/-- One client asks for a file of two bytes, the other one for one that cannot be opened. -/
private def oneFile : World Bool where
  file c := if c then some [[104, 105]] else none
  clientResp _ := Buffer.zero _
  childResp _ := Buffer.zero _

private def oneServed : List (Act Bool) :=
  [.client true, .client true, .client true, .server, .server, .child true, .child true,
    .client true, .child true, .client true]

theorem first_client_gets_its_file :
    ∃ s : State Bool, ((s.clients true).pc = .exiting ∧ (s.clients true).received.length = 2) ∧
      Ended s true := by
  have run : (follow (guarded OpensAlone (next oneFile)) oneServed (State.initial oneFile)).map
      (fun s => ((s.clients true).pc, (s.clients true).received.length)) = some (.exiting, 2) := by
    decide +kernel
  obtain ⟨s, hs, facts⟩ := Option.map_eq_some_iff.mp run
  obtain ⟨pc, length⟩ := Prod.mk.inj facts
  have splits : ∀ c, Splitting (oneFile.file c) := by
    rintro (_ | _) blocks opened
    · cases opened
    · cases opened
      decide
  have first : ∀ c, FirstTypeInPlace oneFile c := by
    rintro (_ | _) block rest opened
    · cases opened
    · cases opened
      unfold TypeInPlace
      decide +kernel
  have reach := (Reachable.initial (T := (fileService oneFile).restrict OpensAlone) rfl).run
    (follow_guarded_run hs)
  exact ⟨s, ⟨pc, length⟩, (isolated_when_alone splits first reach true).2.1 (Or.inl pc)⟩

/-- Two clients ask for files that cannot be opened. -/
private def bothMissing : World Bool where
  file _ := none
  clientResp _ := Buffer.zero _
  childResp _ := Buffer.zero _

/-- The failure message for one of the clients goes to the other one, which then unlinks
the queue. Its own child finds no queue, and the first client waits for ever. -/
theorem failure_goes_to_the_other_client :
    ∃ s, (fileService bothMissing).Reachable s ∧
      (s.clients true).received.map Tagged.sender = [false] ∧
      (s.clients false).received.map Tagged.sender = [] ∧ (fileService bothMissing).Stuck s := by
  have run : (follow (next bothMissing)
      [.client false, .client true, .client false, .client true, .client false, .client true,
        .server, .server, .child false, .child false, .client true, .client true, .server, .server,
        .child true, .child true, .child true, .child true, .child false, .child false]
      (State.initial bothMissing)).map
        (fun s => ((s.clients true).received.map Tagged.sender,
          (s.clients false).received.map Tagged.sender,
          [Act.client false, .client true, .server, .child false, .child true].map
            (fun act => (next bothMissing act s).isNone))) =
      some ([false], [], [true, true, true, true, true]) := by
    decide +kernel
  obtain ⟨s, hs, facts⟩ := Option.map_eq_some_iff.mp run
  obtain ⟨received, rest⟩ := Prod.mk.inj facts
  obtain ⟨nothing, stuck⟩ := Prod.mk.inj rest
  refine ⟨s, (Reachable.initial rfl).run (follow_run hs), received, nothing, ?_⟩
  simp only [List.map_cons, List.map_nil, List.cons.injEq, Option.isNone_iff_eq_none,
    and_true] at stuck
  obtain ⟨client_false, client_true, server, child_false, child_true⟩ := stuck
  intro act t step
  have impossible : next bothMissing act s ≠ none := by
    intro none
    have moves : next bothMissing act s = some t := step
    rw [none] at moves
    cases moves
  apply impossible
  cases act with
  | client c =>
    cases c
    · exact client_false
    · exact client_true
  | server => exact server
  | child c =>
    cases c
    · exact child_false
    · exact child_true

end FileServer
