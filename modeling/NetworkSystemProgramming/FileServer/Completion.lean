import NetworkSystemProgramming.FileServer.Isolation
import NetworkSystemProgramming.FileServer.Reaper
import Mathlib.Algebra.BigOperators.Group.Finset.Basic
import Mathlib.Algebra.Order.BigOperators.Group.Finset
import Mathlib.Algebra.Order.Group.Nat
import Mathlib.Algebra.Ring.Nat

/-!
# The file service comes to an end

Every step of a client, of the server or of a child uses up something: a statement, a
request, a message to send or a message to receive. So every run of finitely many clients
ends; and when no client opens "/MSG12" while it is linked, it ends with every client
served or refused.
-/

namespace FileServer

open ByteBuffers StepSystems StepSystem

variable {I : Type} [DecidableEq I]

/-! ## What is left to do -/

/-- A bound on the steps from the request of `c` to the end of its child. -/
def requestWork (w : World I) (c : I) : Nat := 5 + (messages w c).length

def ClientPc.left (request : Nat) : ClientPc → Nat
  | .openServer => request + 5
  | .openResp => request + 4
  | .send => request + 3
  | .recv => 2
  | .exiting => 1
  | .exited | .refused => 0

def ServerPc.left (w : World I) : ServerPc I → Nat
  | .receive => 0
  | .fork c => requestWork w c - 1

def ChildPc.left : ChildPc → Nat
  | .openResp => 3
  | .serve => 2
  | .exiting => 1
  | .exited => 0

def childLeft : Option Child → Nat
  | none => 0
  | some child => child.pc.left + child.todo.length

/-- What a client and its child have left, without the messages that wait. -/
def State.ownLeft (w : World I) (s : State I) (c : I) : Nat :=
  (s.clients c).pc.left (requestWork w c) + childLeft (s.children c)

def State.shared (w : World I) (s : State I) : Nat :=
  (s.requests.map (requestWork w)).sum + s.server.left w

/-- The statements that are left, and the messages that the clients find. -/
def State.left [Fintype I] (w : World I) (s : State I) : Nat × Nat :=
  (∑ c, s.ownLeft w c + s.shared w, ∑ c, (s.waiting c).length)

section
variable {w : World I} {s t : State I} {c : I}

theorem sum_change [Fintype I] {f g : I → Nat} (c : I) (same : ∀ d, d ≠ c → g d = f d) :
    ∑ d, g d + f c = ∑ d, f d + g c := by
  have others : ∑ d ∈ Finset.univ.erase c, g d = ∑ d ∈ Finset.univ.erase c, f d :=
    Finset.sum_congr rfl fun d member => same d (Finset.ne_of_mem_erase member)
  have whole := Finset.add_sum_erase Finset.univ f (Finset.mem_univ c)
  have whole' := Finset.add_sum_erase Finset.univ g (Finset.mem_univ c)
  omega

/-- A step that takes something away from a client, its child and what all share. -/
theorem left_of_own [Fintype I] (same : ∀ d, d ≠ c → t.ownLeft w d = s.ownLeft w d)
    (less : t.ownLeft w c + t.shared w < s.ownLeft w c + s.shared w) :
    (t.left w).1 < (s.left w).1 := by
  have change := sum_change (f := s.ownLeft w) (g := t.ownLeft w) c same
  simp only [State.left]
  omega

omit [DecidableEq I] in
theorem ownLeft_of_same (client : t.clients c = s.clients c) (child : t.children c = s.children c) :
    t.ownLeft w c = s.ownLeft w c := by
  rw [State.ownLeft, client, child, State.ownLeft]

theorem ownLeft_setClient (u : State I) (client : Client I) :
    (u.setClient c client).ownLeft w c =
      client.pc.left (requestWork w c) + childLeft (u.children c) := by
  rw [State.ownLeft, setClient_self]
  rfl

theorem ownLeft_setChild (u : State I) (child : Child) :
    (u.setChild c child).ownLeft w c =
      (u.clients c).pc.left (requestWork w c) + (child.pc.left + child.todo.length) := by
  rw [State.ownLeft, setChild_self]
  rfl

/-- A client that goes on, and perhaps leaves a request. -/
theorem left_of_client [Fintype I] {u : State I} {client : Client I}
    (clients : u.clients = s.clients) (children : u.children = s.children)
    (less : client.pc.left (requestWork w c) + u.shared w <
      (s.clients c).pc.left (requestWork w c) + s.shared w) :
    ((u.setClient c client).left w).1 < (s.left w).1 := by
  refine left_of_own (c := c) ?_ ?_
  · intro d other
    refine ownLeft_of_same ?_ (congrFun children d)
    rw [setClient_other u client other, clients]
  · rw [ownLeft_setClient, children, State.ownLeft]
    change _ + u.shared w < _
    omega

theorem left_of_child [Fintype I] {u : State I} {child child' : Child}
    (clients : u.clients = s.clients) (children : u.children = s.children)
    (requests : u.requests = s.requests) (server : u.server = s.server)
    (here : s.children c = some child)
    (less : child'.pc.left + child'.todo.length < child.pc.left + child.todo.length) :
    ((u.setChild c child').left w).1 < (s.left w).1 := by
  refine left_of_own (c := c) ?_ ?_
  · intro d other
    refine ownLeft_of_same (congrFun clients d) ?_
    rw [setChild_other u child' other, children]
  · have shared : (u.setChild c child').shared w = s.shared w := by
      change (u.requests.map (requestWork w)).sum + u.server.left w = s.shared w
      rw [requests, server, State.shared]
    rw [ownLeft_setChild, clients, shared, State.ownLeft, here, childLeft]
    omega

/-- A message that is received waits no longer, and for nobody else either. -/
theorem waiting_received {q : Nat} {m : Tagged I} {rest : List (Tagged I)} {client : Client I}
    (own : (s.clients c).clientId = some q) (own' : client.clientId = some q)
    (content : s.queues q = m :: rest) (d : I) :
    (((s.setQueue q rest).setClient c client).waiting d).length ≤ (s.waiting d).length ∧
      (d = c → (((s.setQueue q rest).setClient c client).waiting d).length <
        (s.waiting d).length) := by
  have same : (((s.setQueue q rest).setClient c client).clients d).clientId =
      (s.clients d).clientId := by
    by_cases self : d = c
    · rw [self, setClient_self, own, own']
    · rw [setClient_other _ client self]
      rfl
  have shorter (r : Nat) : (((s.setQueue q rest).setClient c client).queues r).length ≤
      (s.queues r).length := by
    change (Function.update s.queues q rest r).length ≤ _
    by_cases here : r = q
    · rw [here, Function.update_self, content]
      exact Nat.le_succ _
    · rw [Function.update_of_ne here]
  constructor
  · rw [State.waiting, State.waiting, same]
    cases (s.clients d).clientId with
    | none => exact Nat.le_refl _
    | some r => exact shorter r
  · rintro rfl
    rw [State.waiting, State.waiting, same, own]
    change (Function.update s.queues q rest q).length < (s.queues q).length
    rw [Function.update_self, content]
    exact Nat.lt_succ_self _

theorem clientStep_left [Fintype I] (step : clientStep c s = some t) :
    Prod.Lex (· < ·) (· < ·) (t.left w) (s.left w) := by
  cases pc : (s.clients c).pc with
  | openServer =>
    simp only [clientStep, pc] at step
    cases step
    refine Prod.Lex.left _ _ (left_of_client rfl rfl ?_)
    rw [pc]
    split <;> simp [ClientPc.left]
  | openResp =>
    simp only [clientStep, pc] at step
    split at step <;> cases step
    · exact Prod.Lex.left _ _ (left_of_client rfl rfl (by simp [pc, ClientPc.left]))
    · refine Prod.Lex.left _ _ (left_of_client rfl rfl ?_)
      rw [pc]
      change requestWork w c + 3 + s.shared w < requestWork w c + 4 + s.shared w
      omega
  | send =>
    simp only [clientStep, pc] at step
    split at step <;> cases step
    refine Prod.Lex.left _ _ (left_of_client rfl rfl ?_)
    simp only [pc, ClientPc.left, State.shared, List.map_append, List.map_cons, List.map_nil,
      List.sum_append, List.sum_cons, List.sum_nil]
    omega
  | recv =>
    simp only [clientStep, pc] at step
    split at step
    · cases step
    · rename_i q own
      split at step <;> cases step
      rename_i m rest content
      by_cases goes_on : mtype (mqReceive (s.clients c).resp m.message.wire) = RESP_MT_DATA
      · -- only the message is used up
        let client : Client I := { s.clients c with
          resp := mqReceive (s.clients c).resp m.message.wire
          received := (s.clients c).received ++ [m] }
        have first : (((s.setQueue q rest).setClient c client).left w).1 = (s.left w).1 := by
          change ∑ d, ((s.setQueue q rest).setClient c client).ownLeft w d + s.shared w = _
          have same : ((s.setQueue q rest).setClient c client).ownLeft w = s.ownLeft w := by
            funext d
            by_cases self : d = c
            · rw [self, ownLeft_setClient]
              rfl
            · exact ownLeft_of_same (setClient_other _ client self) rfl
          rw [same]
          rfl
        have own' : client.clientId = some q := own
        have less : (((s.setQueue q rest).setClient c client).left w).2 < (s.left w).2 :=
          Finset.sum_lt_sum (fun d _ => (waiting_received own own' content d).1)
            ⟨c, Finset.mem_univ c, (waiting_received own own' content c).2 rfl⟩
        have there : { s.clients c with
            pc := if mtype (mqReceive (s.clients c).resp m.message.wire) = RESP_MT_DATA
              then ClientPc.recv else ClientPc.exiting
            resp := mqReceive (s.clients c).resp m.message.wire
            received := (s.clients c).received ++ [m] } = client := by
          rw [if_pos goes_on, ← pc]
        rw [there]
        change Prod.Lex _ _ ((_ : Nat), (_ : Nat)) ((s.left w).1, (s.left w).2)
        rw [← first]
        exact Prod.Lex.right _ less
      · refine Prod.Lex.left _ _ (left_of_client rfl rfl ?_)
        rw [pc, if_neg goes_on]
        exact Nat.add_lt_add_right (Nat.lt_succ_self 1) (s.shared w)
  | exiting =>
    simp only [clientStep, pc] at step
    cases step
    refine Prod.Lex.left _ _ (left_of_client rfl rfl ?_)
    rw [pc]
    exact Nat.add_lt_add_right Nat.zero_lt_one (s.shared w)
  | exited | refused => simp [clientStep, pc] at step

theorem serverStep_left [Fintype I] (step : serverStep w s = some t) :
    (t.left w).1 < (s.left w).1 := by
  cases pc : s.server with
  | receive =>
    simp only [serverStep, pc] at step
    split at step <;> cases step
    rename_i c rest requests
    refine left_of_own (c := c) (fun _ _ => rfl) ?_
    change s.ownLeft w c + ((rest.map (requestWork w)).sum + (requestWork w c - 1)) < _
    rw [State.shared, requests, pc, List.map_cons, List.sum_cons]
    simp only [ServerPc.left, requestWork]
    omega
  | fork c =>
    simp only [serverStep, pc] at step
    cases step
    refine left_of_own (c := c) ?_ ?_
    · intro d other
      exact ownLeft_of_same rfl (setChild_other _ _ other)
    · rw [ownLeft_setChild]
      change (s.clients c).pc.left _ + (3 + (messages w c).length) +
        ((s.requests.map (requestWork w)).sum + 0) < _
      rw [State.ownLeft, State.shared, pc]
      simp only [ServerPc.left, requestWork]
      omega

theorem childStep_left [Fintype I] {child : Child} (here : s.children c = some child)
    (step : childStep w c child s = some t) : (t.left w).1 < (s.left w).1 := by
  cases pc : child.pc with
  | openResp =>
    simp only [childStep, pc] at step
    cases step
    exact left_of_child rfl rfl rfl rfl here (by simp only [pc, ChildPc.left]; omega)
  | serve =>
    simp only [childStep, pc] at step
    split at step
    · rename_i empty
      cases step
      exact left_of_child rfl rfl rfl rfl here (by simp only [pc, ChildPc.left]; omega)
    · rename_i m rest todo
      split at step
      · cases step
        refine left_of_child rfl rfl rfl rfl here ?_
        have shorter := (List.dropWhile_suffix (l := rest) (·.mtype = RESP_MT_DATA)).length_le
        simp only [pc, todo, ChildPc.left, List.length_cons]
        omega
      · split at step <;> cases step
        refine left_of_child rfl rfl rfl rfl here ?_
        simp only [pc, todo, ChildPc.left, List.length_cons]
        omega
  | exiting =>
    simp only [childStep, pc] at step
    cases step
    exact left_of_child rfl rfl rfl rfl here (by simp only [pc, ChildPc.left]; omega)
  | exited => simp [childStep, pc] at step

theorem next_left [Fintype I] {act : Act I} (step : next w act s = some t) :
    Prod.Lex (· < ·) (· < ·) (t.left w) (s.left w) := by
  cases act with
  | client c => exact clientStep_left step
  | server => exact Prod.Lex.left _ _ (serverStep_left step)
  | child c =>
    obtain ⟨child, here, step⟩ := Option.bind_eq_some_iff.mp step
    exact Prod.Lex.left _ _ (childStep_left here step)

/-! ## Somebody can go on -/

/-- A client at its end: refused, or with all its messages. -/
def Over (w : World I) (s : State I) (c : I) : Prop :=
  (s.clients c).pc = .refused ∨
    (s.clients c).pc = .exited ∧ (s.clients c).received = tagged w c

/-- A client that does not use the response queue can go on, unless it waits for the name. -/
theorem Outside.moves (outside : Outside w c (s.clients c) (s.children c))
    (free : s.respName = none) (under_way : ¬ Over w s c) :
    ∃ t, OpensAlone (.client c) s ∧ next w (.client c) s = some t := by
  generalize here : s.clients c = client at outside
  generalize s.children c = child at outside
  cases outside with
  | done => exact absurd (Or.inr (by simp [here])) under_way
  | before early =>
    rcases early with rfl | rfl | rfl
    · exact ⟨_, fun _ => free, by simp only [next, clientStep, here]; exact rfl⟩
    · exact ⟨_, fun _ => free, by simp only [next, clientStep, here, free]; exact rfl⟩
    · exact absurd (Or.inl (by simp [here])) under_way

theorem OneSession.moves (one : OneSession w s) (under_way : ¬ ∀ c, Over w s c) :
    ∃ act t, ((fileService w).restrict OpensAlone).step act s t := by
  cases one with
  | idle free requests server outside =>
    obtain ⟨c, under_way⟩ := not_forall.mp under_way
    obtain ⟨t, alone, step⟩ := (outside c).moves free under_way
    exact ⟨.client c, t, alone, step⟩
  | busy c q linked session outside =>
    have one : OneSession w s := .busy c q linked session outside
    by_cases waits : (s.clients c).pc = .send ∨ (s.clients c).pc = .recv
    · obtain ⟨act, t, alone, step, -⟩ := one.progress waits
      exact ⟨act, t, alone, step⟩
    · have exiting : (s.clients c).pc = .exiting := by
        generalize s.clients c = client at session waits
        generalize s.children c = child at session
        generalize s.requests = requests at session
        generalize s.server = server at session
        generalize s.queues q = content at session
        cases session with
        | served => rfl
        | opened | queued | forking | starting | serving => simp at waits
      refine ⟨.client c, _, ?_, by
        change clientStep c s = some _
        simp only [clientStep, exiting]
        exact rfl⟩
      intro opens
      rw [exiting] at opens
      cases opens

/-! ## Nobody is refused for nothing -/

/-- The server queue stays linked, and so no client is refused. -/
structure Admitting (s : State I) : Prop where
  linked : s.serverLinked = true
  admitted : ∀ c, (s.clients c).pc ≠ .refused

theorem clientStep_admitting {d : I} (step : clientStep d s = some t) (admitting : Admitting s) :
    Admitting t := by
  refine ⟨(clientStep_frame step).2.trans admitting.linked, ?_⟩
  have own : (t.clients d).pc ≠ .refused ∧ ∀ c, c ≠ d → t.clients c = s.clients c := by
    cases pc : (s.clients d).pc with
    | openServer =>
      simp only [clientStep, pc, admitting.linked, if_true] at step
      cases step
      exact ⟨by simp, fun c other => setClient_other _ _ other⟩
    | openResp =>
      simp only [clientStep, pc] at step
      split at step <;> cases step
      · exact ⟨by simp, fun c other => setClient_other _ _ other⟩
      · exact ⟨by simp, fun c other => setClient_other _ _ other⟩
    | send =>
      simp only [clientStep, pc] at step
      split at step <;> cases step
      exact ⟨by simp, fun c other => setClient_other _ _ other⟩
    | recv =>
      simp only [clientStep, pc] at step
      split at step
      · cases step
      · split at step <;> cases step
        refine ⟨?_, fun c other => setClient_other _ _ other⟩
        rw [setClient_self]
        split <;> simp
    | exiting =>
      simp only [clientStep, pc] at step
      cases step
      exact ⟨by simp, fun c other => setClient_other _ _ other⟩
    | exited | refused => simp [clientStep, pc] at step
  intro c
  by_cases self : c = d
  · rw [self]
    exact own.1
  · rw [own.2 c self]
    exact admitting.admitted c

theorem next_admitting {act : Act I} (openable : ∀ c, (w.file c).isSome)
    (step : next w act s = some t) (admitting : Admitting s) : Admitting t := by
  have kept (clients : t.clients = s.clients) (linked : t.serverLinked = s.serverLinked) :
      Admitting t := by
    refine ⟨linked.trans admitting.linked, ?_⟩
    rw [clients]
    exact admitting.admitted
  cases act with
  | client d => exact clientStep_admitting step admitting
  | server =>
    refine kept ?_ (serverStep_frame step).1
    simp only [next, serverStep] at step
    split at step
    · split at step <;> cases step
      rfl
    · cases step
      rfl
  | child d =>
    obtain ⟨child, -, step⟩ := Option.bind_eq_some_iff.mp step
    obtain ⟨child', -, clients, -⟩ := childStep_place step
    refine kept clients ?_
    rcases (childStep_frame step).2 with same | missing
    · exact same
    · exact absurd (openable d) (by simp [missing])

/-- A client is refused only when some file cannot be opened. -/
theorem refused_for_missing (reach : (fileService w).Reachable s)
    (refused : (s.clients c).pc = .refused) : ∃ d, w.file d = none := by
  by_contra noneMissing
  have openable : ∀ d, (w.file d).isSome := by
    intro d
    by_contra missing
    exact noneMissing ⟨d, Option.not_isSome_iff_eq_none.mp missing⟩
  have admitting : Admitting s := by
    refine reach.invariant ?_ fun act r t admitting step => next_admitting openable step admitting
    rintro _ rfl
    exact ⟨rfl, by simp [State.initial]⟩
  exact admitting.admitted c refused

/-- When the clients open "/MSG12" one at a time, the service comes to an end, whatever the
order of the steps. Then every client has received all messages for its own request and no
others, but for those that a missing file has shut out. -/
theorem clients_come_to_an_end [Fintype I] (splits : ∀ c, Splitting (w.file c))
    (first : ∀ c, FirstTypeInPlace w c)
    (reach : ((fileService w).restrict OpensAlone).Reachable s) :
    Inevitable ((fileService w).restrict OpensAlone)
      (fun t : State I => ∀ c,
        (t.clients c).pc = .exited ∧
          (t.clients c).received = (messagesFor (w.file c)).map (Tagged.mk c) ∨
        (t.clients c).pc = .refused ∧ ∃ d, w.file d = none) s := by
  have start : OneSession w s := by
    refine reach.invariant ?_ ?_
    · rintro r rfl
      exact .start
    · rintro act r t one ⟨alone, step⟩
      exact one.step splits first alone step
  have finished : Inevitable ((fileService w).restrict OpensAlone)
      (fun t : State I => ∀ c, Over w t c) s := by
    refine Inevitable.of_measure (OneSession w) (Prod.lex Nat.lt_wfRel Nat.lt_wfRel).wf
      (State.left w) ?_ ?_ s start
    · exact fun t one under_way => one.moves under_way
    · rintro act r t one ⟨alone, step⟩
      exact ⟨one.step splits first alone step, next_left step⟩
  refine finished.mono ?_
  intro t run ended c
  rcases ended c with refused | ⟨exited, received⟩
  · have known : (fileService w).Reachable t := restrict_reachable (reach.run run)
    exact Or.inr ⟨refused, refused_for_missing known refused⟩
  · refine Or.inl ⟨exited, ?_⟩
    rw [received, tagged, messages, serveRequest_eq (splits c)]

end

/-- One client asks for a file of two bytes, the other one for a file that is not there. -/
private def oneMissing : World Bool where
  file c := if c then some [[104, 105]] else none
  clientResp _ := Buffer.zero _
  childResp _ := Buffer.zero _

theorem one_client_gets_its_file :
    Inevitable ((fileService oneMissing).restrict OpensAlone)
      (fun t : State Bool => ∀ c,
        (t.clients c).pc = .exited ∧
          (t.clients c).received = (messagesFor (oneMissing.file c)).map (Tagged.mk c) ∨
        (t.clients c).pc = .refused ∧ ∃ d, oneMissing.file d = none) (State.initial oneMissing) := by
  refine clients_come_to_an_end ?_ ?_ (Reachable.initial rfl)
  · intro c blocks opened block member
    cases c with
    | false => cases opened
    | true =>
      cases opened
      rw [List.mem_singleton.mp member]
      decide
  · intro c block rest opened
    cases c with
    | false => cases opened
    | true =>
      cases opened
      unfold TypeInPlace
      decide +kernel

end FileServer
