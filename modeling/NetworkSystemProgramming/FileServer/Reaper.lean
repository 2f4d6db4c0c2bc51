import NetworkSystemProgramming.ChildProcesses
import NetworkSystemProgramming.FileServer.ServerQueue

/-!
# The handler for SIGCHLD of the file server

`grimReaper` of `svmsg_file_server.c` may interrupt the main loop between any two
statements, also between a failed `mq_receive` and the test of `errno`. While it runs the
signal is blocked. A child leaves its exit status to be collected.
-/

namespace FileServer

open StepSystems StepSystem ChildProcesses

variable {I : Type} [DecidableEq I] {w : World I}

def EINTR : Nat := 4
def ECHILD : Nat := 10

inductive Handler where
  | outside
  /-- In the loop over `waitpid`. -/
  | looping (savedErrno : Nat)
  /-- Past the loop, before `errno` is restored. -/
  | restoring (savedErrno : Nat)
  deriving DecidableEq

/-- The calls of the main loop that can fail. -/
inductive MainCall where
  | mqReceive
  | fork
  deriving DecidableEq

/-- The file server with its children as the kernel keeps them. -/
structure Reaping (I : Type) where
  server : Server I
  family : Family I Nat
  errno : Nat
  handler : Handler
  /-- `mq_receive` has returned -1, and `errno` has still to be tested. -/
  failed : Bool
  /-- The failures so far, with the `errno` that each has stored. -/
  failures : List (MainCall × Nat)

inductive ReaperAct (I : Type) where
  | client (c : I)
  | child (c : I)
  | main
  | receiveFails (errno : Nat)
  | forkFails (errno : Nat)
  | deliver
  | waitpid (pick : Nat)
  | restore
  deriving DecidableEq

/-- EXIT_SUCCESS after the file is sent, EXIT_FAILURE when it could not be opened. -/
def exitStatus (w : World I) (c : I) : Nat := if (w.file c).isSome then 0 else 1

def Reaping.childExits (s : Reaping I) (c : I) : Prop :=
  (s.server.service.children c).map Child.pc = some .exiting

instance (s : Reaping I) (c : I) : Decidable (s.childExits c) :=
  inferInstanceAs (Decidable ((s.server.service.children c).map Child.pc = some .exiting))

/-- The next statement of `main`, when its calls succeed. -/
def mainStep (w : World I) (s : Reaping I) : Option (Reaping I) :=
  if s.failed then
    if s.errno = EINTR then some { s with failed := false }
    else (serverNext w .receiveFails s.server).map fun t => { s with server := t, failed := false }
  else
    match s.server.main with
    | .loop =>
      (serverNext w (.service .server) s.server).map fun t =>
        { s with
          server := t
          family := match s.server.service.server with
            | .receive => s.family
            | .fork c => s.family.fork c }
    | .leaving => (serverNext w .unlink s.server).map fun t => { s with server := t }
    | .exiting => (serverNext w .exit s.server).map fun t => { s with server := t }
    | .exited => none

/-- One statement of the server, of its handler, of a child or of a client. -/
def reaperNext (w : World I) : ReaperAct I → Reaping I → Option (Reaping I)
  | .client c, s =>
    (serverNext w (.service (.client c)) s.server).map fun t => { s with server := t }
  | .child c, s =>
    (serverNext w (.service (.child c)) s.server).map fun t =>
      { s with
        server := t
        family := if s.childExits c ∧ s.server.main ≠ .exited then
            (s.family.ends c (exitStatus w c)).getD s.family
          else s.family }
  | .main, s => if s.handler = .outside then mainStep w s else none
  | .receiveFails errno, s =>
    if s.handler = .outside ∧ s.failed = false ∧ s.server.main = .loop ∧
        s.server.service.server = .receive then
      some { s with errno, failed := true, failures := s.failures ++ [(.mqReceive, errno)] }
    else none
  | .forkFails errno, s =>
    if s.handler = .outside ∧ s.failed = false then
      (serverNext w .forkFails s.server).map fun t =>
        { s with server := t, errno, failures := s.failures ++ [(.fork, errno)] }
    else none
  | .deliver, s =>
    if s.handler = .outside ∧ s.family.sigchld ∧ s.server.main ≠ .exited then
      some { s with
        family := { s.family with sigchld := false }
        handler := .looping s.errno }
    else none
  | .waitpid pick, s =>
    match s.handler with
    | .looping savedErrno =>
      (s.family.waitAny pick).map fun (result, family) =>
        match result with
        | .child _ _ => { s with family }
        | .nobody => { s with family, handler := .restoring savedErrno }
        | .echild => { s with family, errno := ECHILD, handler := .restoring savedErrno }
    | _ => none
  | .restore, s =>
    match s.handler with
    | .restoring savedErrno => some { s with errno := savedErrno, handler := .outside }
    | _ => none

def Reaping.initial (w : World I) : Reaping I where
  server := ⟨.loop, State.initial w⟩
  family := .empty
  errno := 0
  handler := .outside
  failed := false
  failures := []

def reapingServer (w : World I) : StepSystem (Reaping I) (ReaperAct I) :=
  ofNext (· = Reaping.initial w) (reaperNext w)

/-- The steps of the handler. -/
def OfHandler (act : ReaperAct I) (_ : Reaping I) : Prop :=
  act = .deliver ∨ (∃ pick, act = .waitpid pick) ∨ act = .restore

/-! ## What a step does -/

/-- Each kind of step, by what it changes. -/
inductive Change (w : World I) (s : Reaping I) : ReaperAct I → Reaping I → Prop
  | client {c t} (step : serverNext w (.service (.client c)) s.server = some t) :
      Change w s (.client c) { s with server := t }
  | child {c t} (step : serverNext w (.service (.child c)) s.server = some t)
      (stays : ¬ (s.childExits c ∧ s.server.main ≠ .exited)) :
      Change w s (.child c) { s with server := t }
  | childExits {c t} (step : serverNext w (.service (.child c)) s.server = some t)
      (exits : s.childExits c) (parent : s.server.main ≠ .exited) :
      Change w s (.child c) { s with
        server := t
        family := (s.family.ends c (exitStatus w c)).getD s.family }
  | interrupted (here : s.handler = .outside) (failed : s.failed = true)
      (interrupted : s.errno = EINTR) : Change w s .main { s with failed := false }
  | breaks {t} (here : s.handler = .outside) (failed : s.failed = true) (other : s.errno ≠ EINTR)
      (step : serverNext w .receiveFails s.server = some t) :
      Change w s .main { s with server := t, failed := false }
  | receives {t} (here : s.handler = .outside) (fine : s.failed = false)
      (loop : s.server.main = .loop) (receiving : s.server.service.server = .receive)
      (step : serverNext w (.service .server) s.server = some t) :
      Change w s .main { s with server := t }
  | forks {c t} (here : s.handler = .outside) (fine : s.failed = false)
      (loop : s.server.main = .loop) (forking : s.server.service.server = .fork c)
      (step : serverNext w (.service .server) s.server = some t) :
      Change w s .main { s with server := t, family := s.family.fork c }
  | leaves {act t} (here : s.handler = .outside) (fine : s.failed = false)
      (left : s.server.main ≠ .loop) (last : act = .unlink ∨ act = .exit)
      (step : serverNext w act s.server = some t) : Change w s .main { s with server := t }
  | receiveFails {errno} (here : s.handler = .outside) (fine : s.failed = false)
      (loop : s.server.main = .loop) (receiving : s.server.service.server = .receive) :
      Change w s (.receiveFails errno)
        { s with errno, failed := true, failures := s.failures ++ [(.mqReceive, errno)] }
  | forkFails {errno t} (here : s.handler = .outside) (fine : s.failed = false)
      (step : serverNext w .forkFails s.server = some t) :
      Change w s (.forkFails errno)
        { s with server := t, errno, failures := s.failures ++ [(.fork, errno)] }
  | deliver (here : s.handler = .outside) (pending : s.family.sigchld = true)
      (parent : s.server.main ≠ .exited) :
      Change w s .deliver { s with
        family := { s.family with sigchld := false }
        handler := .looping s.errno }
  | collects {pick c status f savedErrno} (here : s.handler = .looping savedErrno)
      (waited : s.family.waitAny pick = some (.child c status, f)) :
      Change w s (.waitpid pick) { s with family := f }
  | stops {pick f savedErrno} (here : s.handler = .looping savedErrno)
      (waited : s.family.waitAny pick = some (.nobody, f)) :
      Change w s (.waitpid pick) { s with family := f, handler := .restoring savedErrno }
  | childless {pick f savedErrno} (here : s.handler = .looping savedErrno)
      (waited : s.family.waitAny pick = some (.echild, f)) :
      Change w s (.waitpid pick)
        { s with family := f, errno := ECHILD, handler := .restoring savedErrno }
  | restore {savedErrno} (here : s.handler = .restoring savedErrno) :
      Change w s .restore { s with errno := savedErrno, handler := .outside }

theorem mainStep_change {s t : Reaping I} (here : s.handler = .outside)
    (step : mainStep w s = some t) : Change w s .main t := by
  unfold mainStep at step
  split at step
  · rename_i failed
    split at step
    · rename_i interrupted
      cases step
      exact .interrupted here failed interrupted
    · rename_i other
      obtain ⟨u, moved, rfl⟩ := Option.map_eq_some_iff.mp step
      exact .breaks here failed other moved
  · rename_i fine
    have fine : s.failed = false := by simpa using fine
    split at step
    · rename_i loop
      obtain ⟨u, moved, rfl⟩ := Option.map_eq_some_iff.mp step
      cases place : s.server.service.server with
      | receive => exact .receives here fine loop place moved
      | fork c => exact .forks here fine loop place moved
    · rename_i left
      obtain ⟨u, moved, rfl⟩ := Option.map_eq_some_iff.mp step
      exact .leaves here fine (by simp [left]) (Or.inl rfl) moved
    · rename_i left
      obtain ⟨u, moved, rfl⟩ := Option.map_eq_some_iff.mp step
      exact .leaves here fine (by simp [left]) (Or.inr rfl) moved
    · cases step

theorem reaperNext_change {act : ReaperAct I} {s t : Reaping I}
    (step : reaperNext w act s = some t) : Change w s act t := by
  cases act with
  | client c =>
    obtain ⟨u, moved, rfl⟩ := Option.map_eq_some_iff.mp step
    exact .client moved
  | child c =>
    obtain ⟨u, moved, rfl⟩ := Option.map_eq_some_iff.mp step
    by_cases exits : s.childExits c ∧ s.server.main ≠ .exited
    · rw [if_pos exits]
      exact .childExits moved exits.1 exits.2
    · rw [if_neg exits]
      exact .child moved exits
  | main =>
    obtain ⟨here, moved⟩ := Option.ite_none_right_eq_some.mp step
    exact mainStep_change here moved
  | receiveFails errno =>
    obtain ⟨⟨here, fine, loop, receiving⟩, same⟩ := Option.ite_none_right_eq_some.mp step
    cases same
    exact .receiveFails here fine loop receiving
  | forkFails errno =>
    obtain ⟨⟨here, fine⟩, mapped⟩ := Option.ite_none_right_eq_some.mp step
    obtain ⟨u, moved, rfl⟩ := Option.map_eq_some_iff.mp mapped
    exact .forkFails here fine moved
  | deliver =>
    obtain ⟨⟨here, pending, parent⟩, same⟩ := Option.ite_none_right_eq_some.mp step
    cases same
    exact .deliver here pending parent
  | waitpid pick =>
    simp only [reaperNext] at step
    split at step
    · rename_i savedErrno here
      obtain ⟨⟨result, f⟩, waited, rfl⟩ := Option.map_eq_some_iff.mp step
      cases result with
      | child c status => exact .collects here waited
      | nobody => exact .stops here waited
      | echild => exact .childless here waited
    · cases step
  | restore =>
    simp only [reaperNext] at step
    split at step
    · rename_i savedErrno here
      cases step
      exact .restore here
    · cases step

/-! ## One child for each request -/

/-- A request under way has no child yet, and no client has two. -/
structure Once (s : State I) : Prop where
  fresh : ∀ c, (s.clients c).pc = .openServer ∨ (s.clients c).pc = .openResp ∨
    (s.clients c).pc = .send → c ∉ s.requests ∧ s.server ≠ .fork c ∧ s.children c = none
  queue : s.requests.Nodup
  queued : ∀ c ∈ s.requests, s.server ≠ .fork c ∧ s.children c = none
  forking : ∀ c, s.server = .fork c → s.children c = none

omit [DecidableEq I] in
theorem Once.start : Once (State.initial w) where
  fresh _ _ := ⟨List.not_mem_nil, by simp [State.initial], rfl⟩
  queue := List.nodup_nil
  queued _ member := absurd member List.not_mem_nil
  forking _ _ := rfl

/-- A client that goes on elsewhere than before its request keeps the requests. -/
theorem Once.of_later {s t : State I} (once : Once s) {c : I}
    (others : ∀ d, d ≠ c → t.clients d = s.clients d) (requests : t.requests = s.requests)
    (server : t.server = s.server) (children : t.children = s.children)
    (place : (t.clients c).pc = .openServer ∨ (t.clients c).pc = .openResp ∨
      (t.clients c).pc = .send → (s.clients c).pc = .openServer ∨ (s.clients c).pc = .openResp ∨
      (s.clients c).pc = .send) : Once t := by
  refine ⟨?_, requests ▸ once.queue, ?_, ?_⟩
  · intro d early
    rw [requests, server, children]
    by_cases same : d = c
    · subst d
      exact once.fresh c (place early)
    · exact once.fresh d (by rwa [← others d same])
  · rw [requests, server, children]
    exact once.queued
  · rw [server, children]
    exact once.forking

theorem Once.client {c : I} {s t : State I} (once : Once s) (step : clientStep c s = some t) :
    Once t := by
  have others (u : State I) (client : Client I) (same : u.clients = s.clients) :
      ∀ d, d ≠ c → (u.setClient c client).clients d = s.clients d := by
    intro d ne
    rw [setClient_other u client ne, same]
  simp only [clientStep] at step
  split at step
  · rename_i early
    cases step
    exact once.of_later (others s _ rfl) rfl rfl rfl fun _ => Or.inl early
  · rename_i early
    split at step
    · cases step
      exact once.of_later (others s _ rfl) rfl rfl rfl fun _ => Or.inr (Or.inl early)
    · cases step
      exact once.of_later (others _ _ rfl) rfl rfl rfl fun _ => Or.inr (Or.inl early)
  · rename_i early
    obtain ⟨unsent, notForking, childless⟩ := once.fresh c (Or.inr (Or.inr early))
    split at step
    · cases step
      constructor
      · intro d before
        by_cases same : d = c
        · subst d
          simp [State.setClient] at before
        · rw [setClient_other _ _ same] at before
          obtain ⟨absent, rest⟩ := once.fresh d before
          exact ⟨by simp [State.setClient, absent, same], rest⟩
      · exact List.nodup_append.mpr ⟨once.queue, List.pairwise_singleton _ _, by
          rintro d member e only rfl
          exact unsent (List.mem_singleton.mp only ▸ member)⟩
      · intro d member
        rcases List.mem_append.mp member with before | only
        · exact once.queued d before
        · obtain rfl := List.mem_singleton.mp only
          exact ⟨notForking, childless⟩
      · exact once.forking
    · cases step
  · rename_i receiving
    split at step
    · cases step
    · split at step
      · cases step
      · cases step
        refine once.of_later (others _ _ rfl) rfl rfl rfl ?_
        intro early
        rw [setClient_self] at early
        split at early <;> simp at early
  · cases step
    refine once.of_later (others _ _ rfl) rfl rfl rfl ?_
    intro early
    simp at early
  · cases step
  · cases step

theorem Once.server {s t : State I} (once : Once s) (step : serverStep w s = some t) : Once t := by
  simp only [serverStep] at step
  split at step
  · rename_i receiving
    split at step
    · cases step
    · rename_i c rest pending
      cases step
      obtain ⟨absent, distinct⟩ := List.nodup_cons.mp (pending ▸ once.queue)
      constructor
      · intro d before
        obtain ⟨unsent, -, childless⟩ := once.fresh d before
        rw [pending, List.mem_cons, not_or] at unsent
        exact ⟨unsent.2, fun same => unsent.1 (ServerPc.fork.inj same).symm, childless⟩
      · exact distinct
      · intro d member
        refine ⟨?_, (once.queued d (pending ▸ List.mem_cons_of_mem c member)).2⟩
        rintro same
        exact absent (ServerPc.fork.inj same ▸ member)
      · rintro d same
        obtain rfl := ServerPc.fork.inj same
        exact (once.queued c (pending ▸ List.mem_cons_self)).2
  · rename_i c forking
    cases step
    constructor
    · intro d before
      obtain ⟨unsent, notForking, childless⟩ := once.fresh d before
      have ne : d ≠ c := by
        rintro rfl
        exact notForking forking
      exact ⟨unsent, by simp [State.setChild], by rw [setChild_other _ _ ne]; exact childless⟩
    · exact once.queue
    · intro d member
      obtain ⟨notForking, childless⟩ := once.queued d member
      have ne : d ≠ c := by
        rintro rfl
        exact notForking forking
      exact ⟨by simp [State.setChild], by rw [setChild_other _ _ ne]; exact childless⟩
    · intro d same
      simp [State.setChild] at same

/-- A statement of a child changes its own place and a queue. It ends the child exactly
when it is the exit. -/
theorem childStep_place {c : I} {child : Child} {s t : State I}
    (step : childStep w c child s = some t) :
    ∃ child', t.children = Function.update s.children c (some child') ∧
      t.clients = s.clients ∧ t.requests = s.requests ∧ t.server = s.server ∧
      (child'.pc = .exited ↔ child.pc = .exiting) ∧ child.pc ≠ .exited := by
  simp only [childStep] at step
  split at step
  · rename_i place
    cases step
    exact ⟨_, rfl, rfl, rfl, rfl, by simp [place], by simp [place]⟩
  · rename_i place
    split at step
    · cases step
      exact ⟨_, rfl, rfl, rfl, rfl, by simp [place], by simp [place]⟩
    · split at step
      · cases step
        exact ⟨_, rfl, rfl, rfl, rfl, by simp [place], by simp [place]⟩
      · split at step
        · cases step
          exact ⟨_, rfl, rfl, rfl, rfl, by simp [place], by simp [place]⟩
        · cases step
  · rename_i place
    cases step
    exact ⟨_, rfl, rfl, rfl, rfl, by simp [place], by simp [place]⟩
  · cases step

theorem Once.child {c : I} {child : Child} {s t : State I} (once : Once s)
    (here : s.children c = some child) (step : childStep w c child s = some t) : Once t := by
  obtain ⟨child', children, clients, requests, server, -⟩ := childStep_place step
  have without : ∀ d, s.children d = none → t.children d = none := by
    intro d childless
    have ne : d ≠ c := by
      rintro rfl
      rw [here] at childless
      cases childless
    rw [children, Function.update_of_ne ne, childless]
  constructor
  · intro d before
    rw [clients] at before
    obtain ⟨unsent, notForking, childless⟩ := once.fresh d before
    rw [requests, server]
    exact ⟨unsent, notForking, without d childless⟩
  · exact requests ▸ once.queue
  · intro d member
    rw [requests] at member
    obtain ⟨notForking, childless⟩ := once.queued d member
    rw [server]
    exact ⟨notForking, without d childless⟩
  · intro d forking
    rw [server] at forking
    exact without d (once.forking d forking)

theorem Once.next {act : Act I} {s t : State I} (once : Once s) (step : next w act s = some t) :
    Once t := by
  cases act with
  | client c => exact once.client step
  | server => exact once.server step
  | child c =>
    obtain ⟨child, here, moved⟩ := Option.bind_eq_some_iff.mp step
    exact once.child here moved

theorem serverNext_once {act : ServerAct I} {s t : Server I} (once : Once s.service)
    (step : serverNext w act s = some t) : Once t.service := by
  have moves : ∀ act', (next w act' s.service).map (Server.mk s.main) = some t →
      Once t.service := by
    intro act' mapped
    obtain ⟨u, moved, rfl⟩ := Option.map_eq_some_iff.mp mapped
    exact once.next moved
  cases act with
  | service act =>
    cases act with
    | server =>
      obtain ⟨-, moved⟩ := Option.ite_none_right_eq_some.mp step
      exact moves .server moved
    | client c => exact moves (.client c) step
    | child c => exact moves (.child c) step
  | receiveFails | forkFails | unlink | exit =>
    obtain ⟨-, same⟩ := Option.ite_none_right_eq_some.mp step
    cases same
    exact ⟨once.fresh, once.queue, once.queued, once.forking⟩

/-! ## What the kernel keeps -/

/-- A child that has not exited. -/
def State.Runs (s : State I) (c : I) : Prop :=
  ∃ child, s.children c = some child ∧ child.pc ≠ .exited

def State.Exited (w : World I) (s : State I) (c : I) (status : Nat) : Prop :=
  status = exitStatus w c ∧ ∃ child, s.children c = some child ∧ child.pc = .exited

/-- The kernel's record fits the children of the service. -/
def Accounts (w : World I) (s : State I) (f : Family I Nat) : Prop :=
  f.Tracks s.Runs (s.Exited w)

section
variable {s t : State I} {f : Family I Nat} {c : I} {child child' : Child}

omit [DecidableEq I] in
theorem Accounts.of_children (accounts : Accounts w s f) (same : t.children = s.children) :
    Accounts w t f := by
  unfold Accounts State.Runs State.Exited
  rw [same]
  exact accounts

theorem runs_update (children : t.children = Function.update s.children c (some child')) (d : I) :
    t.Runs d ↔ d = c ∧ child'.pc ≠ .exited ∨ d ≠ c ∧ s.Runs d := by
  rw [State.Runs, children]
  by_cases same : d = c
  · subst d
    simp
  · simp [same, State.Runs]

theorem exited_update (children : t.children = Function.update s.children c (some child'))
    (d : I) (status : Nat) :
    t.Exited w d status ↔
      d = c ∧ status = exitStatus w c ∧ child'.pc = .exited ∨ d ≠ c ∧ s.Exited w d status := by
  rw [State.Exited, children]
  by_cases same : d = c
  · subst d
    simp
  · simp [same, State.Exited]

/-- A child that goes on without ending. -/
theorem Accounts.goes_on (accounts : Accounts w s f) (here : s.children c = some child)
    (runs : child.pc ≠ .exited)
    (children : t.children = Function.update s.children c (some child'))
    (on : child'.pc ≠ .exited) : Accounts w t f := by
  have alive : s.Runs c := ⟨child, here, runs⟩
  refine Family.Tracks.congr accounts ?_ ?_
  · intro d
    rw [runs_update children]
    by_cases same : d = c
    · subst d
      simp [on, alive]
    · simp [same]
  · intro d status
    rw [exited_update children]
    by_cases same : d = c
    · subst d
      simp only [on, and_false, ne_eq, not_true, false_and, or_self, false_iff]
      exact fun ended => accounts.apart _ status ended alive
    · simp [same]

/-- A child that ends is found among those that run. -/
theorem Accounts.ends (accounts : Accounts w s f) (here : s.children c = some child)
    (runs : child.pc ≠ .exited)
    (children : t.children = Function.update s.children c (some child'))
    (exited : child'.pc = .exited) :
    ∃ g, f.ends c (exitStatus w c) = some g ∧ Accounts w t g := by
  have alive : s.Runs c := ⟨child, here, runs⟩
  obtain ⟨g, ended, -, tracks⟩ := Family.Tracks.ends accounts alive (exitStatus w c)
  refine ⟨g, ended, tracks.congr ?_ ?_⟩
  · intro d
    rw [runs_update children]
    simp [exited, and_comm]
  · intro d status
    rw [exited_update children]
    by_cases same : d = c
    · subst d
      have never : ¬ s.Exited w _ status := fun ended => accounts.apart _ status ended alive
      simp [exited, never]
    · simp [same]

theorem Accounts.fork (accounts : Accounts w s f) (fresh : s.children c = none)
    (children : t.children = Function.update s.children c (some child'))
    (runs : child'.pc ≠ .exited) : Accounts w t (f.fork c) := by
  have unborn : ¬ s.Runs c := by
    rintro ⟨_, here, -⟩
    rw [fresh] at here
    cases here
  have never : ∀ status, ¬ s.Exited w c status := by
    rintro status ⟨-, _, here, -⟩
    rw [fresh] at here
    cases here
  refine (Family.Tracks.fork accounts unborn never).congr ?_ ?_
  · intro d
    rw [runs_update children]
    by_cases same : d = c
    · simp [same, runs]
    · simp [same]
  · intro d status
    rw [exited_update children]
    by_cases same : d = c
    · subst d
      simp [runs, never]
    · simp [same]

end

/-- The value of `errno` that the main loop finds once the handler has returned. -/
def Handler.shows (errno : Nat) : Handler → Nat
  | .outside => errno
  | .looping savedErrno | .restoring savedErrno => savedErrno

structure Kept (w : World I) (s : Reaping I) : Prop where
  once : Once s.server.service
  accounts : s.server.main ≠ .exited → Accounts w s.server.service s.family
  stored : s.failed = true → s.server.main = .loop ∧ s.server.service.server = .receive ∧
    s.failures.getLast? = some (.mqReceive, s.handler.shows s.errno)
  left : s.server.main ≠ .loop →
    ∃ f, s.failures.getLast? = some f ∧ (f.1 = .fork ∨ f.2 ≠ EINTR)

omit [DecidableEq I] in
theorem Kept.start : Kept w (Reaping.initial w) where
  once := .start
  accounts _ := by
    refine Family.Tracks.empty ?_ ?_
    · rintro c ⟨_, ⟨⟩, -⟩
    · rintro c status ⟨-, _, ⟨⟩, -⟩
  stored failed := by cases failed
  left out := absurd rfl out

/-- A statement of a client or of a child leaves the place of `main` as it is. -/
theorem service_main {act : Act I} {s t : Server I} (other : act ≠ .server)
    (step : serverNext w (.service act) s = some t) :
    t.main = s.main ∧ next w act s.service = some t.service := by
  cases act with
  | server => exact absurd rfl other
  | client c | child c =>
    obtain ⟨u, moved, rfl⟩ := Option.map_eq_some_iff.mp step
    exact ⟨rfl, moved⟩

theorem clientStep_server {c : I} {s t : State I} (step : clientStep c s = some t) :
    t.server = s.server := by
  simp only [clientStep] at step
  split at step
  · cases step; rfl
  · split at step <;> cases step <;> rfl
  · obtain ⟨-, same⟩ := Option.ite_none_right_eq_some.mp step
    cases same
    rfl
  · split at step
    · cases step
    · split at step <;> cases step
      rfl
  · cases step; rfl
  · cases step
  · cases step

omit [DecidableEq I] in
/-- The step is one of the handler, and nothing of the service changes. -/
theorem Kept.handler {s : Reaping I} (kept : Kept w s) {f : Family I Nat} {errno : Nat}
    {h : Handler} (accounts : Accounts w s.server.service s.family →
      Accounts w s.server.service f)
    (shows : h.shows errno = s.handler.shows s.errno) :
    Kept w { s with family := f, errno, handler := h } where
  once := kept.once
  accounts parent := accounts (kept.accounts parent)
  stored failed := by
    obtain ⟨loop, receiving, last⟩ := kept.stored failed
    exact ⟨loop, receiving, by rw [last, shows]⟩
  left := kept.left

theorem Kept.step {act : ReaperAct I} {s t : Reaping I} (kept : Kept w s)
    (change : Change w s act t) : Kept w t := by
  cases change with
  | @client c t step =>
    obtain ⟨main, moved⟩ := service_main (by simp) step
    obtain ⟨children, -⟩ := clientStep_frame moved
    refine ⟨serverNext_once kept.once step, ?_, ?_, ?_⟩
    · intro parent
      rw [main] at parent
      exact (kept.accounts parent).of_children children
    · intro failed
      obtain ⟨loop, receiving, last⟩ := kept.stored failed
      exact ⟨main.trans loop, (clientStep_server moved).trans receiving, last⟩
    · intro out
      rw [main] at out
      exact kept.left out
  | @child c t step stays =>
    obtain ⟨main, bound⟩ := service_main (by simp) step
    obtain ⟨child, here, moved⟩ := Option.bind_eq_some_iff.mp bound
    obtain ⟨child', children, -, -, server, ends, runs⟩ := childStep_place moved
    refine ⟨serverNext_once kept.once step, ?_, ?_, ?_⟩
    · intro parent
      rw [main] at parent
      refine (kept.accounts parent).goes_on here runs children ?_
      intro exited
      exact stays ⟨by simp [Reaping.childExits, here, ends.mp exited], parent⟩
    · intro failed
      obtain ⟨loop, receiving, last⟩ := kept.stored failed
      exact ⟨main.trans loop, server.trans receiving, last⟩
    · intro out
      rw [main] at out
      exact kept.left out
  | @childExits c t step exits parent =>
    obtain ⟨main, bound⟩ := service_main (by simp) step
    obtain ⟨child, here, moved⟩ := Option.bind_eq_some_iff.mp bound
    obtain ⟨child', children, -, -, server, ends, runs⟩ := childStep_place moved
    have exiting : child.pc = .exiting := by simpa [Reaping.childExits, here] using exits
    obtain ⟨g, ended, accounts⟩ :=
      (kept.accounts parent).ends here runs children (ends.mpr exiting)
    refine ⟨serverNext_once kept.once step, ?_, ?_, ?_⟩
    · intro _
      simpa only [ended, Option.getD_some] using accounts
    · intro failed
      obtain ⟨loop, receiving, last⟩ := kept.stored failed
      exact ⟨main.trans loop, server.trans receiving, last⟩
    · intro out
      rw [main] at out
      exact kept.left out
  | interrupted here failed interrupted =>
    exact ⟨kept.once, kept.accounts, (by rintro ⟨⟩), kept.left⟩
  | breaks here failed other step =>
    obtain ⟨loop, receiving, last⟩ := kept.stored failed
    rw [here] at last
    obtain ⟨-, same⟩ := Option.ite_none_right_eq_some.mp step
    cases same
    exact ⟨kept.once, fun _ => kept.accounts (by simp [loop]), (by rintro ⟨⟩),
      fun _ => ⟨_, last, Or.inr other⟩⟩
  | receives here fine loop receiving step =>
    have once := serverNext_once kept.once step
    obtain ⟨-, mapped⟩ := Option.ite_none_right_eq_some.mp step
    obtain ⟨u, moved, rfl⟩ := Option.map_eq_some_iff.mp mapped
    simp only [serverStep, receiving] at moved
    split at moved
    · cases moved
    · cases moved
      refine ⟨once, fun parent => (kept.accounts parent).of_children rfl, ?_, kept.left⟩
      intro failed
      rw [fine] at failed
      cases failed
  | @forks c t here fine loop forking step =>
    have once := serverNext_once kept.once step
    obtain ⟨-, mapped⟩ := Option.ite_none_right_eq_some.mp step
    obtain ⟨u, moved, rfl⟩ := Option.map_eq_some_iff.mp mapped
    simp only [serverStep, forking, Option.some.injEq] at moved
    subst moved
    refine ⟨once, fun parent => ?_, ?_, kept.left⟩
    · exact (kept.accounts parent).fork (kept.once.forking c forking) rfl (by simp)
    · intro failed
      rw [fine] at failed
      cases failed
  | leaves here fine out last step =>
    have once := serverNext_once kept.once step
    have left := kept.left out
    rcases last with rfl | rfl
    all_goals
      obtain ⟨place, same⟩ := Option.ite_none_right_eq_some.mp step
      cases same
      refine ⟨once, fun _ => (kept.accounts (by simp [place])).of_children rfl, ?_, fun _ => left⟩
      intro failed
      rw [fine] at failed
      cases failed
  | receiveFails here fine loop receiving =>
    refine ⟨kept.once, kept.accounts, ?_, fun out => absurd loop out⟩
    intro _
    exact ⟨loop, receiving, by rw [here]; exact List.getLast?_concat⟩
  | forkFails here fine step =>
    have once := serverNext_once kept.once step
    obtain ⟨⟨loop, -⟩, same⟩ := Option.ite_none_right_eq_some.mp step
    cases same
    refine ⟨once, fun _ => (kept.accounts (by simp [loop])).of_children rfl, ?_, ?_⟩
    · intro failed
      rw [fine] at failed
      cases failed
    · intro _
      exact ⟨_, List.getLast?_concat, Or.inl rfl⟩
  | deliver here pending parent =>
    refine kept.handler (h := .looping s.errno) ?_ (by rw [here]; rfl)
    intro accounts
    exact Family.Tracks.of_sublist accounts rfl (List.Sublist.refl _)
  | collects here waited =>
    exact kept.handler (h := s.handler) (fun accounts => Family.Tracks.waitAny accounts waited) rfl
  | @stops pick f savedErrno here waited =>
    exact kept.handler (h := .restoring savedErrno)
      (fun accounts => Family.Tracks.waitAny accounts waited)
      (by rw [here]; rfl)
  | @childless pick f savedErrno here waited =>
    exact kept.handler (h := .restoring savedErrno)
      (fun accounts => Family.Tracks.waitAny accounts waited)
      (by rw [here]; rfl)
  | @restore savedErrno here =>
    exact kept.handler (h := .outside) id (by rw [here]; rfl)

theorem reachable_kept {s : Reaping I} (reach : (reapingServer w).Reachable s) : Kept w s := by
  refine reach.invariant ?_ ?_
  · rintro r rfl
    exact .start
  · intro act r t kept step
    exact kept.step (reaperNext_change step)

/-! ## Zombies -/

def Handler.atWork : Handler → Bool
  | .looping _ => true
  | _ => false

/-- The server as a process that collects its children from a handler. -/
def Reaping.collector (s : Reaping I) : Collector I Nat := ⟨s.family, s.handler.atWork⟩

theorem Change.collector {act : ReaperAct I} {s t : Reaping I} (change : Change w s act t)
    (kept : Kept w s) : collecting.Run s.collector t.collector := by
  cases change with
  | client | child | interrupted | breaks | receives | leaves | receiveFails | forkFails =>
    exact Run.refl _
  | @childExits c t step exits parent =>
    obtain ⟨-, bound⟩ := service_main (by simp) step
    obtain ⟨child, here, moved⟩ := Option.bind_eq_some_iff.mp bound
    obtain ⟨child', children, -, -, -, ends, runs⟩ := childStep_place moved
    have exiting : child.pc = .exiting := by simpa [Reaping.childExits, here] using exits
    obtain ⟨g, ended, -⟩ := (kept.accounts parent).ends here runs children (ends.mpr exiting)
    simp only [Reaping.collector, ended, Option.getD_some]
    exact (Run.refl _).snoc (l := .ends c (exitStatus w c)) (.ends ended)
  | @forks c t here fine loop forking step =>
    exact (Run.refl _).snoc (l := .fork c) .fork
  | deliver here pending parent =>
    simp only [Reaping.collector, here, Handler.atWork]
    exact (Run.refl _).snoc (l := .deliver) (.deliver pending)
  | @collects pick c status f savedErrno here waited =>
    simp only [Reaping.collector, here, Handler.atWork]
    exact (Run.refl _).snoc (l := .wait pick) (.collected waited)
  | @stops pick f savedErrno here waited =>
    simp only [Reaping.collector, here, Handler.atWork]
    exact (Run.refl _).snoc (l := .wait pick) (.left waited (Or.inl rfl))
  | @childless pick f savedErrno here waited =>
    simp only [Reaping.collector, here, Handler.atWork]
    exact (Run.refl _).snoc (l := .wait pick) (.left waited (Or.inr rfl))
  | restore here =>
    simp only [Reaping.collector, here, Handler.atWork]
    exact Run.refl _

theorem reachable_collector {s : Reaping I} (reach : (reapingServer w).Reachable s) :
    collecting.Reachable s.collector := by
  refine reach.invariant_of (I := fun s => collecting.Reachable s.collector)
    (fun r reached => reachable_kept reached) ?_ ?_
  · rintro r rfl
    exact .initial rfl
  · intro act r t kept before step
    exact before.run ((reaperNext_change step).collector kept)

/-- The handler changes nothing of the service. -/
theorem reachable_server {s : Reaping I} (reach : (reapingServer w).Reachable s) :
    (fileServer w).Reachable s.server := by
  refine reach.invariant (I := fun s => (fileServer w).Reachable s.server) ?_ ?_
  · rintro r rfl
    exact .initial rfl
  · intro act r t before moved
    cases reaperNext_change moved with
    | client step | child step | childExits step => exact before.next step
    | breaks _ _ _ step => exact before.next step
    | receives _ _ _ _ step => exact before.next step
    | forks _ _ _ _ step => exact before.next step
    | leaves _ _ _ _ step => exact before.next step
    | forkFails _ _ step => exact before.next step
    | interrupted | receiveFails | deliver | collects | stops | childless | restore => exact before

/-- What is left for the handler to do. -/
def Reaping.work (s : Reaping I) : Nat :=
  2 * s.collector.work + match s.handler with
    | .restoring _ => 1
    | _ => 0

theorem Change.work_lt {act : ReaperAct I} {s t : Reaping I} (own : OfHandler act s)
    (change : Change w s act t) : t.work < s.work := by
  cases change with
  | deliver here pending parent =>
    simp [Reaping.work, Reaping.collector, Collector.work, here, pending, Handler.atWork]
  | @collects pick c status f savedErrno here waited =>
    have less := (Moves.collected waited).work_lt (Or.inr ⟨pick, rfl⟩)
    simp only [Reaping.work, Reaping.collector, here, Handler.atWork]
    omega
  | @stops pick f savedErrno here waited =>
    have less := (Moves.left waited (Or.inl rfl)).work_lt (Or.inr ⟨pick, rfl⟩)
    simp only [Reaping.work, Reaping.collector, here, Handler.atWork]
    omega
  | @childless pick f savedErrno here waited =>
    have less := (Moves.left waited (Or.inr rfl)).work_lt (Or.inr ⟨pick, rfl⟩)
    simp only [Reaping.work, Reaping.collector, here, Handler.atWork]
    omega
  | @restore savedErrno here =>
    have same : Reaping.collector { s with errno := savedErrno, handler := .outside } =
        s.collector := by
      simp only [Reaping.collector, here, Handler.atWork]
    simp only [Reaping.work, same, here]
    omega
  | _ => rcases own with own | ⟨_, own⟩ | own <;> cases own

/-- As long as a child is a zombie the handler has a next step. -/
theorem handler_moves {s : Reaping I} (reach : (reapingServer w).Reachable s)
    (parent : s.server.main ≠ .exited) (ended : s.family.zombies ≠ []) :
    ∃ act t, ((reapingServer w).restrict OfHandler).step act s t := by
  cases place : s.handler with
  | outside =>
    have pending : s.family.sigchld = true := by
      rcases collecting_announced (reachable_collector reach) ended with pending | working
      · exact pending
      · simp [Reaping.collector, place, Handler.atWork] at working
    exact ⟨.deliver, _, Or.inl rfl, if_pos ⟨place, pending, parent⟩⟩
  | looping savedErrno =>
    obtain ⟨pick, result, f, waited⟩ := waitAny_moves s.family
    have moves : ∃ t, reaperNext w (.waitpid pick) s = some t := by
      simp only [reaperNext, place, waited, Option.map_some]
      exact ⟨_, rfl⟩
    obtain ⟨t, moves⟩ := moves
    exact ⟨.waitpid pick, t, Or.inr (Or.inl ⟨pick, rfl⟩), moves⟩
  | restoring savedErrno =>
    have moves : ∃ t, reaperNext w .restore s = some t := by
      simp only [reaperNext, place]
      exact ⟨_, rfl⟩
    obtain ⟨t, moves⟩ := moves
    exact ⟨.restore, t, Or.inr (Or.inr rfl), moves⟩

theorem handler_main {act : ReaperAct I} {s t : Reaping I} (own : OfHandler act s)
    (change : Change w s act t) : t.server = s.server := by
  cases change with
  | deliver | collects | stops | childless | restore => rfl
  | _ => rcases own with own | ⟨_, own⟩ | own <;> cases own

/-- While the server exists, the children that run are those that have not exited, a
child that has exited stays a zombie only as long as SIGCHLD is pending or the handler
has work, and the handler by itself collects them all. -/
theorem zombies_collected {s : Reaping I} (reach : (reapingServer w).Reachable s) :
    (fileServer w).Reachable s.server ∧
    (s.server.main ≠ .exited →
      (∀ c, c ∈ s.family.running ↔
        ∃ child, s.server.service.children c = some child ∧ child.pc ≠ .exited) ∧
      (∀ c status, (c, status) ∈ s.family.zombies → status = exitStatus w c ∧
        ∃ child, s.server.service.children c = some child ∧ child.pc = .exited) ∧
      (s.family.sigchld = false → s.handler = .outside → s.family.zombies = []) ∧
      Inevitable ((reapingServer w).restrict OfHandler)
        (fun t : Reaping I => t.family.zombies = []) s) := by
  refine ⟨reachable_server reach, fun parent => ?_⟩
  have accounts := (reachable_kept reach).accounts parent
  refine ⟨accounts.running, accounts.ended, ?_, ?_⟩
  · intro quiet place
    by_contra ended
    rcases collecting_announced (reachable_collector reach) ended with pending | working
    · simp [Reaping.collector, quiet] at pending
    · simp [Reaping.collector, place, Handler.atWork] at working
  · refine Inevitable.of_measure
      (fun t => (reapingServer w).Reachable t ∧ t.server.main ≠ .exited)
      Nat.lt_wfRel.wf Reaping.work ?_ ?_ s ⟨reach, parent⟩
    · rintro t ⟨reach, parent⟩ ended
      exact handler_moves reach parent ended
    · rintro act r t ⟨reach, parent⟩ ⟨own, step⟩
      have change := reaperNext_change step
      have same := handler_main own change
      exact ⟨⟨reach.next step, by rwa [same]⟩, change.work_lt own⟩

/-- One client, whose file cannot be opened. -/
def unopenable : World Unit where
  file _ := none
  clientResp _ := ByteBuffers.Buffer.zero _
  childResp _ := ByteBuffers.Buffer.zero _

/-- The child has exited before the handler runs. -/
def childExited : List (ReaperAct Unit) :=
  [.client (), .client (), .client (), .main, .main, .child (), .child (), .child (), .child ()]

theorem zombie_of_failure_collected :
    ∃ s : Reaping Unit, s.family = ⟨[], [((), 1)], true⟩ ∧ s.server.main = .loop ∧
      Inevitable ((reapingServer unopenable).restrict OfHandler)
        (fun t : Reaping Unit => t.family.zombies = []) s := by
  have run : ∃ s, follow (reaperNext unopenable) childExited (Reaping.initial unopenable) = some s ∧
      s.family = ⟨[], [((), 1)], true⟩ ∧ s.server.main = .loop := ⟨_, rfl, rfl, rfl⟩
  obtain ⟨s, run, family, loop⟩ := run
  have reach : (reapingServer unopenable).Reachable s := (Reachable.initial rfl).run (follow_run run)
  exact ⟨s, family, loop, ((zombies_collected reach).2 (by simp [loop])).2.2.2⟩

/-- The main loop tests the `errno` that its own failed call has stored, wherever the
handler interrupts it, and it ends only for a failure other than EINTR. -/
theorem loop_ends_on_failure {s : Reaping I} (reach : (reapingServer w).Reachable s) :
    (s.failed = true → s.handler = .outside →
      s.failures.getLast? = some (.mqReceive, s.errno)) ∧
    (s.server.main ≠ .loop →
      ∃ f, s.failures.getLast? = some f ∧ (f.1 = .fork ∨ f.2 ≠ EINTR)) := by
  have kept := reachable_kept reach
  refine ⟨?_, kept.left⟩
  intro failed place
  obtain ⟨-, -, last⟩ := kept.stored failed
  rw [last, place]
  rfl

/-- The child exits while `mq_receive` has just been interrupted, and the handler runs
before the test of `errno`. -/
def interruptedReceive : List (ReaperAct Unit) :=
  childExited ++ [.receiveFails EINTR, .deliver, .waitpid 0, .waitpid 0, .restore]

theorem interrupted_loop_goes_on :
    ∃ s : Reaping Unit, s.failed = true ∧ s.server.main = .loop ∧
      some (MainCall.mqReceive, EINTR) = some (.mqReceive, s.errno) := by
  have run : ∃ s, follow (reaperNext unopenable) interruptedReceive (Reaping.initial unopenable) =
      some s ∧ s.failed = true ∧ s.handler = .outside ∧ s.server.main = .loop ∧
      s.failures = [(.mqReceive, EINTR)] := ⟨_, rfl, rfl, rfl, rfl, rfl⟩
  obtain ⟨s, run, failed, place, loop, failures⟩ := run
  have reach : (reapingServer unopenable).Reachable s := (Reachable.initial rfl).run (follow_run run)
  have stored := (loop_ends_on_failure reach).1 failed place
  exact ⟨s, failed, loop, by rw [← stored, failures]; rfl⟩

end FileServer
