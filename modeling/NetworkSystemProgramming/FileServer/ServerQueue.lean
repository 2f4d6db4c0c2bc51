import NetworkSystemProgramming.FileServer.System

/-!
# The name of the server queue

The ways out of the server's main loop, over the file service. The loop ends when
`mq_receive` or `fork` fails; then the server unlinks "/MSG11" itself and exits. A child
inherits the `removeQueue` that `main` has registered: it ends with `_exit` once the file
is sent, which runs no handlers, and with `exit` when the file could not be opened.
-/

namespace FileServer

open StepSystems StepSystem

variable {I : Type} [DecidableEq I] {w : World I}

inductive MainPc where
  | loop
  /-- Past the loop, before its own `mq_unlink`. -/
  | leaving
  | exiting
  | exited
  deriving DecidableEq

/-- The file service with the place of the server's `main`. -/
structure Server (I : Type) where
  main : MainPc
  service : State I

inductive ServerAct (I : Type) where
  | service (act : Act I)
  | receiveFails
  | forkFails
  | unlink
  | exit
  deriving DecidableEq

/-- One statement of the server's `main`, a child or a client. The children and the
clients go on when the main loop has ended. -/
def serverNext (w : World I) : ServerAct I → Server I → Option (Server I)
  | .service .server, s =>
    if s.main = .loop then (serverStep w s.service).map (Server.mk s.main) else none
  | .service act, s => (next w act s.service).map (Server.mk s.main)
  | .receiveFails, s =>
    if s.main = .loop ∧ s.service.server = .receive then some { s with main := .leaving } else none
  | .forkFails, s =>
    if s.main = .loop ∧ s.service.server ≠ .receive then some { s with main := .leaving } else none
  | .unlink, s =>
    if s.main = .leaving then
      some ⟨.exiting, { s.service with serverLinked := false }⟩ else none
  | .exit, s =>
    if s.main = .exiting then
      some ⟨.exited, { s.service with serverLinked := false }⟩ else none

def fileServer (w : World I) : StepSystem (Server I) (ServerAct I) :=
  ofNext (· = ⟨.loop, State.initial w⟩) (serverNext w)

theorem serverNext_service {act : Act I} {s : State I} :
    serverNext w (.service act) ⟨.loop, s⟩ = (next w act s).map (Server.mk .loop) := by
  cases act with
  | server => rfl
  | client c => rfl
  | child c => rfl

/-- While the main loop runs, the service goes on as it does by itself. -/
theorem fileServer_run {s t : State I} (run : (fileService w).Run s t) :
    (fileServer w).Run ⟨.loop, s⟩ ⟨.loop, t⟩ := by
  induction run with
  | refl => exact Run.refl _
  | @tail u v _ step ih =>
    obtain ⟨act, moves⟩ := step
    have moved : (fileServer w).step (.service act) ⟨.loop, u⟩ ⟨.loop, v⟩ := by
      have moves : next w act u = some v := moves
      change serverNext w (.service act) ⟨.loop, u⟩ = some ⟨.loop, v⟩
      rw [serverNext_service, moves, Option.map_some]
    exact ih.snoc moved

/-- The condition: a child is forked only for a file that can be opened. -/
def ForksForOpenable (w : World I) (act : ServerAct I) (s : Server I) : Prop :=
  act = .service .server → ∀ c, s.service.server = .fork c → (w.file c).isSome

/-- Every child serves a file that can be opened, and nobody else unlinks the queue
before the loop ends. -/
structure Linked (w : World I) (s : Server I) : Prop where
  children : ∀ c, s.service.children c ≠ none → (w.file c).isSome
  linked : s.main = .loop → s.service.serverLinked = true

/-- A statement of a client concerns neither the children nor the server's queue. -/
theorem clientStep_frame {c : I} {s t : State I} (step : clientStep c s = some t) :
    t.children = s.children ∧ t.serverLinked = s.serverLinked := by
  simp only [clientStep] at step
  split at step
  · cases step; exact ⟨rfl, rfl⟩
  · split at step
    · cases step; exact ⟨rfl, rfl⟩
    · cases step; exact ⟨rfl, rfl⟩
  · split at step
    · cases step; exact ⟨rfl, rfl⟩
    · cases step
  · split at step
    · cases step
    · split at step
      · cases step
      · cases step; exact ⟨rfl, rfl⟩
  · cases step; exact ⟨rfl, rfl⟩
  · cases step
  · cases step

/-- A statement of a child changes that child only; it unlinks the server's queue exactly
when it exits for want of the file. -/
theorem childStep_frame {c : I} {child : Child} {s t : State I}
    (step : childStep w c child s = some t) :
    (∀ d, d ≠ c → t.children d = s.children d) ∧
      (t.serverLinked = s.serverLinked ∨ w.file c = none) := by
  have others (u : State I) (child' : Child) (same : u.children = s.children) :
      ∀ d, d ≠ c → (u.setChild c child').children d = s.children d := by
    intro d ne
    rw [setChild_other u child' ne, same]
  simp only [childStep] at step
  split at step
  · cases step; exact ⟨others _ _ rfl, Or.inl rfl⟩
  · split at step
    · cases step; exact ⟨others _ _ rfl, Or.inl rfl⟩
    · split at step
      · cases step; exact ⟨others _ _ rfl, Or.inl rfl⟩
      · split at step
        · cases step; exact ⟨others _ _ rfl, Or.inl rfl⟩
        · cases step
  · cases step
    refine ⟨others _ _ rfl, ?_⟩
    cases file : w.file c with
    | none => exact Or.inr rfl
    | some blocks => exact Or.inl (by simp [State.setChild])
  · cases step

theorem serverStep_frame {s t : State I} (step : serverStep w s = some t) :
    t.serverLinked = s.serverLinked ∧
      ∀ d, t.children d ≠ none → s.children d ≠ none ∨ s.server = .fork d := by
  simp only [serverStep] at step
  split at step
  · split at step
    · cases step
    · cases step; exact ⟨rfl, fun d some_ => Or.inl some_⟩
  · rename_i c forking
    cases step
    refine ⟨rfl, ?_⟩
    intro d present
    by_cases same : d = c
    · subst d
      exact Or.inr forking
    · left
      rwa [setChild_other _ _ same] at present

theorem Linked.service {act : Act I} {s t : Server I} (h : Linked w s)
    (ok : ForksForOpenable w (.service act) s)
    (step : serverNext w (.service act) s = some t) : Linked w t := by
  cases act with
  | server =>
    simp only [serverNext] at step
    split at step
    · rename_i loop
      obtain ⟨u, moves, rfl⟩ := Option.map_eq_some_iff.mp step
      obtain ⟨linked, children⟩ := serverStep_frame moves
      constructor
      · intro c present
        rcases children c present with before | forking
        · exact h.children c before
        · exact ok rfl c forking
      · intro _
        exact linked.trans (h.linked loop)
    · cases step
  | client c =>
    obtain ⟨u, moves, rfl⟩ := Option.map_eq_some_iff.mp step
    obtain ⟨children, linked⟩ := clientStep_frame moves
    constructor
    · intro d present
      exact h.children d (by rwa [← children])
    · intro loop
      exact linked.trans (h.linked loop)
  | child c =>
    obtain ⟨u, moves, rfl⟩ := Option.map_eq_some_iff.mp step
    obtain ⟨child, here, moves⟩ := Option.bind_eq_some_iff.mp moves
    obtain ⟨others, linked⟩ := childStep_frame moves
    have openable : (w.file c).isSome := h.children c (by simp [here])
    constructor
    · intro d present
      by_cases same : d = c
      · subst d
        exact openable
      · exact h.children d (by rwa [← others d same])
    · intro loop
      rcases linked with kept | missing
      · exact kept.trans (h.linked loop)
      · simp [missing] at openable

theorem Linked.step {act : ServerAct I} {s t : Server I} (h : Linked w s)
    (ok : ForksForOpenable w act s) (step : serverNext w act s = some t) : Linked w t := by
  cases act with
  | service act => exact h.service ok step
  | receiveFails | forkFails =>
    simp only [serverNext] at step
    split at step
    · cases step
      exact ⟨h.children, fun loop => by cases loop⟩
    · cases step
  | unlink | exit =>
    simp only [serverNext] at step
    split at step
    · cases step
      exact ⟨h.children, fun loop => by cases loop⟩
    · cases step

theorem reachable_linked {s : Server I}
    (reach : ((fileServer w).restrict (ForksForOpenable w)).Reachable s) : Linked w s := by
  refine reach.invariant ?_ ?_
  · rintro r rfl
    constructor
    · intro c present
      exact absurd rfl present
    · intro _
      rfl
  · rintro act r t h ⟨ok, step⟩
    exact h.step ok step

/-- One client asks for a missing file and its child exits. -/
def missingRequest (c : I) : List (Act I) :=
  [.client c, .client c, .client c, .server, .server, .child c, .child c, .child c, .child c]

theorem missingRequest_unlinks {c : I} (missing : w.file c = none) :
    ∃ t, follow (next w) (missingRequest c) (State.initial w) = some t ∧
      t.serverLinked = false := by
  simp [missingRequest, follow, next, clientStep, serverStep, childStep, State.initial,
    State.setClient, State.setChild, State.setQueue, MAXMSG, serveRequest, missing]

/-- "/MSG11" stays linked while the main loop runs if no child is forked for a file that
cannot be opened; and whatever the interleaving, exactly when all files can be opened. -/
theorem queue_linked_iff_openable (w : World I) :
    (∀ s, ((fileServer w).restrict (ForksForOpenable w)).Reachable s →
      s.main = .loop → s.service.serverLinked = true) ∧
    ((∀ s, (fileServer w).Reachable s → s.main = .loop → s.service.serverLinked = true) ↔
      ∀ c, (w.file c).isSome) := by
  refine ⟨fun s reach => (reachable_linked reach).linked, ?_⟩
  constructor
  · intro always c
    by_contra missing
    obtain ⟨t, run, unlinked⟩ := missingRequest_unlinks (Option.not_isSome_iff_eq_none.mp missing)
    have reach : (fileServer w).Reachable ⟨.loop, t⟩ :=
      (Reachable.initial rfl).run (fileServer_run (follow_run run))
    have linked := always _ reach rfl
    simp [unlinked] at linked
  · intro openable s reach
    have allowed : ((fileServer w).restrict (ForksForOpenable w)).Reachable s := by
      refine reach.invariant (fun r start => .initial start) ?_
      intro act r t before step
      exact before.next ⟨fun _ c _ => openable c, step⟩
    exact (reachable_linked allowed).linked

private def missingFile : World Unit where
  file _ := none
  clientResp _ := ByteBuffers.Buffer.zero _
  childResp _ := ByteBuffers.Buffer.zero _

/-- One client has asked for a missing file. Its child has exited, the main loop waits for
the next request, and no client can open the queue any more. -/
theorem queue_unlinked_by_child :
    ∃ s, (fileServer missingFile).Reachable s ∧ s.main = .loop ∧
      s.service.serverLinked = false := by
  obtain ⟨t, run, unlinked⟩ := missingRequest_unlinks (w := missingFile) (c := ()) rfl
  exact ⟨⟨.loop, t⟩, (Reachable.initial rfl).run (fileServer_run (follow_run run)), rfl, unlinked⟩

end FileServer
