import NetworkSystemProgramming.Signals.SigSpeed

/-!
# The ping-pong comes to its end

Every call of parent or child, and every delivery, takes away from the calls that are left.
As one of the two can always go on, both come to their exit.
-/

namespace SigSpeed

open StepSystems StepSystem

/-- The calls that a process has left; those of the parent before the fork count for both. -/
def Side.left (numSigs : Nat) (side : Side) (p : Process) : Nat :=
  match p.pc with
  | .unborn | .exited | .terminated => 0
  | .sigaction => 8 * numSigs + 11
  | .sigprocmask => 8 * numSigs + 10
  | .fork => 8 * numSigs + 9
  | .test => 4 * (numSigs - p.scnt) + 4
  | .kill => 4 * (numSigs - p.scnt) + match side with
    | .parent => 1
    | .child => 3
  | .wait => 4 * (numSigs - p.scnt) + match side with
    | .parent => 3
    | .child => 2
  | .waiting => 4 * (numSigs - p.scnt) + match side with
    | .parent => 2
    | .child => 1

def left (numSigs : Nat) (s : State) : Nat :=
  Side.parent.left numSigs (s .parent) + Side.child.left numSigs (s .child)

section
variable {version : Version} {numSigs : Nat} {s t : State} {side : Side}

theorem left_post (p : Process) : side.left numSigs (post p) = side.left numSigs p := by
  unfold post
  split
  · rfl
  · rfl

theorem left_set {p : Process} (less : side.left numSigs p < side.left numSigs (s side)) :
    left numSigs (set s side p) < left numSigs s := by
  cases side with
  | parent => simpa [left, set] using less
  | child => simpa [left, set] using less

/-- The round is over when the child comes back from its wait. -/
theorem left_afterWait (own : Placed version numSigs side (s side))
    (h : (s side).pc = .waiting) (mask : Bool) :
    side.left numSigs (afterWait side { s side with pending := false, blocked := mask }) <
      side.left numSigs (s side) := by
  have less := own.inBody (.inr (.inr h))
  cases side with
  | parent => simp [Side.left, afterWait, h]
  | child =>
    simp only [Side.left, afterWait, h]
    omega

/-- The round is over when the parent has sent its signal. -/
theorem left_afterKill (own : Placed version numSigs side (s side)) (h : (s side).pc = .kill) :
    side.left numSigs (afterKill side { s side with sends := (s side).sends + 1 }) <
      side.left numSigs (s side) := by
  have less := own.inBody (.inl h)
  cases side with
  | parent =>
    simp only [Side.left, afterKill, h]
    omega
  | child => simp [Side.left, afterKill, h]

theorem run_left (inv : Inv version numSigs s) (step : runStep version numSigs side s = some t) :
    left numSigs t < left numSigs s := by
  have own := inv.placed side
  cases hpc : (s side).pc with
  | unborn | exited | terminated => simp [runStep, hpc] at step
  | sigaction | sigprocmask =>
    simp only [runStep, hpc, Option.some.injEq] at step
    subst step
    exact left_set (by simp [Side.left, hpc])
  | fork =>
    have parent : side = .parent := by
      have place := own.place.2
      cases side with
      | parent => rfl
      | child => exact absurd hpc place.2.2
    subst parent
    obtain ⟨scnt, -⟩ := own.early (by simp [hpc, Pc.early])
    simp only [runStep, hpc, Option.some.injEq] at step
    subst step
    have before : left numSigs s = 8 * numSigs + 9 + Side.child.left numSigs (s .child) := by
      simp [left, Side.left, hpc]
    rw [before]
    simp [left, set, Side.left, scnt]
    omega
  | kill =>
    have less := left_afterKill own hpc
    simp only [runStep, hpc, Option.some.injEq] at step
    subst step
    simp only [hpc] at less
    cases side with
    | parent => simpa [left, set, Side.peer, left_post] using less
    | child => simpa [left, set, Side.peer, left_post] using less
  | test =>
    simp only [runStep, hpc] at step
    split at step
    · cases step
      refine left_set ?_
      cases side <;> simp [Side.left, Side.body, hpc]
    · cases step
      exact left_set (by simp [Side.left, hpc])
  | wait =>
    simp only [runStep, hpc] at step
    split at step
    · cases step
      refine left_set ?_
      cases side <;> simp [Side.left, hpc]
    · cases step
      refine left_set ?_
      cases side <;> simp [Side.left, hpc]
  | waiting =>
    have less := left_afterWait own hpc (s side).blocked
    simp only [runStep, hpc] at step
    obtain ⟨-, taken⟩ := Option.ite_none_right_eq_some.mp step
    cases taken
    refine left_set ?_
    simpa only [hpc] using less

theorem deliver_left (inv : Inv version numSigs s) (step : deliver version side s = some t) :
    left numSigs t < left numSigs s := by
  have own := inv.placed side
  obtain ⟨⟨pending, unblocked, -⟩, step⟩ := Option.ite_none_right_eq_some.mp step
  have late : (s side).pc.early = false := by
    by_contra early
    have empty := (own.early (by simpa using early)).2
    rw [empty] at pending
    cases pending
  have hpc : (s side).pc = .waiting := by
    by_contra elsewhere
    exact unblocked (own.blocked (.inr ⟨late, elsewhere⟩))
  have handled := own.handled (by simp [hpc]) (by simp [hpc])
  rw [if_neg (by simp [handled]), if_pos hpc] at step
  cases version with
  | sigsuspend =>
    cases step
    exact left_set (left_afterWait own hpc (s side).saved)
  | sigwaitinfo => exact absurd (own.waiting hpc) unblocked

/-- In every run both processes exit, and each has sent as many signals as it was asked to. -/
theorem ping_pong_completes (version : Version) (numSigs : Nat) {s : State}
    (reach : (sigSpeed version numSigs).Reachable s) :
    Inevitable (sigSpeed version numSigs)
      (fun t : State => ∀ side, (t side).pc = .exited ∧ (t side).sends = numSigs) s := by
  have ends : Inevitable (sigSpeed version numSigs)
      (fun t : State => (t .parent).pc = .exited ∧ (t .child).pc = .exited) s := by
    refine Inevitable.of_measure (Inv version numSigs) Nat.lt_wfRel.wf (left numSigs) ?_ ?_ s
      (reachable_inv reach)
    · exact fun _ inv unfinished => not_stuck inv unfinished
    · rintro (side | side) r t inv step
      · exact ⟨run_keeps inv step, run_left inv step⟩
      · exact ⟨deliver_keeps inv step, deliver_left inv step⟩
  refine ends.mono ?_
  rintro t run ⟨parent, child⟩ side
  have own := (reachable_inv (reach.run run)).placed side
  have exited : (t side).pc = .exited := by
    cases side with
    | parent => exact parent
    | child => exact child
  have scnt := own.finished exited
  have sends := own.sends
  refine ⟨exited, ?_⟩
  cases side with
  | parent => rw [sends, sent, scnt]
  | child => rw [sends, sent, if_neg (by simp [exited]), scnt]

end

/-- The child's signal is pending in the parent. -/
theorem one_round_completes :
    Inevitable (sigSpeed .sigsuspend 1)
      (fun t : State => ∀ side, (t side).pc = .exited ∧ (t side).sends = 1) firstSignal :=
  ping_pong_completes .sigsuspend 1 firstSignal_reachable

end SigSpeed
