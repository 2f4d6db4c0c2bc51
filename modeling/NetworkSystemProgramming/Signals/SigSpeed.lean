import Mathlib.Tactic.Common
import NetworkSystemProgramming.StepSystems

/-!
# Signal ping-pong

`sig_speed_sigsuspend.c` and `sig_speed_sigwaitinfo.c`: parent and child send SIGUSR1 to
each other, the child first. The signal is blocked before the fork, and each process has
one pending slot for it. No other process sends the signal.
-/

namespace SigSpeed

open StepSystems StepSystem

/-- The call that takes the signal. -/
inductive Version where
  | sigsuspend
  | sigwaitinfo
  deriving DecidableEq

inductive Side where
  | parent
  | child
  deriving DecidableEq

def Side.peer : Side → Side
  | .parent => .child
  | .child => .parent

inductive Pc where
  | unborn
  | sigaction
  | sigprocmask
  | fork
  | test
  | kill
  | wait
  | waiting
  | exited
  | terminated
  deriving DecidableEq

/-- There is a process that signals can be sent to. -/
def Pc.alive : Pc → Bool
  | .unborn | .exited | .terminated => false
  | _ => true

structure Process where
  pc : Pc
  scnt : Nat
  /-- The handler is installed; without it the signal terminates the process. -/
  handled : Bool
  blocked : Bool
  /-- The mask that `sigsuspend` restores. -/
  saved : Bool
  pending : Bool
  sends : Nat
  deriving DecidableEq

abbrev State := Side → Process

def start : State
  | .parent => ⟨.sigaction, 0, false, false, false, false, 0⟩
  | .child => ⟨.unborn, 0, false, false, false, false, 0⟩

/-- The first call of the loop body. -/
def Side.body : Side → Pc
  | .parent => .wait
  | .child => .kill

def afterKill : Side → Process → Process
  | .child, p => { p with pc := .wait }
  | .parent, p => { p with pc := .test, scnt := p.scnt + 1 }

def afterWait : Side → Process → Process
  | .child, p => { p with pc := .test, scnt := p.scnt + 1 }
  | .parent, p => { p with pc := .kill }

/-- What `kill` does to its target. A signal to a full slot is lost, and so is one to a
process that has gone: `getppid` then names another one. -/
def post (p : Process) : Process :=
  if p.pc.alive then { p with pending := true } else p

def set (s : State) (side : Side) (p : Process) : State := Function.update s side p

@[simp] theorem set_self (s : State) (side : Side) (p : Process) : set s side p side = p := by
  simp [set]

/-- The next call of a process; `none` when there is none or it waits. -/
def runStep (version : Version) (numSigs : Nat) (side : Side) (s : State) : Option State :=
  let p := s side
  match p.pc with
  | .unborn | .exited | .terminated => none
  | .sigaction => some (set s side { p with pc := .sigprocmask, handled := true })
  | .sigprocmask => some (set s side { p with pc := .fork, blocked := true })
  | .fork =>
    -- the child inherits handler and mask, and starts with an empty slot
    some (set (set s .parent { p with pc := .test }) .child
      { p with pc := .test, pending := false, sends := 0 })
  | .test =>
    if p.scnt < numSigs then some (set s side { p with pc := side.body })
    else some (set s side { p with pc := .exited })
  | .kill =>
    some (set (set s side.peer (post (s side.peer))) side
      (afterKill side { p with sends := p.sends + 1 }))
  | .wait =>
    match version with
    | .sigsuspend =>
      some (set s side { p with pc := .waiting, saved := p.blocked, blocked := false })
    | .sigwaitinfo => some (set s side { p with pc := .waiting })
  | .waiting =>
    -- `sigsuspend` is left by the handler alone
    if version = .sigwaitinfo ∧ p.pending then
      some (set s side (afterWait side { p with pending := false }))
    else none

/-- The kernel delivers a pending signal that is not blocked. -/
def deliver (version : Version) (side : Side) (s : State) : Option State :=
  let p := s side
  if p.pending ∧ ¬ p.blocked ∧ p.pc.alive then
    if ¬ p.handled then some (set s side { p with pc := .terminated, pending := false })
    else if p.pc = .waiting then
      match version with
      | .sigsuspend =>
        some (set s side (afterWait side { p with pending := false, blocked := p.saved }))
      | .sigwaitinfo => some (set s side (afterWait side { p with pending := false }))
    else some (set s side { p with pending := false })
  else none

inductive Act where
  | run (side : Side)
  | deliver (side : Side)
  deriving DecidableEq

def next (version : Version) (numSigs : Nat) : Act → State → Option State
  | .run side, s => runStep version numSigs side s
  | .deliver side, s => deliver version side s

def sigSpeed (version : Version) (numSigs : Nat) : StepSystem State Act :=
  .ofNext (· = start) (next version numSigs)

/-- The calls before the child is there. -/
def Pc.early : Pc → Bool
  | .unborn | .sigaction | .sigprocmask | .fork => true
  | _ => false

/-- The waits that a process has come back from. -/
def received : Side → Process → Nat
  | .parent, p => if p.pc = .kill then p.scnt + 1 else p.scnt
  | .child, p => p.scnt

/-- The `kill` calls that belong to a place in the loop. -/
def sent : Side → Process → Nat
  | .parent, p => p.scnt
  | .child, p => if p.pc = .wait ∨ p.pc = .waiting then p.scnt + 1 else p.scnt

/-- The signals that have come to a process, taken or pending. -/
def arrived (side : Side) (p : Process) : Nat := received side p + p.pending.toNat

/-- What one process keeps to by itself. -/
structure Placed (version : Version) (numSigs : Nat) (side : Side) (p : Process) : Prop where
  place : p.pc ≠ .terminated ∧
    match side with
    | .parent => p.pc ≠ .unborn
    | .child => p.pc ≠ .sigaction ∧ p.pc ≠ .sigprocmask ∧ p.pc ≠ .fork
  early : p.pc.early → p.scnt = 0 ∧ p.pending = false
  bound : p.scnt ≤ numSigs
  inBody : p.pc = .kill ∨ p.pc = .wait ∨ p.pc = .waiting → p.scnt < numSigs
  finished : p.pc = .exited → p.scnt = numSigs
  sends : p.sends = sent side p
  handled : p.pc ≠ .unborn → p.pc ≠ .sigaction → p.handled = true
  blocked : p.pc = .fork ∨ (p.pc.early = false ∧ p.pc ≠ .waiting) → p.blocked = true
  waiting : p.pc = .waiting →
    match version with
    | .sigsuspend => p.blocked = false ∧ p.saved = true
    | .sigwaitinfo => p.blocked = true

/-- Each signal sent has arrived at the peer, which is there from the fork on. -/
structure Inv (version : Version) (numSigs : Nat) (s : State) : Prop where
  placed : ∀ side, Placed version numSigs side (s side)
  balance : ∀ side, arrived side (s side) = (s side.peer).sends
  born : (s .parent).pc.early = (s .child).pc.early

section
variable {version : Version} {numSigs : Nat} {s t : State} {side : Side} {p : Process}

theorem start_inv : Inv version numSigs start where
  placed side := by
    cases side <;> constructor <;> simp [start, Pc.early, sent]
  balance side := by cases side <;> rfl
  born := rfl

theorem balance_self (inv : Inv version numSigs s) (side : Side) :
    arrived side.peer (s side.peer) = (s side).sends := by
  have h := inv.balance side.peer
  cases side <;> exact h

/-- A move of one process that sends nothing and takes only what has arrived. -/
theorem own_keeps {p : Process} (inv : Inv version numSigs s)
    (placed : Placed version numSigs side p) (same : arrived side p = arrived side (s side))
    (sends : p.sends = (s side).sends) (early : p.pc.early = (s side).pc.early) :
    Inv version numSigs (set s side p) where
  placed other := by
    cases side <;> cases other <;>
      first
      | exact placed
      | exact inv.placed _
  balance other := by
    have own := inv.balance side
    have peer := balance_self inv side
    cases side <;> cases other <;> simp_all [set, Side.peer]
  born := by
    have born := inv.born
    cases side <;> simp_all [set]

theorem parent_gap (h : Placed version numSigs .parent p) :
    p.sends ≤ received .parent p ∧ received .parent p ≤ p.sends + 1 := by
  rw [h.sends]
  simp only [sent, received]
  split <;> omega

theorem child_gap (h : Placed version numSigs .child p) :
    received .child p ≤ p.sends ∧ p.sends ≤ received .child p + 1 := by
  rw [h.sends]
  simp only [sent, received]
  split <;> omega

/-- Before a `kill` the parent has taken one signal more than it has sent, the child as
many. -/
theorem at_kill (h : Placed version numSigs side p) (hpc : p.pc = .kill) :
    p.scnt < numSigs ∧ p.sends = p.scnt ∧
      received side p = if side = .parent then p.scnt + 1 else p.scnt := by
  refine ⟨h.inBody (.inl hpc), ?_, ?_⟩
  · rw [h.sends]
    cases side <;> simp [sent, hpc]
  · cases side <;> simp [received, hpc]

theorem at_exit (h : Placed version numSigs side p) (hpc : p.pc = .exited) :
    received side p = numSigs := by
  have finished := h.finished hpc
  cases side <;> simp [received, hpc, finished]

theorem alive_of (h : Placed version numSigs side p) (early : p.pc.early = false)
    (stays : p.pc ≠ .exited) : p.pc.alive = true := by
  have place := h.place.1
  cases hpc : p.pc <;> simp_all [Pc.early, Pc.alive]

theorem early_of_kill (inv : Inv version numSigs s) (h : (s side).pc = .kill)
    (other : Side) : (s other).pc.early = false := by
  have born := inv.born
  have here : (s side).pc.early = false := by
    rw [h]
    rfl
  cases side <;> cases other <;> simp_all

/-- The balance at a `kill`: the peer has not gone and has no signal left to take. -/
theorem kill_finds (inv : Inv version numSigs s) (h : (s side).pc = .kill) :
    (s side.peer).pc.alive = true ∧ (s side.peer).pending = false := by
  obtain ⟨less, sends, taken⟩ := at_kill (inv.placed side) h
  have mine := inv.balance side
  have theirs := balance_self inv side
  have other := inv.placed side.peer
  have arrivedTheirs : received side.peer (s side.peer) ≤ (s side).sends := by
    rw [arrived] at theirs
    omega
  constructor
  · refine alive_of other (early_of_kill inv h _) ?_
    intro gone
    have all := at_exit other gone
    omega
  · by_contra full
    have one : (s side.peer).pending.toNat = 1 := by
      simpa using full
    rw [arrived] at mine theirs
    cases side with
    | parent =>
      have gap := child_gap other
      simp only [Side.peer, if_true] at *
      omega
    | child =>
      have gap := parent_gap other
      simp only [Side.peer, reduceCtorEq, if_false] at *
      omega

theorem post_placed {p : Process} (h : Placed version numSigs side p)
    (early : p.pc.early = false) : Placed version numSigs side { p with pending := true } where
  place := h.place
  early now := by
    simp [early] at now
  bound := h.bound
  inBody := h.inBody
  finished := h.finished
  sends := by
    cases side <;> exact h.sends
  handled := h.handled
  blocked := h.blocked
  waiting := h.waiting

theorem afterKill_placed (h : Placed version numSigs side p) (hpc : p.pc = .kill) :
    Placed version numSigs side (afterKill side { p with sends := p.sends + 1 }) := by
  obtain ⟨less, sends, -⟩ := at_kill h hpc
  have handled := h.handled (by simp [hpc]) (by simp [hpc])
  have blocked := h.blocked (.inr (by simp [hpc, Pc.early]))
  cases side <;> constructor <;> simp [afterKill, Pc.early, sent, handled, blocked] <;> omega

/-- A `kill` moves the sender and puts one signal into the slot of its peer. -/
theorem kill_keeps (inv : Inv version numSigs s) (h : (s side).pc = .kill)
    (step : runStep version numSigs side s = some t) : Inv version numSigs t := by
  obtain ⟨alive, empty⟩ := kill_finds inv h
  have early := early_of_kill inv h side.peer
  have mine := inv.balance side
  have theirs := balance_self inv side
  have own := afterKill_placed (inv.placed side) h
  have other := post_placed (inv.placed side.peer) early
  simp only [runStep, h, post, alive, if_true, Option.some.injEq] at step
  subst step
  cases side with
  | parent =>
    refine ⟨?_, ?_, ?_⟩
    · rintro (_ | _)
      · exact own
      · exact other
    · rintro (_ | _) <;> simp_all [set, Side.peer, afterKill, arrived, received]
    · simp_all [set, Side.peer, afterKill, Pc.early]
  | child =>
    refine ⟨?_, ?_, ?_⟩
    · rintro (_ | _)
      · exact other
      · exact own
    · rintro (_ | _) <;> simp_all [set, Side.peer, afterKill, arrived, received]
    · simp_all [set, Side.peer, afterKill, Pc.early]

theorem fork_keeps (inv : Inv version numSigs s) (h : (s side).pc = .fork)
    (step : runStep version numSigs side s = some t) : Inv version numSigs t := by
  have parent : side = .parent := by
    have place := (inv.placed side).place.2
    cases side with
    | parent => rfl
    | child => exact absurd h place.2.2
  subst parent
  have own := inv.placed .parent
  have handled := own.handled (by simp [h]) (by simp [h])
  have blocked := own.blocked (.inl h)
  obtain ⟨scnt, empty⟩ := own.early (by simp [h, Pc.early])
  have sends : (s .parent).sends = 0 := by
    rw [own.sends, sent, scnt]
  simp only [runStep, h, Option.some.injEq] at step
  subst step
  refine ⟨?_, ?_, ?_⟩
  · rintro (_ | _) <;> constructor <;>
      simp [set, Pc.early, sent, handled, blocked, scnt, sends]
  · rintro (_ | _) <;> simp [set, Side.peer, arrived, received, scnt, empty, sends]
  · rfl

/-- The signal is taken: the process leaves its wait. -/
theorem take_keeps (inv : Inv version numSigs s) (h : (s side).pc = .waiting)
    (pending : (s side).pending = true) {mask : Bool} (blocked : mask = true) :
    Inv version numSigs
      (set s side (afterWait side { s side with pending := false, blocked := mask })) := by
  have own := inv.placed side
  have bound := own.bound
  have less := own.inBody (.inr (.inr h))
  have room : (s side).scnt + 1 ≤ numSigs := less
  have handled := own.handled (by simp [h]) (by simp [h])
  have sends := own.sends
  refine own_keeps inv ?_ ?_ ?_ ?_
  · cases side <;> constructor <;> simp_all [afterWait, Pc.early, sent]
  · cases side <;> simp [afterWait, arrived, received, h, pending]
  · cases side <;> rfl
  · cases side <;> simp [afterWait, Pc.early, h]

/-- The process enters its wait, in `sigsuspend` with the empty mask. -/
theorem wait_keeps (inv : Inv version numSigs s) (h : (s side).pc = .wait) {saved mask : Bool}
    (masks : match version with
      | .sigsuspend => mask = false ∧ saved = true
      | .sigwaitinfo => mask = true) :
    Inv version numSigs (set s side { s side with pc := .waiting, saved, blocked := mask }) := by
  have own := inv.placed side
  have less := own.inBody (.inr (.inl h))
  have handled := own.handled (by simp [h]) (by simp [h])
  have sends := own.sends
  have bound := own.bound
  refine own_keeps inv ?_ ?_ rfl ?_
  · cases version <;> cases side <;> constructor <;> simp_all [Pc.early, sent]
  · cases side <;> simp [arrived, received, h]
  · rw [h]
    rfl

theorem test_keeps (inv : Inv version numSigs s) (h : (s side).pc = .test) {pc : Pc}
    (goes : pc = side.body ∧ (s side).scnt < numSigs ∨
      pc = .exited ∧ (s side).scnt = numSigs) :
    Inv version numSigs (set s side { s side with pc := pc }) := by
  have own := inv.placed side
  have bound := own.bound
  have blocked := own.blocked (.inr (by simp [h, Pc.early]))
  have handled := own.handled (by simp [h]) (by simp [h])
  have sends := own.sends
  refine own_keeps inv ?_ ?_ rfl ?_
  · rcases goes with ⟨rfl, less⟩ | ⟨rfl, done⟩ <;> cases side <;> constructor <;>
      simp_all [Pc.early, sent, Side.body]
  · rcases goes with ⟨rfl, -⟩ | ⟨rfl, -⟩ <;> cases side <;>
      simp [arrived, received, h, Side.body]
  · rcases goes with ⟨rfl, -⟩ | ⟨rfl, -⟩ <;> cases side <;> simp [Pc.early, h, Side.body]

/-- The calls before the fork. -/
theorem setup_keeps (inv : Inv version numSigs s)
    (h : (s side).pc = .sigaction ∨ (s side).pc = .sigprocmask)
    (step : runStep version numSigs side s = some t) : Inv version numSigs t := by
  have own := inv.placed side
  have sends := own.sends
  have place := own.place
  obtain hpc | hpc := h <;>
    simp only [runStep, hpc, Option.some.injEq] at step <;>
    subst step
  · have early := own.early (by simp [hpc, Pc.early])
    refine own_keeps inv ?_ ?_ rfl (by rw [hpc]; rfl)
    · cases side <;> constructor <;> simp_all [Pc.early, sent]
    · cases side <;> simp [arrived, received, hpc]
  · have early := own.early (by simp [hpc, Pc.early])
    have handled := own.handled (by simp [hpc]) (by simp [hpc])
    refine own_keeps inv ?_ ?_ rfl (by rw [hpc]; rfl)
    · cases side <;> constructor <;> simp_all [Pc.early, sent]
    · cases side <;> simp [arrived, received, hpc]

theorem run_keeps (inv : Inv version numSigs s)
    (step : runStep version numSigs side s = some t) : Inv version numSigs t := by
  have own := inv.placed side
  cases hpc : (s side).pc with
  | unborn | exited | terminated => simp [runStep, hpc] at step
  | sigaction => exact setup_keeps inv (.inl hpc) step
  | sigprocmask => exact setup_keeps inv (.inr hpc) step
  | fork => exact fork_keeps inv hpc step
  | kill => exact kill_keeps inv hpc step
  | test =>
    simp only [runStep, hpc] at step
    split at step
    · next less =>
      cases step
      exact test_keeps inv hpc (.inl ⟨rfl, less⟩)
    · next done =>
      cases step
      exact test_keeps inv hpc (.inr ⟨rfl, Nat.le_antisymm own.bound (Nat.not_lt.mp done)⟩)
  | wait =>
    have blocked := own.blocked (.inr (by simp [hpc, Pc.early]))
    simp only [runStep, hpc] at step
    split at step
    · cases step
      exact wait_keeps inv hpc ⟨rfl, blocked⟩
    · cases step
      exact wait_keeps inv hpc blocked
  | waiting =>
    have masks := own.waiting hpc
    simp only [runStep, hpc] at step
    obtain ⟨⟨rfl, pending⟩, taken⟩ := Option.ite_none_right_eq_some.mp step
    cases taken
    simpa only [hpc] using take_keeps inv hpc pending masks

/-- Outside `sigsuspend` the signal is blocked, so a delivery ends a wait. -/
theorem deliver_keeps (inv : Inv version numSigs s)
    (step : deliver version side s = some t) : Inv version numSigs t := by
  have own := inv.placed side
  obtain ⟨⟨pending, unblocked, alive⟩, step⟩ := Option.ite_none_right_eq_some.mp step
  have late : (s side).pc.early = false := by
    by_contra early
    have empty := (own.early (by simpa using early)).2
    rw [empty] at pending
    cases pending
  have hpc : (s side).pc = .waiting := by
    by_contra elsewhere
    exact unblocked (own.blocked (.inr ⟨late, elsewhere⟩))
  have handled := own.handled (by simp [hpc]) (by simp [hpc])
  have masks := own.waiting hpc
  rw [if_neg (by simp [handled]), if_pos hpc] at step
  cases version with
  | sigsuspend =>
    cases step
    exact take_keeps inv hpc pending masks.2
  | sigwaitinfo => exact absurd masks unblocked

theorem reachable_inv (reach : (sigSpeed version numSigs).Reachable s) :
    Inv version numSigs s := by
  refine reach.invariant (I := Inv version numSigs) ?_ ?_
  · rintro r rfl
    exact start_inv
  · rintro (side | side) r t inv step
    · exact run_keeps inv step
    · exact deliver_keeps inv step

/-- At most one signal is under way, and the child has sent as many as the parent or one
more. -/
theorem under_way (inv : Inv version numSigs s) :
    ¬ ((s .parent).pending ∧ (s .child).pending) ∧
      ((s .child).sends = (s .parent).sends ∨ (s .child).sends = (s .parent).sends + 1) := by
  have parent := parent_gap (inv.placed .parent)
  have child := child_gap (inv.placed .child)
  have toParent := inv.balance .parent
  have toChild := inv.balance .child
  simp only [arrived, Side.peer] at toParent toChild
  constructor
  · rintro ⟨one, two⟩
    simp only [one, two, Bool.toNat_true] at toParent toChild
    omega
  · have bits := Bool.toNat_le (s .parent).pending
    have bits := Bool.toNat_le (s .child).pending
    omega

/-- A process that can go on: every place but the waits and the ends has a next call. -/
theorem moves_or_waits (inv : Inv version numSigs s) (side : Side)
    (born : (s side).pc ≠ .unborn) (stays : (s side).pc ≠ .exited) :
    (∃ act t, (sigSpeed version numSigs).step act s t) ∨
      ((s side).pc = .waiting ∧ (s side).pending = false) := by
  have own := inv.placed side
  by_cases hw : (s side).pc = .waiting
  · by_cases pending : (s side).pending = true
    · left
      have masks := own.waiting hw
      have handled := own.handled (by simp [hw]) (by simp [hw])
      cases version with
      | sigsuspend =>
        have step : deliver .sigsuspend side s = some (set s side
            (afterWait side { s side with pending := false, blocked := (s side).saved })) := by
          simp [deliver, pending, masks.1, hw, Pc.alive, handled]
        exact ⟨.deliver side, _, step⟩
      | sigwaitinfo =>
        have step : runStep .sigwaitinfo numSigs side s =
            some (set s side (afterWait side { s side with pending := false })) := by
          simp [runStep, pending, hw]
        exact ⟨.run side, _, step⟩
    · exact Or.inr ⟨hw, by simpa using pending⟩
  · left
    have place := own.place.1
    have some : ∃ t, runStep version numSigs side s = some t := by
      cases hpc : (s side).pc <;> simp_all [runStep]
      · split <;> simp
      · cases version <;> simp
    obtain ⟨t, step⟩ := some
    exact ⟨.run side, t, step⟩

theorem not_stuck (inv : Inv version numSigs s)
    (unfinished : ¬ ((s .parent).pc = .exited ∧ (s .child).pc = .exited)) :
    ∃ act t, (sigSpeed version numSigs).step act s t := by
  by_contra stuck
  have parentBorn := (inv.placed .parent).place.2
  have born := inv.born
  have waits (side : Side) (b : (s side).pc ≠ .unborn) :
      (s side).pc = .exited ∨ ((s side).pc = .waiting ∧ (s side).pending = false) := by
    by_cases gone : (s side).pc = .exited
    · exact Or.inl gone
    · exact Or.inr ((moves_or_waits inv side b gone).resolve_left stuck)
  have parent := waits .parent parentBorn
  have childBorn : (s .child).pc ≠ .unborn := by
    intro unborn
    rcases parent with h | ⟨h, -⟩ <;> simp [h, unborn, Pc.early] at born
  have child := waits .child childBorn
  have toParent := inv.balance .parent
  have toChild := inv.balance .child
  have parentGap := parent_gap (inv.placed .parent)
  have childGap := child_gap (inv.placed .child)
  have parentSends := (inv.placed .parent).sends
  have childSends := (inv.placed .child).sends
  have parentLess := (inv.placed .parent).inBody
  have childLess := (inv.placed .child).inBody
  have parentDone := (inv.placed .parent).finished
  have childDone := (inv.placed .child).finished
  simp only [arrived, Side.peer] at toParent toChild
  rcases parent with hp | ⟨hp, pendingParent⟩ <;> rcases child with hc | ⟨hc, pendingChild⟩
  · exact unfinished ⟨hp, hc⟩
  · simp_all [sent, received]
  · simp_all [sent, received]
  · simp_all [sent, received]

/-- No signal of the ping-pong is lost, and the two sides take turns to the end. -/
theorem ping_pong (version : Version) (numSigs : Nat) {s : State}
    (reach : (sigSpeed version numSigs).Reachable s) :
    ¬ ((s .parent).pending ∧ (s .child).pending) ∧
      (∀ side t, (sigSpeed version numSigs).step (.run side) s t → (s side).pc = .kill →
        (s side.peer).pending = false ∧ (s side.peer).pc.alive) ∧
      ((s .child).sends = (s .parent).sends ∨ (s .child).sends = (s .parent).sends + 1) ∧
      (¬ ((s .parent).pc = .exited ∧ (s .child).pc = .exited) →
        ∃ act t, (sigSpeed version numSigs).step act s t) := by
  have inv := reachable_inv reach
  refine ⟨(under_way inv).1, ?_, (under_way inv).2, not_stuck inv⟩
  intro side t _ hpc
  obtain ⟨alive, empty⟩ := kill_finds inv hpc
  exact ⟨empty, alive⟩

/-- The child's signal is pending in the parent, which still has to test its loop. -/
def firstSignal : State
  | .parent => ⟨.test, 0, true, true, false, true, 0⟩
  | .child => ⟨.wait, 0, true, true, false, false, 1⟩

theorem firstSignal_reachable : (sigSpeed .sigsuspend 1).Reachable firstSignal := by
  have run : follow (next .sigsuspend 1) [.run .parent, .run .parent, .run .parent, .run .child,
      .run .child] start = some firstSignal := by
    refine congrArg some (funext ?_)
    rintro (_ | _) <;> rfl
  exact ⟨start, rfl, follow_run run⟩

theorem ping_pong_first :
    (firstSignal .parent).pending ∧ (firstSignal .child).sends = 1 ∧
      ∃ act t, (sigSpeed .sigsuspend 1).step act firstSignal t := by
  have turns := ping_pong .sigsuspend 1 firstSignal_reachable
  exact ⟨rfl, rfl, turns.2.2.2 (by simp [firstSignal])⟩

end

end SigSpeed
