import Mathlib.Data.Finset.Card
import NetworkSystemProgramming.StepSystems
import NetworkSystemProgramming.Signals.SystemV

/-!
# Waiting for a signal

`my_sigpause` of `system_v.c` among signals that arrive at any time: `my_sigrelse`, then
`sigsuspend` with the shared mask. Between the two statements, and wherever else its mask
lets it through, a pending signal is delivered. The handlers call none of these functions,
and they return.
-/

namespace SystemV

open StepSystems StepSystem

/-- SIGCHLD to SIGURG and SIGWINCH: by default they are ignored, or the process stops and
later goes on. -/
def survivable (sig : Signal) : Bool := (17 ≤ sig.val && sig.val ≤ 23) || sig.val = 28

inductive Pc where
  | caller
  /-- In `my_sigpause`, behind `my_sigrelse`. -/
  | released (sig : Signal)
  /-- In `sigsuspend`, with the mask that the call puts back. -/
  | suspended (sig : Signal) (mask : Finset Signal)
  | terminated
  deriving DecidableEq

structure State where
  process : Process
  pending : Finset Signal
  /-- The masks that the running handlers return to, the innermost first. -/
  frames : List (Finset Signal)
  pc : Pc
  /-- The signals for which a handler was called. -/
  handled : List Signal

inductive Act where
  | call (call : Call)
  | sigpause (sig : Signal)
  | sigsuspend
  | arrive (sig : Signal)
  | deliver (sig : Signal)
  | handlerReturns
  deriving DecidableEq

/-- A signal that is delivered without any effect on the program. Nothing is installed with
SIG_HOLD as the handler. -/
def Process.ignores (p : Process) (sig : Signal) : Bool :=
  match (p.dispositions sig).handler with
  | .SIG_IGN => true
  | .SIG_DFL | .SIG_HOLD => survivable sig
  | .function _ => false

/-- The signal for which a call comes to `sigaction`. -/
def Call.target : Call → Option Signal
  | .sigset _ .SIG_HOLD => none
  | .sigset sig _ => some sig
  | .sigignore sig => some sig
  | _ => none

/-- Setting a signal to be ignored discards it when it is pending. -/
def State.call (s : State) (call : Call) : State :=
  let process := perform s.process call
  { s with
    process
    pending := s.pending.filter fun sig => ¬ (call.target = some sig ∧ process.ignores sig) }

/-- The first statement of `my_sigpause`. -/
def State.paused (s : State) (sig : Signal) : State :=
  { s with process := (mySigrelse s.process sig).2, pc := .released sig }

def State.suspend (s : State) (sig : Signal) : State :=
  { s with
    process := { s.process with mask := s.process.sa.mask \ unblockable }
    pc := .suspended sig s.process.mask }

/-- The mask after a handler, which is that before `sigsuspend` when it ends that. -/
def State.back (s : State) : Finset Signal :=
  match s.pc with
  | .suspended _ mask => mask
  | _ => s.process.mask

/-- A handler runs with its own signal blocked, and with the mask of its `sigaction`. -/
def State.enter (s : State) (sig : Signal) : State :=
  { s with
    process := { s.process with
      mask := insert sig (s.process.mask ∪ (s.process.dispositions sig).mask \ unblockable) }
    frames := s.back :: s.frames
    pc := match s.pc with
      | .suspended _ _ => .caller
      | pc => pc
    handled := s.handled ++ [sig] }

def State.deliver (s : State) (sig : Signal) : Option State :=
  if sig ∈ s.pending ∧ sig ∉ s.process.mask ∧ s.pc ≠ .terminated then
    let s := { s with pending := s.pending.erase sig }
    if s.process.ignores sig then some s
    else match (s.process.dispositions sig).handler with
      | .function _ => some (s.enter sig)
      | _ => some { s with pc := .terminated }
  else none

def next (act : Act) (s : State) : Option State :=
  match act with
  | .call call => if s.pc = .caller ∧ s.frames = [] then some (s.call call) else none
  | .sigpause sig => if s.pc = .caller ∧ s.frames = [] then some (s.paused sig) else none
  | .sigsuspend =>
    match s.pc, s.frames with
    | .released sig, [] => some (s.suspend sig)
    | _, _ => none
  | .arrive sig => some { s with pending := insert sig s.pending }
  | .deliver sig => s.deliver sig
  | .handlerReturns =>
    match s.frames with
    | mask :: rest => some { s with process := { s.process with mask }, frames := rest }
    | [] => none

def State.initial : State where
  process := .initial
  pending := ∅
  frames := []
  pc := .caller
  handled := []

/-- A program that uses the functions, among signals that arrive at any time. -/
def signalled : StepSystem State Act := .ofNext (· = State.initial) next

/-- In the call of `my_sigpause` for the signal. -/
def Pc.pauses (sig : Signal) : Pc → Prop
  | .released other => other = sig
  | .suspended other _ => other = sig
  | _ => False

/-- The steps that are taken while the call lasts. -/
def InCall (sig : Signal) (_ : Act) (s : State) : Prop := s.pc.pauses sig

/-- The mask that the program has once the handlers that run have returned. -/
def State.base (s : State) : Finset Signal := s.frames.getLastD s.process.mask

/-! ## The steps of the call -/

/-- What a step during the call does. -/
inductive CallMoves (sig : Signal) (s : State) : Act → State → Prop
  | suspend (pc : s.pc = .released sig) (rest : s.frames = []) :
      CallMoves sig s .sigsuspend (s.suspend sig)
  | arrive {other} : CallMoves sig s (.arrive other) { s with pending := insert other s.pending }
  | dropped {other} (pending : other ∈ s.pending) (ignored : s.process.ignores other = true) :
      CallMoves sig s (.deliver other) { s with pending := s.pending.erase other }
  | handled {other} (pending : other ∈ s.pending) (unblocked : other ∉ s.process.mask) :
      CallMoves sig s (.deliver other) ({ s with pending := s.pending.erase other }.enter other)
  | killed {other} (pending : other ∈ s.pending) : CallMoves sig s (.deliver other)
      { s with pending := s.pending.erase other, pc := .terminated }
  | returned {mask rest} (frames : s.frames = mask :: rest) :
      CallMoves sig s .handlerReturns
        { s with process := { s.process with mask }, frames := rest }

theorem next_callMoves {sig : Signal} {act : Act} {s t : State} (inCall : s.pc.pauses sig)
    (step : next act s = some t) : CallMoves sig s act t := by
  have away : s.pc ≠ .caller := by
    intro pc
    rw [pc] at inCall
    exact inCall
  cases act with
  | call call => simp [next, away] at step
  | sigpause other => simp [next, away] at step
  | sigsuspend =>
    simp only [next] at step
    split at step
    · rename_i other pc rest
      cases step
      rw [pc] at inCall
      obtain rfl : other = sig := inCall
      exact .suspend pc rest
    · cases step
  | arrive other =>
    cases step
    exact .arrive
  | deliver other =>
    simp only [next, State.deliver] at step
    split at step
    · rename_i able
      split at step
      · rename_i ignored
        cases step
        exact .dropped able.1 ignored
      · split at step
        · cases step
          exact .handled able.1 able.2.1
        · cases step
          exact .killed able.1
    · cases step
  | handlerReturns =>
    simp only [next] at step
    split at step
    · cases step
      exact .returned ‹_›
    · cases step

/-- What holds as long as the call of `my_sigpause`, made in `s`, lasts. -/
structure During (sig : Signal) (s u : State) : Prop where
  sa : u.process.sa = (mySigrelse s.process sig).2.sa
  dispositions : u.process.dispositions = s.process.dispositions
  base : u.pc = .released sig → u.base = s.process.mask \ s.process.sa.mask.erase sig
  suspended : ∀ mask, u.pc = .suspended sig mask → u.frames = [] ∧
    mask = s.process.mask \ s.process.sa.mask.erase sig ∧
    u.process.mask = s.process.sa.mask.erase sig \ unblockable
  /-- A signal that was blocked stays so until `sigsuspend`, and is not handled in the call. -/
  held : sig ∈ s.process.mask → u.pc.pauses sig →
    u.handled.count sig = s.handled.count sig ∧
    (u.pc = .released sig → sig ∈ u.process.mask ∧ ∀ mask ∈ u.frames, sig ∈ mask)

theorem During.start {sig : Signal} {s : State} (noHandler : s.frames = []) :
    During sig s (s.paused sig) where
  sa := rfl
  dispositions := rfl
  base := fun _ => by simp [State.base, State.paused, noHandler, mySigrelse, sigUnblock]
  suspended := fun mask pc => by cases pc
  held := fun blocked _ => by
    refine ⟨rfl, fun _ => ⟨?_, by simp [State.paused, noHandler]⟩⟩
    simp [State.paused, mySigrelse, sigUnblock, blocked]

theorem During.step {sig : Signal} {act : Act} {s u t : State} (h : During sig s u)
    (inCall : u.pc.pauses sig) (step : CallMoves sig u act t) : During sig s t := by
  cases step with
  | suspend pc rest =>
    have base := h.base pc
    rw [State.base, rest, List.getLastD_nil] at base
    refine ⟨h.sa, h.dispositions, ?_, ?_, ?_⟩
    · rintro ⟨⟩
    · rintro mask ⟨⟩
      refine ⟨rest, base, ?_⟩
      rw [State.suspend, h.sa]
      rfl
    · intro blocked _
      exact ⟨(h.held blocked inCall).1, by rintro ⟨⟩⟩
  | arrive => exact ⟨h.sa, h.dispositions, h.base, h.suspended, h.held⟩
  | dropped => exact ⟨h.sa, h.dispositions, h.base, h.suspended, h.held⟩
  | killed =>
    refine ⟨h.sa, h.dispositions, ?_, ?_, ?_⟩
    · rintro ⟨⟩
    · rintro mask ⟨⟩
    · rintro _ ⟨⟩
  | @handled other pending unblocked =>
    cases pc : u.pc with
    | released sig' =>
      rw [pc] at inCall
      obtain rfl : sig' = sig := inCall
      refine ⟨h.sa, h.dispositions, ?_, ?_, ?_⟩
      · intro _
        rw [← h.base pc]
        simp only [State.base, State.enter, State.back, List.getLastD_cons]
      · rintro mask same
        simp [State.enter] at same
      · intro blocked _
        obtain ⟨count, still⟩ := h.held blocked (by rw [pc]; rfl)
        obtain ⟨inMask, inFrames⟩ := still pc
        have differs : other ≠ sig' := fun same => unblocked (same ▸ inMask)
        refine ⟨?_, fun _ => ⟨?_, ?_⟩⟩
        · simp [State.enter, differs, count]
        · simp [State.enter, inMask]
        · intro mask member
          rcases List.mem_cons.mp member with rfl | earlier
          · simpa [State.back, pc] using inMask
          · exact inFrames mask earlier
    | suspended sig' mask =>
      refine ⟨h.sa, h.dispositions, ?_, ?_, ?_⟩
      · intro same
        simp [State.enter] at same
      · intro mask same
        simp [State.enter] at same
      · intro _ still
        simp [State.enter, Pc.pauses] at still
    | caller | terminated =>
      rw [pc] at inCall
      exact inCall.elim
  | @returned mask rest frames =>
    refine ⟨h.sa, h.dispositions, ?_, ?_, ?_⟩
    · intro pc
      rw [← h.base pc]
      simp only [State.base, frames, List.getLastD_cons]
    · intro mask' pc
      have empty := (h.suspended mask' pc).1
      rw [frames] at empty
      cases empty
    · intro blocked _
      obtain ⟨count, still⟩ := h.held blocked inCall
      refine ⟨count, fun pc => ?_⟩
      obtain ⟨-, inFrames⟩ := still pc
      rw [frames] at inFrames
      exact ⟨inFrames mask List.mem_cons_self, fun m member =>
        inFrames m (List.mem_cons_of_mem mask member)⟩

theorem during_of_run {sig : Signal} {s u : State} (noHandler : s.frames = [])
    (run : (signalled.restrict (InCall sig)).Run (s.paused sig) u) : During sig s u := by
  induction run with
  | refl => exact During.start noHandler
  | tail _ step ih =>
    obtain ⟨act, inCall, step⟩ := step
    exact ih.step inCall (next_callMoves inCall step)

/-! ## The wake-up -/

/-- A signal that is not blocked can come, and be handled, before `sigsuspend`. -/
theorem missed_run {sig : Signal} {s : State} {address : Nat} (noHandler : s.frames = [])
    (handler : (s.process.dispositions sig).handler = .function address)
    (free : sig ∉ s.process.mask) :
    ∃ u, (signalled.restrict (InCall sig)).Run (s.paused sig) u ∧ u.pc.pauses sig ∧
      u.handled = s.handled ++ [sig] := by
  let p := s.paused sig
  let came : State := { p with pending := insert sig p.pending }
  let inHandler := { came with pending := came.pending.erase sig }.enter sig
  let back : State := { inHandler with process := p.process, frames := [] }
  have open_ : sig ∉ p.process.mask := by simp [p, State.paused, mySigrelse, sigUnblock, free]
  have calls : (p.process.dispositions sig).handler = .function address := handler
  have acts : p.process.ignores sig = false := by simp [Process.ignores, calls]
  have delivered : next (.deliver sig) came = some inHandler := by
    have able : sig ∈ came.pending ∧ sig ∉ came.process.mask ∧ came.pc ≠ .terminated :=
      ⟨Finset.mem_insert_self sig p.pending, open_, by rintro ⟨⟩⟩
    simp only [next, State.deliver, if_pos able]
    simp [came, acts, calls, inHandler]
  have returned : next .handlerReturns inHandler = some back := by
    have frames : inHandler.frames = [p.process.mask] := by
      simp [inHandler, came, p, State.enter, State.back, State.paused, noHandler]
    simp only [next, frames]
    rfl
  have run : (signalled.restrict (InCall sig)).Run p (back.suspend sig) := by
    have arrives : (signalled.restrict (InCall sig)).step (.arrive sig) p came := ⟨rfl, rfl⟩
    have delivers : (signalled.restrict (InCall sig)).step (.deliver sig) came inHandler :=
      ⟨rfl, delivered⟩
    have returns : (signalled.restrict (InCall sig)).step .handlerReturns inHandler back :=
      ⟨rfl, returned⟩
    have suspends : (signalled.restrict (InCall sig)).step .sigsuspend back (back.suspend sig) :=
      ⟨rfl, rfl⟩
    exact (((Run.refl p).snoc arrives).snoc delivers).snoc returns |>.snoc suspends
  exact ⟨back.suspend sig, run, rfl, rfl⟩

/-- In the call a signal is handled before the wait for it is over, in some run, unless it
was blocked when the call was made. -/
theorem sigpause_holds_signal_iff {sig : Signal} {s : State} {address : Nat}
    (noHandler : s.frames = [])
    (handler : (s.process.dispositions sig).handler = .function address) :
    (∀ u, (signalled.restrict (InCall sig)).Run (s.paused sig) u → u.pc.pauses sig →
      u.handled.count sig = s.handled.count sig) ↔ sig ∈ s.process.mask := by
  constructor
  · intro all
    by_contra free
    obtain ⟨u, run, inCall, handled⟩ := missed_run noHandler handler free
    have same := all u run inCall
    rw [handled, List.count_append, List.count_singleton_self] at same
    omega
  · intro blocked u run inCall
    exact ((during_of_run noHandler run).held blocked inCall).1

/-- SIGINT has a handler and is not held. -/
theorem unheld_interrupt_missed :
    ∃ s, follow next [.call (.sigset SIGINT (.function 0))] State.initial = some s ∧
      ¬ ∀ u, (signalled.restrict (InCall SIGINT)).Run (s.paused SIGINT) u → u.pc.pauses SIGINT →
        u.handled.count SIGINT = s.handled.count SIGINT := by
  have installed : ∃ s, follow next [.call (.sigset SIGINT (.function 0))] State.initial = some s ∧
      s.frames = [] ∧ (s.process.dispositions SIGINT).handler = .function 0 ∧
      SIGINT ∉ s.process.mask := by
    refine ⟨_, rfl, ?_⟩
    decide
  obtain ⟨s, run, noHandler, handler, free⟩ := installed
  exact ⟨s, run, fun all => free ((sigpause_holds_signal_iff noHandler handler).mp all)⟩

/-- The steps of the kernel and of the process itself during the call. -/
def Quiet (sig : Signal) (act : Act) (s : State) : Prop :=
  InCall sig act s ∧ ∀ other, act ≠ .arrive other

/-- What is left to do before the call can only wait. -/
def State.work (s : State) : Nat :=
  2 * s.pending.card + s.frames.length + match s.pc with
    | .released _ => 1
    | _ => 0

theorem CallMoves.work_lt {sig : Signal} {act : Act} {s t : State} (step : CallMoves sig s act t)
    (quiet : ∀ other, act ≠ .arrive other) : t.work < s.work := by
  have card {other : Signal} (pending : other ∈ s.pending) :
      (s.pending.erase other).card + 1 = s.pending.card :=
    Finset.card_erase_add_one pending
  cases step with
  | suspend pc => simp [State.work, State.suspend, pc]
  | @arrive other => exact absurd rfl (quiet other)
  | dropped pending =>
    have less := card pending
    simp only [State.work]
    omega
  | handled pending =>
    have less := card pending
    cases pc : s.pc <;> simp only [State.work, State.enter, pc, List.length_cons] <;> omega
  | killed pending =>
    have less := card pending
    simp only [State.work]
    omega
  | returned frames => simp [State.work, frames]

/-- The signal that the call waits for has come, and stays until it ends the call. -/
structure Awaited (sig : Signal) (s u : State) : Prop where
  during : During sig s u
  pending : u.pc.pauses sig → sig ∈ u.pending

section
variable {sig : Signal} {s u : State}

theorem During.ignores (h : During sig s u) (other : Signal) :
    u.process.ignores other = s.process.ignores other := by
  simp only [Process.ignores, h.dispositions]

theorem Awaited.step {act : Act} {t : State} (h : Awaited sig s u)
    (blocked : sig ∈ s.process.mask) (heeded : s.process.ignores sig = false)
    (inCall : u.pc.pauses sig) (step : CallMoves sig u act t) : Awaited sig s t := by
  refine ⟨h.during.step inCall step, ?_⟩
  have pending := h.pending inCall
  cases step with
  | suspend => exact fun _ => pending
  | arrive => exact fun _ => Finset.mem_insert_of_mem pending
  | @dropped other _ ignored =>
    intro _
    have differs : sig ≠ other := by
      rintro rfl
      rw [h.during.ignores, heeded] at ignored
      cases ignored
    exact Finset.mem_erase.mpr ⟨differs, pending⟩
  | @handled other _ unblocked =>
    intro still
    cases pc : u.pc with
    | released sig' =>
      rw [pc] at inCall
      obtain rfl : sig' = sig := inCall
      obtain ⟨inMask, -⟩ := (h.during.held blocked (by rw [pc]; rfl)).2 pc
      have differs : sig' ≠ other := by
        rintro rfl
        exact unblocked inMask
      exact Finset.mem_erase.mpr ⟨differs, pending⟩
    | suspended sig' mask => simp [State.enter, pc, Pc.pauses] at still
    | caller | terminated =>
      rw [pc] at inCall
      exact inCall.elim
  | killed => exact fun still => still.elim
  | returned => exact fun _ => pending

/-- As long as the call lasts some step is possible. -/
theorem Awaited.moves (h : Awaited sig s u) (inCall : u.pc.pauses sig) :
    ∃ act t, (signalled.restrict (Quiet sig)).step act u t := by
  cases pc : u.pc with
  | released sig' =>
    cases frames : u.frames with
    | nil =>
      refine ⟨.sigsuspend, u.suspend sig', ⟨inCall, by simp⟩, ?_⟩
      change next .sigsuspend u = _
      simp [next, pc, frames]
    | cons mask rest =>
      refine ⟨.handlerReturns,
        { u with process := { u.process with mask }, frames := rest }, ⟨inCall, by simp⟩, ?_⟩
      change next .handlerReturns u = _
      simp [next, frames]
  | suspended sig' mask =>
    rw [pc] at inCall
    obtain rfl : sig' = sig := inCall
    have pending := h.pending (by rw [pc]; rfl)
    obtain ⟨-, -, suspended⟩ := h.during.suspended mask pc
    have able : sig' ∈ u.pending ∧ sig' ∉ u.process.mask ∧ u.pc ≠ .terminated := by
      refine ⟨pending, ?_, by simp [pc]⟩
      rw [suspended]
      simp
    have delivered : ∃ t, next (.deliver sig') u = some t := by
      simp only [next, State.deliver, if_pos able]
      split
      · exact ⟨_, rfl⟩
      · split
        · exact ⟨_, rfl⟩
        · exact ⟨_, rfl⟩
    obtain ⟨t, step⟩ := delivered
    exact ⟨.deliver sig', t, ⟨by rw [InCall, pc]; rfl, by simp⟩, step⟩
  | caller | terminated =>
    rw [pc] at inCall
    exact inCall.elim

/-- The call waits with the recorded signals blocked, apart from its own, and puts the mask
back from which `my_sigrelse` has taken them. A signal that was blocked before the call and
comes at any time ends it. -/
theorem sigpause_returns (noHandler : s.frames = []) (blocked : sig ∈ s.process.mask)
    (heeded : s.process.ignores sig = false)
    (run : (signalled.restrict (InCall sig)).Run (s.paused sig) u) :
    (∀ mask, u.pc = .suspended sig mask →
      u.process.mask = s.process.sa.mask.erase sig \ unblockable ∧
      mask = s.process.mask \ s.process.sa.mask.erase sig) ∧
    (sig ∈ u.pending → Inevitable (signalled.restrict (Quiet sig))
      (fun t : State => ¬ t.pc.pauses sig) u) := by
  have during := during_of_run noHandler run
  constructor
  · intro mask pc
    obtain ⟨-, back, suspended⟩ := during.suspended mask pc
    exact ⟨suspended, back⟩
  · intro pending
    refine Inevitable.of_measure (Awaited sig s) Nat.lt_wfRel.wf State.work ?_ ?_ u
      ⟨during, fun _ => pending⟩
    · intro t awaited still
      exact awaited.moves (not_not.mp still)
    · rintro act r t awaited ⟨⟨inCall, quiet⟩, step⟩
      have moves := next_callMoves inCall step
      exact ⟨awaited.step blocked heeded inCall moves, moves.work_lt quiet⟩

end

/-- `example.c`: SIGINT is held, comes in the `sleep`, and then ends the process in
`my_sigpause`. -/
theorem held_interrupt_ends_pause :
    ∃ u, u.pc = .released SIGINT ∧ Inevitable (signalled.restrict (Quiet SIGINT))
      (fun t : State => ¬ t.pc.pauses SIGINT) u := by
  have sleeping : ∃ s, follow next [.call (.sighold SIGINT), .arrive SIGINT] State.initial = some s ∧
      s.frames = [] ∧ SIGINT ∈ s.process.mask ∧ s.process.ignores SIGINT = false ∧
      SIGINT ∈ s.pending := by
    refine ⟨_, rfl, ?_⟩
    decide
  obtain ⟨s, -, noHandler, blocked, heeded, pending⟩ := sleeping
  exact ⟨s.paused SIGINT, rfl,
    (sigpause_returns noHandler blocked heeded (.refl (s.paused SIGINT))).2 pending⟩

end SystemV
