import NetworkSystemProgramming.SequenceNumbers.Service

/-!
# Every request is sent once

The requests that the server is done with, the one it works on and those in the server
FIFO are together the requests sent, in the order of the writes.
-/

namespace SequenceNumbers

open StepSystems StepSystem

variable {v : Version} {pop : Population} {act : Act} {s t : State}

/-- The request that the server works on. -/
def State.current (s : State) : List Request := if s.server.pc = .read then [] else [s.server.req]

def State.sent (s : State) : List Request := s.handled ++ s.current ++ s.requests

structure Requests (pop : Population) (s : State) : Prop where
  known : ∀ r ∈ s.sent, r ∈ pop.clients
  past : ∀ r ∈ s.sent, (s.clients r.pid).pc.hasSent
  once : (s.sent.map Request.pid).Nodup

theorem current_busy (pc : s.server.pc ≠ .read) : s.current = [s.server.req] := if_neg pc

theorem current_mem_sent (busy : s.server.pc ≠ .read) : s.server.req ∈ s.sent := by
  simp [State.sent, current_busy busy]

/-- A request leaves the server's hands at the loop head. -/
theorem sent_toLoopHead (pc : s.server.pc ≠ .read) : s.toLoopHead.sent = s.sent := by
  rw [State.sent, State.sent, current_busy pc]
  simp [State.toLoopHead, State.current]

theorem wake_pc (name : String) (clients : Nat → Client) (pid : Nat) :
    ((wake name clients pid).pc = (clients pid).pc) ∨
      (clientFifo pid = name ∧ (clients pid).pc = .opening ∧ (wake name clients pid).pc = .read) := by
  by_cases waits : clientFifo pid = name ∧ (clients pid).pc = .opening
  · right
    exact ⟨waits.1, waits.2, by simp [wake, waits]⟩
  · left
    simp only [wake, if_neg waits]

theorem setClient_self (s : State) (pid : Nat) (c : Client) :
    (s.setClient pid c).clients pid = c := by
  simp [State.setClient]

theorem setClient_other (s : State) {pid other : Nat} (c : Client) (ne : other ≠ pid) :
    (s.setClient pid c).clients other = s.clients other := by
  simp [State.setClient, ne]

theorem Requests.of_same (requests : Requests pop s) (same : t.sent = s.sent)
    (kept : ∀ pid, (s.clients pid).pc.hasSent → (t.clients pid).pc.hasSent) :
    Requests pop t where
  known := by
    rw [same]
    exact requests.known
  past := by
    intro r hr
    rw [same] at hr
    exact kept _ (requests.past r hr)
  once := by
    rw [same]
    exact requests.once

theorem Requests.of_setClient {pid : Nat} {c : Client} (requests : Requests pop s)
    (kept : (s.clients pid).pc.hasSent → c.pc.hasSent) : Requests pop (s.setClient pid c) := by
  refine requests.of_same rfl ?_
  intro other before
  by_cases self : other = pid
  · subst self
    rw [setClient_self]
    exact kept before
  · rw [setClient_other s c self]
    exact before

/-- A client that has not sent yet has no request on its way. -/
theorem Requests.fresh {pid : Nat} (requests : Requests pop s)
    (pc : ¬ (s.clients pid).pc.hasSent) : pid ∉ s.sent.map Request.pid := by
  intro member
  obtain ⟨r, hr, rfl⟩ := List.mem_map.mp member
  exact pc (requests.past r hr)

/-- The `write` of a request appends it. -/
theorem Requests.of_sent {r : Request} (requests : Requests pop s) (client : r ∈ pop.clients)
    (fresh : r.pid ∉ s.sent.map Request.pid) :
    Requests pop ({ s with requests := s.requests ++ [r] }.setClient r.pid
      { s.clients r.pid with pc := .openFifo }) := by
  have appended : ({ s with requests := s.requests ++ [r] }.setClient r.pid
      { s.clients r.pid with pc := .openFifo }).sent = s.sent ++ [r] := by
    simp only [State.sent, State.setClient, List.append_assoc]
    rfl
  constructor
  · intro r' hr'
    rw [appended, List.mem_append, List.mem_singleton] at hr'
    rcases hr' with old | rfl
    · exact requests.known r' old
    · exact client
  · intro r' hr'
    rw [appended, List.mem_append, List.mem_singleton] at hr'
    rcases hr' with old | rfl
    · have other : r'.pid ≠ r.pid := by
        intro same
        exact fresh (List.mem_map.mpr ⟨r', old, same⟩)
      rw [setClient_other _ _ other]
      exact requests.past r' old
    · rw [setClient_self]
      trivial
  · rw [appended, List.map_append, List.nodup_append]
    refine ⟨requests.once, by simp, ?_⟩
    rintro pid old _ new rfl
    rw [List.map_singleton, List.mem_singleton] at new
    exact fresh (new ▸ old)

theorem Requests.step (requests : Requests pop s) (step : Moves v pop s act t) :
    Requests pop t := by
  cases step with
  | readRequest pc queue =>
    refine requests.of_same ?_ (fun _ h => h)
    simp [State.sent, State.current, pc, queue]
  | readFails => exact requests
  | opened pc =>
    refine requests.of_same ?_ ?_
    · simp [State.sent, State.current, pc]
    · intro pid before
      rcases wake_pc (clientFifo s.server.req.pid) s.clients pid with same | ⟨-, -, now⟩
      · simp only [same]
        exact before
      · simp only [now]
        trivial
  | gaveUp pc => exact requests.of_same (sent_toLoopHead (by simp [pc])) (fun _ h => h)
  | wentOn pc =>
    refine requests.of_same ?_ (fun _ h => h)
    simp [State.sent, State.current, pc]
  | wrote pc fd =>
    refine requests.of_same ?_ (fun _ h => h)
    simp [State.sent, State.current, pc]
  | writeFailed pc =>
    refine requests.of_same ?_ (fun _ h => h)
    simp [State.sent, State.current, pc]
  | closed pc =>
    refine requests.of_same ?_ (fun _ h => h)
    simp [State.sent, State.current, pc]
  | advanced pc =>
    refine requests.of_same ?_ (fun _ h => h)
    rw [sent_toLoopHead (by simp [pc])]
    rfl
  | created pc =>
    apply requests.of_setClient
    rw [pc]
    exact False.elim
  | @sent r client pc =>
    have fresh : r.pid ∉ s.sent.map Request.pid := requests.fresh (by simp [pc, ClientPc.hasSent])
    exact requests.of_sent client fresh
  | opens pc waits =>
    apply requests.of_setClient
    rcases waits with rfl | rfl <;> simp [ClientPc.hasSent]
  | @received pid n rest pc response =>
    have same : Requests pop { s with fifo := Function.update s.fifo (clientFifo pid) rest } :=
      requests.of_same rfl (fun _ h => h)
    exact same.of_setClient (fun _ => trivial)
  | ended => exact requests.of_setClient (fun _ => trivial)

theorem Requests.start : Requests pop State.initial where
  known _ hr := absurd hr List.not_mem_nil
  past _ hr := absurd hr List.not_mem_nil
  once := List.nodup_nil

end SequenceNumbers
