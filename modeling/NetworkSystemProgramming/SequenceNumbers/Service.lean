import Mathlib.Algebra.Group.Nat.Defs
import Mathlib.Algebra.Group.Int.Defs
import NetworkSystemProgramming.StepSystems

/-!
# The sequence-number service

`fifo_seqnum_server.c` and `fifo_seqnum_client_normal.c` in the version of 44-6 and in
that of 44-7, which opens every FIFO with `O_NONBLOCK`. A request or a response is
written and read as a whole. What the kernel answers is part of the label of a step:
whether `open` and `write` on a client FIFO succeed.
-/

namespace SequenceNumbers

open StepSystems StepSystem

inductive Version where
  | blocking
  | nonblocking
  deriving DecidableEq

def INT_MAX : Int := 2147483647

/-- Addition of two ints. -/
def addInt (a b : Int) : Int := (a + b).bmod (2 ^ 32)

/-- `struct request`. -/
structure Request where
  pid : Nat
  seqLen : Int
  deriving DecidableEq

/-- The name that `snprintf` builds from `CLIENT_FIFO_TEMPLATE`. -/
def clientFifo (pid : Nat) : String := "/tmp/seqnum_cl." ++ Nat.repr pid

inductive ServerPc where
  | read
  | openFifo
  | write
  | close
  | advance
  deriving DecidableEq

structure Server where
  pc : ServerPc
  req : Request
  /-- The client FIFO that is open for writing, `none` for -1. -/
  clientFd : Option String
  seqNum : Int

inductive ClientPc where
  | mkfifo
  | send
  | openFifo
  | opening
  | read
  | exited
  deriving DecidableEq

/-- Past the `write` of the request. -/
def ClientPc.hasSent : ClientPc → Prop
  | .mkfifo => False
  | .send => False
  | _ => True

structure Client where
  pc : ClientPc
  received : List Int

/-- A response that was written, with the request it answers. -/
structure Delivery where
  seqNum : Int
  request : Request

structure State where
  server : Server
  /-- The content of `SERVER_FIFO`. -/
  requests : List Request
  /-- The requests that the server is done with. -/
  handled : List Request
  clients : Nat → Client
  /-- The content of each client FIFO. -/
  fifo : String → List Int
  delivered : List Delivery

/-- The clients by pid, with the length that each one asks for. -/
structure Population where
  clients : List Request
  distinct : (clients.map Request.pid).Nodup
  /-- `getInt` is called with `GN_GT_0`. -/
  positive : ∀ r ∈ clients, 0 < r.seqLen

def Population.request (pop : Population) (pid : Nat) : Option Request :=
  pop.clients.find? (·.pid = pid)

inductive Act where
  | readRequest
  | readFails
  | openClient (ok : Bool)
  | writeResponse (ok : Bool)
  | closeClient
  | advance
  | client (pid : Nat)
  | killed (pid : Nat)
  deriving DecidableEq

/-- An `open` for reading returns once there is a writer. -/
def wake (name : String) (clients : Nat → Client) (pid : Nat) : Client :=
  if clientFifo pid = name ∧ (clients pid).pc = .opening then { clients pid with pc := .read }
  else clients pid

/-- Back to the loop head, with the request in `handled`. -/
def State.toLoopHead (s : State) : State :=
  { s with
    server := { s.server with pc := .read, clientFd := none }
    handled := s.handled ++ [s.server.req] }

def openClient (v : Version) (ok : Bool) (s : State) : State :=
  let name := clientFifo s.server.req.pid
  if ok then
    { s with
      server := { s.server with pc := .write, clientFd := some name }
      clients := wake name s.clients }
  else match v with
    | .blocking => s.toLoopHead
    | .nonblocking => { s with server := { s.server with pc := .write, clientFd := none } }

/-- A `write` to the descriptor -1 cannot succeed. -/
def writeResponse (ok : Bool) (s : State) : Option State :=
  match ok, s.server.clientFd with
  | true, some name =>
    some { s with
      server := { s.server with pc := .close }
      fifo := Function.update s.fifo name (s.fifo name ++ [s.server.seqNum])
      delivered := s.delivered ++ [⟨s.server.seqNum, s.server.req⟩] }
  | true, none => none
  | false, _ => some { s with server := { s.server with pc := .close } }

def serverStep (v : Version) (act : Act) (s : State) : Option State :=
  match s.server.pc, act with
  | .read, .readRequest =>
    match s.requests with
    | [] => none
    | r :: rest =>
      some { s with server := { s.server with pc := .openFifo, req := r }, requests := rest }
  | .read, .readFails => some s
  | .openFifo, .openClient ok => some (openClient v ok s)
  | .write, .writeResponse ok => writeResponse ok s
  | .close, .closeClient =>
    some { s with server := { s.server with pc := .advance, clientFd := none } }
  | .advance, .advance =>
    some { s with server :=
      { s.server with seqNum := addInt s.server.seqNum s.server.req.seqLen } }.toLoopHead
  | _, _ => none

def State.setClient (s : State) (pid : Nat) (c : Client) : State :=
  { s with clients := Function.update s.clients pid c }

/-- One statement of the client that sends `r`. A `read` waits for a response, and
returns 0 when nothing is there and no writer either; the client of 44-7 then reads
again. -/
def clientStep (v : Version) (r : Request) (s : State) : Option State :=
  let c := s.clients r.pid
  let name := clientFifo r.pid
  match c.pc with
  | .mkfifo => some (s.setClient r.pid { c with pc := .send })
  | .send =>
    some ({ s with requests := s.requests ++ [r] }.setClient r.pid { c with pc := .openFifo })
  | .openFifo =>
    some (s.setClient r.pid { c with
      pc := if v = .nonblocking ∨ s.server.clientFd = some name then .read else .opening })
  | .opening => none
  | .read =>
    match s.fifo name with
    | n :: rest =>
      some ({ s with fifo := Function.update s.fifo name rest }.setClient r.pid
        ⟨.exited, c.received ++ [n]⟩)
    | [] =>
      if v = .blocking ∧ s.server.clientFd ≠ some name then
        some (s.setClient r.pid { c with pc := .exited })
      else none
  | .exited => none

def next (v : Version) (pop : Population) (act : Act) (s : State) : Option State :=
  match act with
  | .client pid => (pop.request pid).bind fun r => clientStep v r s
  | .killed pid => some (s.setClient pid { s.clients pid with pc := .exited })
  | act => serverStep v act s

def State.initial : State where
  server := ⟨.read, ⟨0, 0⟩, none, 0⟩
  requests := []
  handled := []
  clients := fun _ => ⟨.mkfifo, []⟩
  fifo := fun _ => []
  delivered := []

/-- The server and its clients, with any answers of the kernel. -/
def service (v : Version) (pop : Population) : StepSystem State Act :=
  ofNext (· = State.initial) (next v pop)

/-- What a step can do to the state. -/
inductive Moves (v : Version) (pop : Population) (s : State) : Act → State → Prop
  | readRequest {r rest} (pc : s.server.pc = .read) (queue : s.requests = r :: rest) :
      Moves v pop s .readRequest
        { s with server := { s.server with pc := .openFifo, req := r }, requests := rest }
  | readFails (pc : s.server.pc = .read) : Moves v pop s .readFails s
  | opened (pc : s.server.pc = .openFifo) :
      Moves v pop s (.openClient true) { s with
        server := { s.server with
          pc := .write
          clientFd := some (clientFifo s.server.req.pid) }
        clients := wake (clientFifo s.server.req.pid) s.clients }
  | gaveUp (pc : s.server.pc = .openFifo) (version : v = .blocking) :
      Moves v pop s (.openClient false) s.toLoopHead
  | wentOn (pc : s.server.pc = .openFifo) (version : v = .nonblocking) :
      Moves v pop s (.openClient false)
        { s with server := { s.server with pc := .write, clientFd := none } }
  | wrote {name} (pc : s.server.pc = .write) (fd : s.server.clientFd = some name) :
      Moves v pop s (.writeResponse true) { s with
        server := { s.server with pc := .close }
        fifo := Function.update s.fifo name (s.fifo name ++ [s.server.seqNum])
        delivered := s.delivered ++ [⟨s.server.seqNum, s.server.req⟩] }
  | writeFailed (pc : s.server.pc = .write) :
      Moves v pop s (.writeResponse false) { s with server := { s.server with pc := .close } }
  | closed (pc : s.server.pc = .close) :
      Moves v pop s .closeClient
        { s with server := { s.server with pc := .advance, clientFd := none } }
  | advanced (pc : s.server.pc = .advance) :
      Moves v pop s .advance { s with server :=
        { s.server with seqNum := addInt s.server.seqNum s.server.req.seqLen } }.toLoopHead
  | created {pid} (pc : (s.clients pid).pc = .mkfifo) :
      Moves v pop s (.client pid) (s.setClient pid { s.clients pid with pc := .send })
  | sent {r} (client : r ∈ pop.clients) (pc : (s.clients r.pid).pc = .send) :
      Moves v pop s (.client r.pid) ({ s with requests := s.requests ++ [r] }.setClient r.pid
        { s.clients r.pid with pc := .openFifo })
  | opens {pid pc'} (pc : (s.clients pid).pc = .openFifo) (waits : pc' = .opening ∨ pc' = .read) :
      Moves v pop s (.client pid) (s.setClient pid { s.clients pid with pc := pc' })
  | received {pid n rest} (pc : (s.clients pid).pc = .read)
      (response : s.fifo (clientFifo pid) = n :: rest) :
      Moves v pop s (.client pid)
        ({ s with fifo := Function.update s.fifo (clientFifo pid) rest }.setClient
          pid ⟨.exited, (s.clients pid).received ++ [n]⟩)
  | ended {act pid} (side : act = .client pid ∨ act = .killed pid) :
      Moves v pop s act (s.setClient pid { s.clients pid with pc := .exited })

theorem serverStep_moves {v : Version} {pop : Population} {act : Act} {s t : State}
    (h : serverStep v act s = some t) : Moves v pop s act t := by
  unfold serverStep at h
  split at h
  case h_1 pc =>
    split at h
    · cases h
    · cases h
      exact .readRequest pc ‹_›
  case h_2 pc =>
    cases h
    exact .readFails pc
  case h_3 ok pc =>
    cases h
    cases ok with
    | true => exact .opened pc
    | false =>
      cases v with
      | blocking => exact .gaveUp pc rfl
      | nonblocking => exact .wentOn pc rfl
  case h_4 ok pc =>
    unfold writeResponse at h
    split at h <;> cases h
    · exact .wrote pc ‹_›
    · exact .writeFailed pc
  case h_5 pc =>
    cases h
    exact .closed pc
  case h_6 pc =>
    cases h
    exact .advanced pc
  case h_7 => cases h

theorem clientStep_moves {v : Version} {pop : Population} {r : Request} {s t : State}
    (client : r ∈ pop.clients) (h : clientStep v r s = some t) :
    Moves v pop s (.client r.pid) t := by
  cases pc : (s.clients r.pid).pc with
  | mkfifo =>
    simp only [clientStep, pc] at h
    cases h
    exact .created pc
  | send =>
    simp only [clientStep, pc] at h
    cases h
    exact .sent client pc
  | openFifo =>
    simp only [clientStep, pc] at h
    cases h
    refine .opens pc ?_
    split
    · exact Or.inr rfl
    · exact Or.inl rfl
  | opening => simp [clientStep, pc] at h
  | read =>
    simp only [clientStep, pc] at h
    split at h
    · cases h
      exact .received pc ‹_›
    · split at h
      · cases h
        exact .ended (Or.inl rfl)
      · cases h
  | exited => simp [clientStep, pc] at h

theorem next_moves {v : Version} {pop : Population} {act : Act} {s t : State}
    (h : next v pop act s = some t) : Moves v pop s act t := by
  cases act with
  | client pid =>
    obtain ⟨r, found, step⟩ := Option.bind_eq_some_iff.mp h
    obtain rfl : r.pid = pid := by simpa using List.find?_some found
    exact clientStep_moves (List.mem_of_find?_eq_some found) step
  | killed pid =>
    cases h
    exact .ended (Or.inr rfl)
  | readRequest | readFails | openClient ok | writeResponse ok | closeClient | advance =>
    exact serverStep_moves h

end SequenceNumbers
