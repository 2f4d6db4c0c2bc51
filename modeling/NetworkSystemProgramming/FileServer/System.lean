import NetworkSystemProgramming.StepSystems
import NetworkSystemProgramming.FileServer.Messages

/-!
# The queue file server and its clients

`main` of `svmsg_file_server.c` with the children it forks, and any number of clients.
Every client opens its response queue by the name "/MSG12", and so does every child. A
name refers to a queue until it is unlinked; the queue itself stays for those who have
it open. The clients are told apart by an index, which is also the request that a
client sends. System calls fail in the ways that the state of the queues accounts for.
-/

namespace FileServer

open ByteBuffers StepSystems StepSystem

variable {I : Type} [DecidableEq I]

/-- `mq_maxmsg` of both queues. -/
def MAXMSG : Nat := 20

/-- A message in a response queue, with the request that its sender handles. -/
structure Tagged (I : Type) where
  sender : I
  message : Message

inductive ClientPc where
  | openServer
  | openResp
  | send
  | recv
  | exiting
  | exited
  | refused
  deriving DecidableEq

structure Client (I : Type) where
  pc : ClientPc
  resp : ResponseMsg
  clientId : Option Nat
  received : List (Tagged I)

inductive ServerPc (I : Type) where
  | receive
  | fork (req : I)
  deriving DecidableEq

inductive ChildPc where
  | openResp
  | serve
  | exiting
  | exited
  deriving DecidableEq

/-- A child of the server, with the messages it has still to send. -/
structure Child where
  pc : ChildPc
  clientId : Option Nat
  todo : List Message

structure State (I : Type) where
  /-- Whether "/MSG11" is linked. -/
  serverLinked : Bool
  requests : List I
  server : ServerPc I
  /-- The queue that "/MSG12" refers to. -/
  respName : Option Nat
  queues : Nat → List (Tagged I)
  nextId : Nat
  clients : I → Client I
  children : I → Option Child

/-- The files that the clients ask for, and what the structures of both sides hold
before they are used. -/
structure World (I : Type) where
  file : I → Option (List (List Byte))
  clientResp : I → ResponseMsg
  childResp : I → ResponseMsg

inductive Act (I : Type) where
  | client (c : I)
  | server
  | child (c : I)
  deriving DecidableEq

def State.setClient (s : State I) (c : I) (client : Client I) : State I :=
  { s with clients := Function.update s.clients c client }

def State.setChild (s : State I) (c : I) (child : Child) : State I :=
  { s with children := Function.update s.children c (some child) }

def State.setQueue (s : State I) (q : Nat) (content : List (Tagged I)) : State I :=
  { s with queues := Function.update s.queues q content }

@[simp] theorem setClient_self (s : State I) (c : I) (client : Client I) :
    (s.setClient c client).clients c = client := by
  simp [State.setClient]

theorem setClient_other (s : State I) {c d : I} (client : Client I) (ne : d ≠ c) :
    (s.setClient c client).clients d = s.clients d := by
  simp [State.setClient, ne]

@[simp] theorem setChild_self (s : State I) (c : I) (child : Child) :
    (s.setChild c child).children c = some child := by
  simp [State.setChild]

theorem setChild_other (s : State I) {c d : I} (child : Child) (ne : d ≠ c) :
    (s.setChild c child).children d = s.children d := by
  simp [State.setChild, ne]

omit [DecidableEq I] in
@[simp] theorem setQueue_self (s : State I) (q : Nat) (content : List (Tagged I)) :
    (s.setQueue q content).queues q = content := by
  simp [State.setQueue]

/-- One statement of a client. `removeQueue` runs at its exit. -/
def clientStep (c : I) (s : State I) : Option (State I) :=
  let client := s.clients c
  match client.pc with
  | .openServer =>
    some (s.setClient c { client with pc := if s.serverLinked then .openResp else .refused })
  | .openResp =>
    match s.respName with
    | some q => some (s.setClient c { client with pc := .send, clientId := some q })
    | none =>
      some ({ s.setQueue s.nextId [] with
        respName := some s.nextId
        nextId := s.nextId + 1 }.setClient c { client with pc := .send, clientId := some s.nextId })
  | .send =>
    if s.requests.length < MAXMSG then
      some ({ s with requests := s.requests ++ [c] }.setClient c { client with pc := .recv })
    else none
  | .recv =>
    match client.clientId with
    | none => none
    | some q =>
      match s.queues q with
      | [] => none
      | m :: rest =>
        let resp := mqReceive client.resp m.message.wire
        some ((s.setQueue q rest).setClient c { client with
          pc := if mtype resp = RESP_MT_DATA then .recv else .exiting
          resp
          received := client.received ++ [m] })
  | .exiting => some ({ s with respName := none }.setClient c { client with pc := .exited })
  | .exited => none
  | .refused => none

/-- One statement of the server's main loop. -/
def serverStep (w : World I) (s : State I) : Option (State I) :=
  match s.server with
  | .receive =>
    match s.requests with
    | [] => none
    | c :: rest => some { s with requests := rest, server := .fork c }
  | .fork c =>
    some ({ s with server := .receive }.setChild c
      ⟨.openResp, none, serveRequest (w.file c) (w.childResp c)⟩)

/-- One statement of the child that handles the request of `c`. It opens the response
queue without O_CREAT. When `mq_send` fails it leaves the loop over the file. After a
failed `open` it calls `exit`, which runs the server's `removeQueue`. -/
def childStep (w : World I) (c : I) (child : Child) (s : State I) : Option (State I) :=
  match child.pc with
  | .openResp => some (s.setChild c { child with pc := .serve, clientId := s.respName })
  | .serve =>
    match child.todo with
    | [] => some (s.setChild c { child with pc := .exiting })
    | m :: rest =>
      match child.clientId with
      | none =>
        some (s.setChild c { child with todo := rest.dropWhile (·.mtype = RESP_MT_DATA) })
      | some q =>
        if (s.queues q).length < MAXMSG then
          some ((s.setQueue q (s.queues q ++ [⟨c, m⟩])).setChild c { child with todo := rest })
        else none
  | .exiting =>
    some ({ s with serverLinked := s.serverLinked && (w.file c).isSome }.setChild c
      { child with pc := .exited })
  | .exited => none

def next (w : World I) (act : Act I) (s : State I) : Option (State I) :=
  match act with
  | .client c => clientStep c s
  | .server => serverStep w s
  | .child c => (s.children c).bind fun child => childStep w c child s

def State.initial (w : World I) : State I where
  serverLinked := true
  requests := []
  server := .receive
  respName := none
  queues := fun _ => []
  nextId := 0
  clients := fun c => ⟨.openServer, w.clientResp c, none, []⟩
  children := fun _ => none

def fileService (w : World I) : StepSystem (State I) (Act I) :=
  ofNext (· = State.initial w) (next w)

end FileServer
