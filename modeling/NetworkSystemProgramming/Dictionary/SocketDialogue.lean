import NetworkSystemProgramming.StepSystems
import NetworkSystemProgramming.Dictionary.BinaryLookup

/-!
# Lookup over a stream socket

The client (`main.c` with `lookup7.c` or `lookup8.c`) and the server
(`usock_server.c` or `isock_server.c` with `lookup5.c`): the two pairs differ in
the address of the socket only. The server forks a child for each connection, so
one connection is one client, its child and the bytes under way between them.
-/

namespace Dictionary

open ByteBuffers StepSystems StepSystem

/-- The reply "XXXX". -/
def notFoundText : List Byte := [88, 88, 88, 88]

/-- `strcpy(tryit->text,"XXXX")`. -/
theorem put_notFoundText (b : Buffer TEXT) :
    ∃ text, b.put (notFoundText ++ [0]) = some text ∧ text.str = notFoundText :=
  b.put_string (by decide) (by decide)

def Dictrec.zero : Dictrec := ⟨Buffer.zero WORD, Buffer.zero TEXT⟩

inductive ClientPc where
  | gets
  | connect
  | send
  | recv
  | compare
  | clear
  | finished
  deriving DecidableEq

/-- `main` and the static `first_time` of its `lookup`. The histories are the lines
read and the results of `lookup`, with the text that `main` prints. -/
structure Client where
  pc : ClientPc
  firstTime : Bool
  tryit : Dictrec
  stdin : List (List Byte)
  asked : List (List Byte)
  results : List (Int × List Byte)
  deriving DecidableEq

inductive ChildPc where
  | recv
  | lookup
  | send
  | clear
  | exited
  deriving DecidableEq

/-- The server process of one connection. -/
structure Child where
  pc : ChildPc
  tryit : Dictrec
  statics : Lookup5
  deriving DecidableEq

/-- The sends of each side that the other one has not received, oldest first. -/
structure Connection where
  client : Client
  child : Option Child
  toServer : List (List Byte)
  toClient : List (List Byte)
  deriving DecidableEq

inductive Act where
  | client
  | clientRecv (count : Nat)
  | accept
  | server
  | serverRecv (count : Nat)
  | clientSigpipe
  | serverSigpipe
  deriving DecidableEq

/-- A send of no bytes delivers nothing. -/
def deliver (channel : List (List Byte)) (block : List Byte) : List (List Byte) :=
  if block = [] then channel else channel ++ [block]

def dropBytes : Nat → List (List Byte) → List (List Byte)
  | _, [] => []
  | count, block :: rest =>
    if count < block.length then block.drop count :: rest
    else dropBytes (count - block.length) rest

/-- `recv` into a buffer of `size` bytes: some of the bytes under way, or 0 when there
are none and the other side is gone. -/
def recv (size count : Nat) (channel : List (List Byte)) (peerGone : Bool) :
    Option (List Byte × List (List Byte)) :=
  if channel.flatten = [] then
    if count = 0 ∧ peerGone = true then some ([], channel) else none
  else if 0 < count ∧ count ≤ size ∧ count ≤ channel.flatten.length then
    some (channel.flatten.take count, dropBytes count channel)
  else none

def clientGone (c : Connection) : Bool := c.client.pc = .finished

def childGone (c : Connection) : Bool :=
  match c.child with
  | none => false
  | some child => child.pc = .exited

/-- What `lookup` of the client returns for the text received. -/
def replyStatus (text : Buffer TEXT) : Int :=
  if strcmp text.bytes (notFoundText ++ [0]) ≠ .eq then FOUND else NOTFOUND

/-- One statement of the client other than `recv`. -/
def clientStep (c : Client) (toServer : List (List Byte)) : Option (Client × List (List Byte)) :=
  match c.pc with
  | .gets =>
    match c.stdin with
    | [] => some ({ c with pc := .finished }, toServer)
    | q :: rest =>
      (c.tryit.word.put (q ++ [0])).map fun word =>
        ({ c with
          pc := if c.firstTime then .connect else .send
          tryit := { c.tryit with word }
          stdin := rest
          asked := c.asked ++ [q] }, toServer)
  | .connect => some ({ c with pc := .send, firstTime := false }, toServer)
  | .send => some ({ c with pc := .recv }, deliver toServer c.tryit.word.str)
  | .recv => none
  | .compare =>
    some ({ c with
      pc := .clear
      results := c.results ++ [(replyStatus c.tryit.text, c.tryit.text.str)] }, toServer)
  | .clear => some ({ c with pc := .gets, tryit := Dictrec.zero }, toServer)
  | .finished => none

/-- The `switch` over the result of the lookup in the server. -/
def answer (child : Child) (status : Int) : Option Child :=
  if status = FOUND then some { child with pc := .send }
  else if status = NOTFOUND then
    (child.tryit.text.put (notFoundText ++ [0])).map fun text =>
      { child with pc := .send, tryit := { child.tryit with text } }
  else if status = UNAVAIL then some { child with pc := .exited }
  else some { child with pc := .clear }

/-- One statement of the child other than `recv`. -/
def childStep (resource : Option (List Byte)) (child : Child) (toClient : List (List Byte)) :
    Option (Child × List (List Byte)) :=
  match child.pc with
  | .recv => none
  | .lookup =>
    match lookup5 child.statics resource child.tryit with
    | .ok (status, tryit, statics) =>
      (answer { child with tryit, statics } status).map fun child => (child, toClient)
    | .error (.exit _) => some ({ child with pc := .exited }, toClient)
    | .error .undefined => none
  | .send => some ({ child with pc := .clear }, deliver toClient child.tryit.text.str)
  | .clear =>
    some ({ child with pc := .recv, tryit := { child.tryit with word := Buffer.zero WORD } },
      toClient)
  | .exited => none

/-- One step of a connection. The child starts with the server's `tryit`. A process
that sends to one that is gone may be killed by SIGPIPE. -/
def next (resource : Option (List Byte)) (tryit : Dictrec) (act : Act) (c : Connection) :
    Option Connection :=
  match act with
  | .client =>
    (clientStep c.client c.toServer).map fun (client, toServer) => { c with client, toServer }
  | .clientRecv count =>
    if c.client.pc = .recv then
      (recv TEXT count c.toClient (childGone c)).map fun (block, toClient) =>
        { c with
          toClient
          client := { c.client with
            pc := .compare
            tryit := { c.client.tryit with text := c.client.tryit.text.receive block } } }
    else none
  | .accept =>
    if c.child = none ∧ c.client.firstTime = false then
      some { c with child := some ⟨.recv, tryit, Lookup5.initial⟩ }
    else none
  | .server =>
    c.child.bind fun child =>
      (childStep resource child c.toClient).map fun (child, toClient) =>
        { c with child := some child, toClient }
  | .serverRecv count =>
    c.child.bind fun child =>
      if child.pc = .recv then
        (recv WORD count c.toServer (clientGone c)).map fun (block, toServer) =>
          { c with
            toServer
            child := some { child with
              pc := .lookup
              tryit := { child.tryit with word := child.tryit.word.receive block } } }
      else none
  | .clientSigpipe =>
    if c.client.pc = .send ∧ childGone c = true then
      some { c with client := { c.client with pc := .finished } }
    else none
  | .serverSigpipe =>
    c.child.bind fun child =>
      if child.pc = .send ∧ clientGone c = true then
        some { c with child := some { child with pc := .exited } }
      else none

theorem next_server {resource : Option (List Byte)} {child child' : Child}
    {toClient toClient' : List (List Byte)}
    (step : childStep resource child toClient = some (child', toClient')) (tryit : Dictrec)
    (client : Client) (toServer : List (List Byte)) :
    next resource tryit .server ⟨client, some child, toServer, toClient⟩ =
      some ⟨client, some child', toServer, toClient'⟩ := by
  simp only [next, Option.bind_some, step, Option.map_some]

/-- What a step of a connection can be. -/
inductive Move (resource : Option (List Byte)) (tryit : Dictrec) (c : Connection) :
    Act → Connection → Prop
  | client (client : Client) (toServer : List (List Byte))
    (step : clientStep c.client c.toServer = some (client, toServer)) :
    Move resource tryit c .client { c with client, toServer }
  | clientRecv (count : Nat) (block : List Byte) (toClient : List (List Byte))
    (waits : c.client.pc = .recv)
    (received : recv TEXT count c.toClient (childGone c) = some (block, toClient)) :
    Move resource tryit c (.clientRecv count)
      { c with
        toClient
        client := { c.client with
          pc := .compare
          tryit := { c.client.tryit with text := c.client.tryit.text.receive block } } }
  | accept (fresh : c.child = none) (called : c.client.firstTime = false) :
    Move resource tryit c .accept { c with child := some ⟨.recv, tryit, Lookup5.initial⟩ }
  | server (child child' : Child) (toClient : List (List Byte)) (runs : c.child = some child)
    (step : childStep resource child c.toClient = some (child', toClient)) :
    Move resource tryit c .server { c with child := some child', toClient }
  | serverRecv (count : Nat) (child : Child) (block : List Byte) (toServer : List (List Byte))
    (runs : c.child = some child) (waits : child.pc = .recv)
    (received : recv WORD count c.toServer (clientGone c) = some (block, toServer)) :
    Move resource tryit c (.serverRecv count)
      { c with
        toServer
        child := some { child with
          pc := .lookup
          tryit := { child.tryit with word := child.tryit.word.receive block } } }
  | clientSigpipe (sends : c.client.pc = .send) (gone : childGone c = true) :
    Move resource tryit c .clientSigpipe { c with client := { c.client with pc := .finished } }
  | serverSigpipe (child : Child) (runs : c.child = some child) (sends : child.pc = .send)
    (gone : clientGone c = true) :
    Move resource tryit c .serverSigpipe { c with child := some { child with pc := .exited } }

theorem next_move {resource : Option (List Byte)} {tryit : Dictrec} {act : Act}
    {c c' : Connection} (h : next resource tryit act c = some c') :
    Move resource tryit c act c' := by
  cases act with
  | client =>
    obtain ⟨⟨client, toServer⟩, step, same⟩ := Option.map_eq_some_iff.mp h
    exact same ▸ .client client toServer step
  | clientRecv count =>
    obtain ⟨waits, h⟩ := Option.ite_none_right_eq_some.mp h
    obtain ⟨⟨block, toClient⟩, received, same⟩ := Option.map_eq_some_iff.mp h
    exact same ▸ .clientRecv count block toClient waits received
  | accept =>
    obtain ⟨⟨fresh, called⟩, same⟩ := Option.ite_none_right_eq_some.mp h
    exact Option.some.inj same ▸ .accept fresh called
  | server =>
    obtain ⟨child, runs, h⟩ := Option.bind_eq_some_iff.mp h
    obtain ⟨⟨child', toClient⟩, step, same⟩ := Option.map_eq_some_iff.mp h
    exact same ▸ .server child child' toClient runs step
  | serverRecv count =>
    obtain ⟨child, runs, h⟩ := Option.bind_eq_some_iff.mp h
    obtain ⟨waits, h⟩ := Option.ite_none_right_eq_some.mp h
    obtain ⟨⟨block, toServer⟩, received, same⟩ := Option.map_eq_some_iff.mp h
    exact same ▸ .serverRecv count child block toServer runs waits received
  | clientSigpipe =>
    obtain ⟨⟨sends, gone⟩, same⟩ := Option.ite_none_right_eq_some.mp h
    exact Option.some.inj same ▸ .clientSigpipe sends gone
  | serverSigpipe =>
    obtain ⟨child, runs, h⟩ := Option.bind_eq_some_iff.mp h
    obtain ⟨⟨sends, gone⟩, same⟩ := Option.ite_none_right_eq_some.mp h
    exact Option.some.inj same ▸ .serverSigpipe child runs sends gone

/-- A client that has not read a line yet. -/
def Connection.initial (tryit : Dictrec) (queries : List (List Byte)) : Connection :=
  ⟨⟨.gets, true, tryit, queries, [], []⟩, none, [], []⟩

/-- One connection: `clientTryit` and `serverTryit` are the contents of the two
records before the first request. -/
def dialogue (resource : Option (List Byte)) (clientTryit serverTryit : Dictrec)
    (queries : List (List Byte)) : StepSystem Connection Act :=
  ofNext (· = Connection.initial clientTryit queries) (next resource serverTryit)

/-- Every `recv` takes one send whole. -/
def Whole (act : Act) (c : Connection) : Prop :=
  match act with
  | .clientRecv count => ∀ block ∈ c.toClient.head?, count = block.length
  | .serverRecv count => ∀ block ∈ c.toServer.head?, count = block.length
  | _ => True

end Dictionary
