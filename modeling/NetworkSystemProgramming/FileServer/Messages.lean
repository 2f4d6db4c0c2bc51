import NetworkSystemProgramming.ByteBuffers

/-!
# Messages of the queue file server

What `serveRequest` in `svmsg_file_server.c` hands to `mq_send`, and what the loop of
`svmsg_file_client.c` makes of the bytes that `mq_receive` brings. A `long` has 8 bytes,
the least significant one first. A file is given by the blocks that `read` returns
before end-of-file, `none` when it cannot be opened.
-/

namespace FileServer

open ByteBuffers

def RESP_MSG_SIZE : Nat := 8192

def RESP_MT_FAILURE : Nat := 1
def RESP_MT_DATA : Nat := 2
def RESP_MT_END : Nat := 3

/-- The width of `mtype`. -/
def MTYPE_SIZE : Nat := 8

/-- `struct responseMsg` in memory: `mtype` and, behind it, `data`. -/
abbrev ResponseMsg := Buffer (MTYPE_SIZE + RESP_MSG_SIZE)

def mtypeBytes (m : Nat) : List Byte := leBytes MTYPE_SIZE m

@[simp] theorem length_mtypeBytes (m : Nat) : (mtypeBytes m).length = MTYPE_SIZE :=
  length_leBytes _ _

def mtype (resp : ResponseMsg) : Nat := leValue (resp.bytes.take MTYPE_SIZE)

def data (resp : ResponseMsg) : List Byte := resp.bytes.drop MTYPE_SIZE

@[simp] theorem length_data (resp : ResponseMsg) : (data resp).length = RESP_MSG_SIZE := by
  simp [data, resp.size_eq]

/-- `resp.mtype = m`. -/
def setMtype (resp : ResponseMsg) (m : Nat) : ResponseMsg :=
  ⟨mtypeBytes m ++ data resp, by simp⟩

/-- `read` or `snprintf` into `resp.data`. -/
def setData (resp : ResponseMsg) (block : List Byte) : ResponseMsg :=
  ⟨resp.bytes.take MTYPE_SIZE ++ overwrite (data resp) (block.take RESP_MSG_SIZE), by
    have room : (block.take RESP_MSG_SIZE).length ≤ (data resp).length := by
      rw [length_data]
      exact List.length_take_le _ _
    simp [length_overwrite room, resp.size_eq]⟩

/-- One message: the type and the data that it is meant to carry, and the bytes that
`mq_send` gets. -/
structure Message where
  mtype : Nat
  data : List Byte
  wire : List Byte
  deriving DecidableEq

/-- `mq_send` of the first `len` bytes of the structure. -/
def sendBytes (resp : ResponseMsg) (len : Nat) : List Byte := resp.bytes.take len

/-- The text of a failure, "Couldn't open". -/
def couldntOpen : List Byte := [67, 111, 117, 108, 100, 110, 39, 116, 32, 111, 112, 101, 110]

/-- The loop over the file, and the message that signifies end-of-file. -/
def transmit (resp : ResponseMsg) : List (List Byte) → List Message
  | [] => [⟨RESP_MT_END, [], sendBytes (setMtype resp RESP_MT_END) 1⟩]
  | block :: rest =>
    let resp := setData resp block
    ⟨RESP_MT_DATA, block, sendBytes resp block.length⟩ :: transmit resp rest

/-- The messages of `serveRequest` while no `mq_send` fails. -/
def serveRequest (file : Option (List (List Byte))) (resp : ResponseMsg) : List Message :=
  match file with
  | none =>
    let resp := setData (setMtype resp RESP_MT_FAILURE) (couldntOpen ++ [0])
    [⟨RESP_MT_FAILURE, couldntOpen ++ [0], sendBytes resp ((cstr (data resp)).length + 1)⟩]
  | some blocks => transmit (setMtype resp RESP_MT_DATA) blocks

theorem serveRequest_ne_nil (file : Option (List (List Byte))) (resp : ResponseMsg) :
    serveRequest file resp ≠ [] := by
  cases file with
  | none => simp [serveRequest]
  | some blocks => cases blocks <;> simp [serveRequest, transmit]

/-- What the client finds in `resp` after an `mq_receive`. -/
structure Received where
  mtype : Nat
  data : List Byte
  msgLen : Nat

def mqReceive (resp : ResponseMsg) (wire : List Byte) : ResponseMsg := resp.receive wire

def decode (resp : ResponseMsg) (msgLen : Nat) : Received := ⟨mtype resp, data resp, msgLen⟩

/-- The receive loop of the client: it goes on as long as `mtype` is RESP_MT_DATA. -/
def receiveLoop (resp : ResponseMsg) : List (List Byte) → List Received
  | [] => []
  | wire :: rest =>
    let resp := mqReceive resp wire
    let received := decode resp wire.length
    if received.mtype = RESP_MT_DATA then received :: receiveLoop resp rest else [received]

/-- The blocks that `read` can return before end-of-file. -/
def Splitting (file : Option (List (List Byte))) : Prop :=
  ∀ blocks, file = some blocks → ∀ b ∈ blocks, b ≠ [] ∧ b.length ≤ RESP_MSG_SIZE

/-! ## The bytes that are sent -/

/-- The structure up to the end of the data that the message is meant to carry. -/
def Message.full (m : Message) : List Byte := mtypeBytes m.mtype ++ m.data

def dataMessage (block : List Byte) : Message :=
  ⟨RESP_MT_DATA, block, (mtypeBytes RESP_MT_DATA ++ block).take block.length⟩

def endMessage : Message := ⟨RESP_MT_END, [], (mtypeBytes RESP_MT_END).take 1⟩

def failureMessage : Message :=
  ⟨RESP_MT_FAILURE, couldntOpen ++ [0], (mtypeBytes RESP_MT_FAILURE ++ couldntOpen).take 14⟩

theorem setData_bytes (resp : ResponseMsg) {block : List Byte}
    (fits : block.length ≤ RESP_MSG_SIZE) :
    (setData resp block).bytes =
      resp.bytes.take MTYPE_SIZE ++ (block ++ (data resp).drop block.length) := by
  simp only [setData, List.take_of_length_le fits, overwrite]

theorem transmit_eq (resp : ResponseMsg) {blocks : List (List Byte)}
    (split : ∀ b ∈ blocks, b.length ≤ RESP_MSG_SIZE)
    (typed : resp.bytes.take MTYPE_SIZE = mtypeBytes RESP_MT_DATA) :
    transmit resp blocks = blocks.map dataMessage ++ [endMessage] := by
  induction blocks generalizing resp with
  | nil =>
    simp [transmit, endMessage, sendBytes, setMtype, mtypeBytes, leBytes, MTYPE_SIZE]
  | cons block rest ih =>
    have fits := split block List.mem_cons_self
    have bytes := setData_bytes resp fits
    have typed' : (setData resp block).bytes.take MTYPE_SIZE = mtypeBytes RESP_MT_DATA := by
      rw [bytes, typed]
      exact List.take_left' (length_mtypeBytes _)
    have sent : sendBytes (setData resp block) block.length = (dataMessage block).wire := by
      rw [sendBytes, bytes, typed, ← List.append_assoc, dataMessage]
      exact List.take_append_of_le_length (by simp)
    rw [transmit, ih _ (fun b hb => split b (List.mem_cons_of_mem block hb)) typed', sent]
    rfl

/-- The messages for a file. -/
def messagesFor : Option (List (List Byte)) → List Message
  | none => [failureMessage]
  | some blocks => blocks.map dataMessage ++ [endMessage]

/-- The bytes sent do not depend on what the structure held before. -/
theorem serveRequest_eq {file : Option (List (List Byte))} (split : Splitting file)
    (resp : ResponseMsg) : serveRequest file resp = messagesFor file := by
  cases file with
  | none =>
    have fits : (couldntOpen ++ [0]).length ≤ RESP_MSG_SIZE := by decide
    have bytes := setData_bytes (setMtype resp RESP_MT_FAILURE) fits
    have typed : (setMtype resp RESP_MT_FAILURE).bytes.take MTYPE_SIZE =
        mtypeBytes RESP_MT_FAILURE := List.take_left' (length_mtypeBytes _)
    rw [typed] at bytes
    have text : cstr (data (setData (setMtype resp RESP_MT_FAILURE) (couldntOpen ++ [0]))) =
        couldntOpen := by
      rw [data, bytes, List.drop_left' (length_mtypeBytes _), List.append_assoc]
      exact cstr_terminated (by decide) _
    simp only [serveRequest, text, sendBytes, bytes]
    rfl
  | some blocks =>
    exact transmit_eq _ (fun b hb => (split blocks rfl b hb).2)
      (List.take_left' (length_mtypeBytes _))

end FileServer
