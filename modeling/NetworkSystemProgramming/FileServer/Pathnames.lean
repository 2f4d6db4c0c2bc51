import NetworkSystemProgramming.ByteBuffers

/-!
# Requests of the queue file server

`struct requestMsg` from the client to the `open` of the server's child. The fields are
`mtype` (8 bytes), `clientId` (4 bytes) and `pathname`; REQ_MSG_SIZE leaves `mtype` out,
but the bytes are taken from the start of the structure.
-/

namespace FileServer

open ByteBuffers

def PATH_MAX : Nat := 4096

/-- Where `clientId` and `pathname` stand in the structure. -/
def clientIdOffset : Nat := 8

def pathnameOffset : Nat := 12

/-- The size of the structure, with the padding at its end. -/
def requestMsgSize : Nat := pathnameOffset + PATH_MAX + 4

def REQ_MSG_SIZE : Nat := pathnameOffset - clientIdOffset + PATH_MAX

abbrev RequestMsg := Buffer requestMsgSize

/-- `strncpy` into a field of `n` bytes. -/
def strncpy (n : Nat) (s : List Byte) : List Byte := padded n (s.take n)

/-- What `main` of the client is called with: the queue that it got for the response and
the pathname in `argv[1]`. -/
structure Request where
  clientId : Nat
  pathname : List Byte

/-- The pathnames that the client sends. -/
structure Request.Accepted (r : Request) : Prop where
  clean : 0 ∉ r.pathname
  fits : r.pathname.length ≤ PATH_MAX - 1

/-- The structure of the client up to the end of `pathname`. -/
def Request.fields (r : Request) : List Byte :=
  leBytes 8 1 ++ leBytes 4 r.clientId ++ (strncpy (PATH_MAX - 1) r.pathname ++ [0])

/-- The bytes that `mq_send` gets. -/
def Request.wire (r : Request) : List Byte := r.fields.take REQ_MSG_SIZE

/-- The requests that `mq_receive` stores in `req`, one after the other. -/
def receiveRequests (req : RequestMsg) (requests : List Request) : RequestMsg :=
  requests.foldl (fun req r => req.receive r.wire) req

def pathname (req : RequestMsg) : List Byte := (req.bytes.drop pathnameOffset).take PATH_MAX

/-- The argument of `open`; `none` when it goes on behind `pathname`. -/
def openArgument (req : RequestMsg) : Option (List Byte) := stringIn (pathname req)

/-! ## What a request leaves in `req` -/

/-- The part of `pathname` that a request carries. -/
def sentLength : Nat := REQ_MSG_SIZE - pathnameOffset

/-- `pathname` in the structure of the client. -/
def Request.text (r : Request) : List Byte := strncpy (PATH_MAX - 1) r.pathname ++ [0]

theorem length_strncpy (n : Nat) (s : List Byte) : (strncpy n s).length = n :=
  length_padded (List.length_take_le n s)

@[simp] theorem length_text (r : Request) : r.text.length = PATH_MAX := by
  rw [Request.text, List.length_append, length_strncpy]
  rfl

theorem fields_eq (r : Request) : r.fields = leBytes 8 1 ++ leBytes 4 r.clientId ++ r.text := rfl

@[simp] theorem length_wire (r : Request) : r.wire.length = REQ_MSG_SIZE := by
  simp [Request.wire, fields_eq, REQ_MSG_SIZE, pathnameOffset, clientIdOffset, PATH_MAX]

/-- A request carries `mtype`, `clientId` and all but the last bytes of `pathname`. -/
theorem wire_eq (r : Request) :
    r.wire = leBytes 8 1 ++ leBytes 4 r.clientId ++ r.text.take sentLength := by
  have header : (leBytes 8 1 ++ leBytes 4 r.clientId).length = pathnameOffset := by
    simp [pathnameOffset]
  rw [Request.wire, fields_eq, List.take_append, header, List.take_of_length_le]
  · rfl
  · rw [header]
    decide

theorem receive_wire (req : RequestMsg) (r : Request) :
    (req.receive r.wire).bytes = r.wire ++ req.bytes.drop REQ_MSG_SIZE := by
  rw [Buffer.receive_bytes, overwrite, length_wire]
  rw [length_wire]
  decide

/-- No request changes the bytes behind REQ_MSG_SIZE. -/
theorem receiveRequests_behind (req : RequestMsg) (requests : List Request) :
    (receiveRequests req requests).bytes.drop REQ_MSG_SIZE = req.bytes.drop REQ_MSG_SIZE := by
  induction requests generalizing req with
  | nil => rfl
  | cons r rest ih =>
    have last := ih (req.receive r.wire)
    rw [receive_wire, List.drop_left' (length_wire r)] at last
    exact last

/-- After a request `pathname` holds what was sent of it, and behind that what the server
had there from the start. -/
theorem pathname_received (req : RequestMsg) (earlier : List Request) (r : Request) :
    pathname (receiveRequests req (earlier ++ [r])) =
      r.text.take sentLength ++ (pathname req).drop sentLength := by
  have bytes : (receiveRequests req (earlier ++ [r])).bytes =
      r.wire ++ req.bytes.drop REQ_MSG_SIZE := by
    rw [receiveRequests, List.foldl_append, List.foldl_cons, List.foldl_nil, receive_wire]
    congr 1
    exact receiveRequests_behind req earlier
  have header : (leBytes 8 1 ++ leBytes 4 r.clientId).length = pathnameOffset := by
    simp [pathnameOffset]
  have sent : (r.text.take sentLength).length = sentLength := by
    rw [List.length_take, length_text]
    decide
  have rest : (pathname req).drop sentLength = (req.bytes.drop REQ_MSG_SIZE).take 8 := by
    rw [pathname, List.drop_take, List.drop_drop]
    rfl
  rw [pathname, bytes, wire_eq, List.append_assoc, List.drop_left' header, List.take_append, sent,
    rest, List.take_of_length_le (by rw [sent]; decide)]
  rfl

/-! ## Which pathnames arrive -/

/-- The rest of a pathname, with its NUL, is what the server holds there already. -/
def RestInPlace (req : RequestMsg) (r : Request) : Prop :=
  r.pathname.drop sentLength ++ [0] <+: (pathname req).drop sentLength

theorem text_accepted {r : Request} (accepted : r.Accepted) :
    r.text = r.pathname ++ 0 :: List.replicate (PATH_MAX - 1 - r.pathname.length) 0 := by
  rw [Request.text, strncpy, List.take_of_length_le accepted.fits, padded, List.append_assoc,
    ← List.replicate_succ', List.replicate_succ]

/-- The child opens the pathname that was asked for exactly when it is short enough to be
sent with its NUL, or the server's structure ends with the rest of it by chance. What
earlier clients have asked for does not matter. -/
theorem opens_requested_iff (req : RequestMsg) (earlier : List Request) {r : Request}
    (accepted : r.Accepted) :
    openArgument (receiveRequests req (earlier ++ [r])) = some r.pathname ↔
      r.pathname.length < sentLength ∨ RestInPlace req r := by
  rw [openArgument, stringIn_eq_some_iff accepted.clean, pathname_received, text_accepted accepted]
  by_cases short : r.pathname.length < sentLength
  · refine iff_of_true ?_ (Or.inl short)
    have room : (r.pathname ++ [0]).length ≤ sentLength := by
      rw [List.length_append]
      exact short
    have sent (zeros : List Byte) : (r.pathname ++ 0 :: zeros).take sentLength =
        r.pathname ++ [0] ++ zeros.take (sentLength - (r.pathname ++ [0]).length) := by
      rw [List.append_cons r.pathname 0 zeros, List.take_append, List.take_of_length_le room]
    rw [sent, List.append_assoc]
    exact List.prefix_append _ _
  · have long : sentLength ≤ r.pathname.length := Nat.le_of_not_lt short
    have split : r.pathname ++ [0] =
        r.pathname.take sentLength ++ (r.pathname.drop sentLength ++ [0]) := by
      rw [← List.append_assoc, List.take_append_drop]
    rw [List.take_append_of_le_length long, split, List.prefix_append_right_inj, RestInPlace]
    exact (or_iff_right short).symm

/-- The current directory, after a longer request. -/
theorem short_pathname_arrives : openArgument (receiveRequests (Buffer.zero _)
    [⟨3, [97, 98, 99]⟩, ⟨3, [46]⟩]) = some [46] :=
  (opens_requested_iff (Buffer.zero _) [⟨3, [97, 98, 99]⟩] (r := ⟨3, [46]⟩)
    ⟨by decide, by decide⟩).mpr
    (Or.inl (by decide))

/-- A name of 4090 bytes. -/
private def longName : Request := ⟨3, List.replicate 4090 97⟩

/-- The child opens its first 4088 bytes. -/
theorem long_pathname_is_cut : longName.Accepted ∧
    openArgument (receiveRequests (Buffer.zero _) [longName]) = some (List.replicate 4088 97) ∧
    openArgument (receiveRequests (Buffer.zero _) [longName]) ≠ some longName.pathname := by
  have clean (n : Nat) : (0 : Byte) ∉ List.replicate n 97 := by
    intro member
    have := List.eq_of_mem_replicate member
    revert this
    decide
  have accepted : longName.Accepted := ⟨clean 4090, by rw [longName, List.length_replicate]; decide⟩
  have sent : longName.text.take sentLength = List.replicate 4088 97 := by
    rw [text_accepted accepted, List.take_append_of_le_length]
    · exact List.take_replicate
    · rw [longName, List.length_replicate]
      decide
  have behind : (pathname (Buffer.zero _)).drop sentLength = 0 :: List.replicate 7 0 := by
    rw [pathname, Buffer.zero, List.drop_replicate, List.take_replicate, List.drop_replicate]
    rfl
  have opened : openArgument (receiveRequests (Buffer.zero _) [longName]) =
      some (List.replicate 4088 97) := by
    have content := pathname_received (Buffer.zero _) [] longName
    rw [sent, behind, List.nil_append] at content
    rw [openArgument, content]
    exact stringIn_terminated (clean 4088) _
  refine ⟨accepted, opened, ?_⟩
  intro whole
  rw [opened, longName] at whole
  have lengths := congrArg List.length (Option.some.inj whole)
  rw [List.length_replicate, List.length_replicate] at lengths
  omega

end FileServer
