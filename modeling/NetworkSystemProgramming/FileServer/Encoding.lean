import Mathlib.Data.List.Forall2
import NetworkSystemProgramming.FileServer.Messages

/-!
# Which messages arrive intact

The length that the server gives to `mq_send` counts the data only, but the structure
starts with `mtype`: the last bytes of every message are cut off. The client finds
what its own structure held in their place.
-/

namespace FileServer

open ByteBuffers

/-- The client reads the type and the data that the message is meant to carry. -/
structure Decodes (m : Message) (received : Received) : Prop where
  mtype : received.mtype = m.mtype
  data : received.data.take m.data.length = m.data
  msgLen : received.msgLen = m.wire.length

/-- Every message is decoded, so that the data received is the file, or the text of
the failure with its NUL. -/
def Faithful (file : Option (List (List Byte))) (server client : ResponseMsg) : Prop :=
  let sent := serveRequest file server
  let got := receiveLoop client (sent.map Message.wire)
  List.Forall₂ Decodes sent got ∧
    match file with
    | none => got.map (fun r => r.data.take r.msgLen) = [couldntOpen ++ [0]]
    | some blocks =>
      (got.filter (·.mtype = RESP_MT_DATA)).flatMap (fun r => r.data.take r.msgLen) = blocks.flatten

/-- The bytes of the message that are not sent are at their place already. -/
def InPlace (held : List Byte) (m : Message) : Prop :=
  (held.drop m.wire.length).take (m.full.length - m.wire.length) = m.full.drop m.wire.length

/-- The same for every message of a file, when each earlier one has arrived intact. -/
def DataInPlace (held : List Byte) : List (List Byte) → Prop
  | [] => (held.drop 1).take 7 = List.replicate 7 0
  | block :: rest =>
    (held.drop block.length).take 8 = (mtypeBytes RESP_MT_DATA ++ block).drop block.length ∧
      DataInPlace (overwrite held (mtypeBytes RESP_MT_DATA ++ block)) rest

/-- What the structure of the client has to hold before the first message. -/
def HeldInPlace (file : Option (List (List Byte))) (held : List Byte) : Prop :=
  match file with
  | none => (held.drop 14).take 8 = (couldntOpen ++ [0]).drop 6
  | some blocks => DataInPlace held blocks

/-- A message that is sent as the first bytes of the structure. -/
structure Message.Sent (m : Message) : Prop where
  wire : m.wire = m.full.take m.wire.length
  fits : m.full.length ≤ MTYPE_SIZE + RESP_MSG_SIZE
  typed : leValue (mtypeBytes m.mtype) = m.mtype

theorem dataMessage_sent {block : List Byte} (fits : block.length ≤ RESP_MSG_SIZE) :
    (dataMessage block).Sent where
  wire := by simp [dataMessage, Message.full]
  fits := by
    simp only [Message.full, dataMessage, List.length_append, length_mtypeBytes]
    omega
  typed := show leValue (mtypeBytes RESP_MT_DATA) = RESP_MT_DATA by decide

theorem endMessage_sent : endMessage.Sent where
  wire := by decide
  fits := by decide
  typed := by decide

theorem failureMessage_sent : failureMessage.Sent where
  wire := by decide
  fits := by decide
  typed := by decide

section
variable {m : Message} {resp : ResponseMsg}

/-- A message is decoded when the structure holds all of it. -/
theorem decodes_iff_full (sent : m.Sent) (resp : ResponseMsg) :
    Decodes m (decode resp m.wire.length) ↔ resp.bytes.take m.full.length = m.full := by
  have width : (resp.bytes.take MTYPE_SIZE).length = (mtypeBytes m.mtype).length := by
    simp [resp.size_eq]
  have typed : leValue (resp.bytes.take MTYPE_SIZE) = m.mtype ↔
      resp.bytes.take MTYPE_SIZE = mtypeBytes m.mtype := by
    constructor
    · intro same
      rw [← sent.typed] at same
      exact leValue_injective width same
    · intro same
      rw [same, sent.typed]
  have length : m.full.length = MTYPE_SIZE + m.data.length := by
    simp [Message.full]
  rw [length, List.take_add, Message.full]
  constructor
  · rintro ⟨type, text, -⟩
    rw [typed.mp type]
    exact congrArg _ text
  · intro same
    obtain ⟨type, text⟩ := List.append_inj same width
    exact ⟨typed.mpr type, text, rfl⟩

theorem wire_le_full (sent : m.Sent) : m.wire.length ≤ m.full.length := by
  have := congrArg List.length sent.wire
  rw [List.length_take] at this
  omega

theorem mqReceive_bytes (sent : m.Sent) (resp : ResponseMsg) :
    (mqReceive resp m.wire).bytes = m.full.take m.wire.length ++ resp.bytes.drop m.wire.length := by
  have fits : m.wire.length ≤ MTYPE_SIZE + RESP_MSG_SIZE := (wire_le_full sent).trans sent.fits
  rw [mqReceive, Buffer.receive_bytes _ fits, overwrite, ← sent.wire]

/-- What the length cuts off has to be there already, and nothing else. -/
theorem decodes_iff_inPlace (sent : m.Sent) (resp : ResponseMsg) :
    Decodes m (decode (mqReceive resp m.wire) m.wire.length) ↔ InPlace resp.bytes m := by
  have le := wire_le_full sent
  rw [decodes_iff_full sent, mqReceive_bytes sent, InPlace, List.take_append, List.length_take,
    Nat.min_eq_left le, List.take_of_length_le (by rw [List.length_take]; omega)]
  have split : m.full = m.full.take m.wire.length ++ m.full.drop m.wire.length :=
    (List.take_append_drop _ _).symm
  constructor
  · intro same
    exact List.append_cancel_left (same.trans split)
  · intro inPlace
    rw [inPlace]
    exact split.symm

/-- An intact message leaves all of itself in the structure. -/
theorem inPlace_bytes (sent : m.Sent) (inPlace : InPlace resp.bytes m) :
    (mqReceive resp m.wire).bytes = overwrite resp.bytes m.full := by
  have le := wire_le_full sent
  have rest : resp.bytes.drop m.wire.length =
      m.full.drop m.wire.length ++ resp.bytes.drop m.full.length := by
    have behind : resp.bytes.drop m.full.length =
        (resp.bytes.drop m.wire.length).drop (m.full.length - m.wire.length) := by
      rw [List.drop_drop, Nat.add_sub_cancel' le]
    rw [← inPlace, behind, List.take_append_drop]
  rw [mqReceive_bytes sent, rest, ← List.append_assoc, List.take_append_drop, overwrite]

end

/-- The last message is read whatever its type is taken for. -/
theorem receiveLoop_last (m : Message) (client : ResponseMsg) :
    List.Forall₂ Decodes [m] (receiveLoop client [m.wire]) ↔
      Decodes m (decode (mqReceive client m.wire) m.wire.length) := by
  have one : receiveLoop client [m.wire] = [decode (mqReceive client m.wire) m.wire.length] := by
    simp [receiveLoop]
  rw [one, List.forall₂_cons]
  simp

/-- The client goes on after a message that it takes for RESP_MT_DATA. -/
theorem receiveLoop_data {m : Message} (type : m.mtype = RESP_MT_DATA) (rest : List Message)
    (client : ResponseMsg) :
    List.Forall₂ Decodes (m :: rest) (receiveLoop client ((m :: rest).map Message.wire)) ↔
      Decodes m (decode (mqReceive client m.wire) m.wire.length) ∧
        List.Forall₂ Decodes rest
          (receiveLoop (mqReceive client m.wire) (rest.map Message.wire)) := by
  rw [List.map_cons, receiveLoop]
  by_cases goes_on : (decode (mqReceive client m.wire) m.wire.length).mtype = RESP_MT_DATA
  · rw [if_pos goes_on, List.forall₂_cons]
  · rw [if_neg goes_on, List.forall₂_cons]
    constructor
    · rintro ⟨decoded, -⟩
      exact absurd (decoded.mtype.trans type) goes_on
    · rintro ⟨decoded, -⟩
      exact absurd (decoded.mtype.trans type) goes_on

theorem inPlace_endMessage (held : List Byte) :
    InPlace held endMessage ↔ (held.drop 1).take 7 = List.replicate 7 0 := by
  have wire : endMessage.wire.length = 1 := by decide
  have full : endMessage.full.length = 8 := by decide
  have rest : endMessage.full.drop 1 = List.replicate 7 0 := by decide
  rw [InPlace, wire, full, rest]

theorem inPlace_dataMessage (held block : List Byte) :
    InPlace held (dataMessage block) ↔
      (held.drop block.length).take 8 = (mtypeBytes RESP_MT_DATA ++ block).drop block.length := by
  have wire : (dataMessage block).wire.length = block.length := by simp [dataMessage]
  have full : (dataMessage block).full.length - block.length = 8 := by
    simp [Message.full, dataMessage, MTYPE_SIZE]
  rw [InPlace, wire, full]
  rfl

theorem inPlace_failureMessage (held : List Byte) :
    InPlace held failureMessage ↔ (held.drop 14).take 8 = (couldntOpen ++ [0]).drop 6 := by
  have wire : failureMessage.wire.length = 14 := by decide
  have full : failureMessage.full.length = 22 := by decide
  have rest : failureMessage.full.drop 14 = (couldntOpen ++ [0]).drop 6 := by decide
  rw [InPlace, wire, full, rest]

/-- The loop of the client decodes all messages of a file exactly when each of them is
in place. -/
theorem receiveLoop_iff {blocks : List (List Byte)}
    (split : ∀ b ∈ blocks, b ≠ [] ∧ b.length ≤ RESP_MSG_SIZE) (client : ResponseMsg) :
    List.Forall₂ Decodes (blocks.map dataMessage ++ [endMessage])
        (receiveLoop client ((blocks.map dataMessage ++ [endMessage]).map Message.wire)) ↔
      DataInPlace client.bytes blocks := by
  induction blocks generalizing client with
  | nil =>
    rw [DataInPlace, ← inPlace_endMessage,
      ← decodes_iff_inPlace endMessage_sent client]
    exact receiveLoop_last endMessage client
  | cons block rest ih =>
    have sent := dataMessage_sent (split block List.mem_cons_self).2
    have others := ih (fun b hb => split b (List.mem_cons_of_mem block hb))
    rw [List.map_cons, List.cons_append, receiveLoop_data rfl, decodes_iff_inPlace sent,
      DataInPlace, ← inPlace_dataMessage, others]
    apply and_congr_right
    intro inPlace
    rw [inPlace_bytes sent inPlace]
    rfl

/-- What is decoded message by message is the file. -/
theorem decoded_file {blocks : List (List Byte)} {got : List Received}
    (decoded : List.Forall₂ Decodes (blocks.map dataMessage ++ [endMessage]) got) :
    (got.filter (·.mtype = RESP_MT_DATA)).flatMap (fun r => r.data.take r.msgLen) =
      blocks.flatten := by
  induction blocks generalizing got with
  | nil =>
    cases decoded with
    | @cons _ r _ _ decoded none_left =>
      cases none_left
      have other : r.mtype ≠ RESP_MT_DATA := by
        rw [decoded.mtype]
        decide
      simp [other]
  | cons block rest ih =>
    cases decoded with
    | @cons _ r _ others decoded left =>
      have type : r.mtype = RESP_MT_DATA := decoded.mtype
      have length : r.msgLen = block.length := by
        rw [decoded.msgLen]
        simp [dataMessage]
      have text : r.data.take r.msgLen = block := by
        rw [length]
        exact decoded.data
      rw [List.filter_cons_of_pos (by simpa using type), List.flatMap_cons, text, ih left,
        List.flatten_cons]

theorem decoded_failure {got : List Received}
    (decoded : List.Forall₂ Decodes [failureMessage] got) :
    got.map (fun r => r.data.take r.msgLen) = [couldntOpen ++ [0]] := by
  cases decoded with
  | @cons _ r _ _ decoded none_left =>
    cases none_left
    have text : r.data.take r.msgLen = couldntOpen ++ [0] := by
      rw [decoded.msgLen]
      exact decoded.data
    rw [List.map_singleton, text]

/-- The messages of a request arrive as they were meant exactly when everything that
the lengths cut off is in the client's structure already. -/
theorem faithful_iff_held {file : Option (List (List Byte))} (split : Splitting file)
    (server client : ResponseMsg) :
    Faithful file server client ↔ HeldInPlace file client.bytes := by
  simp only [Faithful, serveRequest_eq split, messagesFor]
  cases file with
  | none =>
    rw [HeldInPlace, ← inPlace_failureMessage, ← decodes_iff_inPlace failureMessage_sent,
      ← receiveLoop_last]
    exact and_iff_left_of_imp decoded_failure
  | some blocks =>
    rw [HeldInPlace, ← receiveLoop_iff (split blocks rfl)]
    exact and_iff_left_of_imp decoded_file

private def zeroed : ResponseMsg := Buffer.zero _

/-- Structures that hold already what is cut off, of the text and of a file of two bytes. -/
private def presetText : ResponseMsg :=
  Buffer.ofString _ (List.replicate 14 0 ++ (couldntOpen ++ [0]).drop 6) (by decide)

private def presetFile : ResponseMsg :=
  Buffer.ofString _ (List.replicate 8 0 ++ [104, 105]) (by decide)

theorem text_and_file_in_place :
    Faithful none zeroed presetText ∧ Faithful (some [[104, 105]]) zeroed presetFile := by
  have noBlocks : Splitting none := fun _ opened => by cases opened
  have oneBlock : Splitting (some [[104, 105]]) := by
    rintro blocks ⟨⟩
    decide
  have text : HeldInPlace none presetText.bytes := by
    rw [HeldInPlace]
    decide
  have file : HeldInPlace (some [[104, 105]]) presetFile.bytes := by
    simp only [HeldInPlace, DataInPlace]
    decide +kernel
  exact ⟨(faithful_iff_held noBlocks zeroed presetText).mpr text,
    (faithful_iff_held oneBlock zeroed presetFile).mpr file⟩

/-- The client finds "Couldn" and NUL bytes instead of the text of the failure. -/
theorem failure_text_is_cut : ¬ Faithful none zeroed zeroed := by
  rintro ⟨decoded, -⟩
  rw [serveRequest_eq (fun _ opened => by cases opened)] at decoded
  have inPlace := (decodes_iff_inPlace failureMessage_sent zeroed).mp
    ((receiveLoop_last failureMessage zeroed).mp decoded)
  rw [inPlace_failureMessage] at inPlace
  revert inPlace
  decide

end FileServer
