import NetworkSystemProgramming.Dictionary.UdpServer

/-!
# The format of a reply

Status and text share one channel: a missing word is answered with the marker "XXXX", a
found one with its text, and the client takes everything but the marker for a text.
-/

namespace Dictionary

open ByteBuffers

variable {I : Type}

/-- The `switch` of a server over the result of its `lookup`: what `send` or `sendto` gets. -/
def sendReply (status : Int) (tryit : Dictrec) : Option (List Byte) :=
  if status = FOUND then some tryit.text.str
  else if status = NOTFOUND then (tryit.text.put (notFoundText ++ [0])).map Buffer.str
  else none

/-- The end of a remote `lookup`: the reply is received whole and compared. -/
def receiveReply (sought : Dictrec) (block : List Byte) : Int × Dictrec :=
  let text := sought.text.receive block
  (replyStatus text, { sought with text })

def usockReply : Int → Dictrec → Option (List Byte) := sendReply
def isockReply : Int → Dictrec → Option (List Byte) := sendReply
def udpReply : Int → Dictrec → Option (List Byte) := sendReply

def lookup7 : Dictrec → List Byte → Int × Dictrec := receiveReply
def lookup8 : Dictrec → List Byte → Int × Dictrec := receiveReply
def lookup9 : Dictrec → List Byte → Int × Dictrec := receiveReply

/-- The three parts: a server and the `lookup` that asks it. -/
inductive Part where
  | part1
  | part2
  | part3
  deriving DecidableEq

def Part.reply : Part → Int → Dictrec → Option (List Byte)
  | .part1 => usockReply
  | .part2 => isockReply
  | .part3 => udpReply

def Part.lookup : Part → Dictrec → List Byte → Int × Dictrec
  | .part1 => lookup7
  | .part2 => lookup8
  | .part3 => lookup9

theorem Part.reply_eq (part : Part) : part.reply = sendReply := by cases part <;> rfl

theorem Part.lookup_eq (part : Part) : part.lookup = receiveReply := by cases part <;> rfl

/-- The reply to a missing word is the marker, whatever the text field held. -/
theorem sendReply_notfound (tryit : Dictrec) : sendReply NOTFOUND tryit = some notFoundText := by
  obtain ⟨text, put, marker⟩ := put_notFoundText tryit.text
  have other : NOTFOUND ≠ FOUND := by decide
  simp [sendReply, other, put, marker]

/-- The child of a stream server sends this reply. -/
theorem answer_sends {resource : Option (List Byte)} {child child' : Child} {status : Int}
    (produced : status = FOUND ∨ status = NOTFOUND) (answered : answer child status = some child')
    (toClient : List (List Byte)) :
    ∃ sent, sendReply status child.tryit = some sent ∧
      childStep resource child' toClient =
        some ({ child' with pc := .clear }, deliver toClient sent) := by
  rcases produced with rfl | rfl
  · refine ⟨child.tryit.text.str, rfl, ?_⟩
    cases answered
    rfl
  · refine ⟨notFoundText, sendReply_notfound _, ?_⟩
    obtain ⟨text, put, marker⟩ := put_notFoundText child.tryit.text
    have other : NOTFOUND ≠ FOUND := by decide
    simp only [answer, other, if_false, if_true, put, Option.map_some, Option.some.injEq]
      at answered
    subst answered
    simp only [childStep, marker]

/-- The datagram server sends this reply to the client that asked. -/
theorem respond_sends {datafile : Option (List Byte)} {s : UdpServer I} {request : Datagram I}
    {status : Int} {tryit : Dictrec} {statics : Lookup5}
    (produced : status = FOUND ∨ status = NOTFOUND)
    (called : lookup5Memory s.statics datafile
      { s.tryit with word := s.tryit.word.receive request.bytes } = .ok (status, tryit, statics)) :
    ∃ sent s', sendReply status tryit = some sent ∧
      respond datafile s request = .ok (some ⟨request.client, sent⟩, s') := by
  rcases produced with rfl | rfl
  · refine ⟨tryit.text.str, ⟨⟨Buffer.zero WORD, tryit.text⟩, some request.client, statics⟩, rfl, ?_⟩
    simp only [respond, called, if_true, Option.map_some]
  · obtain ⟨text, put, marker⟩ := put_notFoundText tryit.text
    have other : NOTFOUND ≠ FOUND := by decide
    refine ⟨notFoundText, ⟨⟨Buffer.zero WORD, text⟩, some request.client, statics⟩,
      sendReply_notfound _, ?_⟩
    simp only [respond, called, other, if_false, if_true, put, marker, Option.map_some]

/-- The same status, and for a found word the same text. -/
def SameResult (status : Int) (found : Dictrec) (result : Int × Dictrec) : Prop :=
  result.1 = status ∧ (status = FOUND → result.2.text.str = found.text.str)

/-- What a zeroed client makes of a clean text that fits. -/
theorem receiveReply_zeroed {sought : Dictrec} {sent : List Byte}
    (zeroed : sought.text = Buffer.zero TEXT) (clean : 0 ∉ sent) (short : sent.length < TEXT) :
    (receiveReply sought sent).2.text.str = sent ∧
      (receiveReply sought sent).1 = if sent = notFoundText then NOTFOUND else FOUND := by
  apply replyStatus_padded clean short
  rw [receiveReply, zeroed]
  exact Buffer.receive_zero (Nat.le_of_lt short)

/-- A reply is decoded to the result that was encoded, unless a definition reads like the
marker. -/
theorem reply_decoded_iff (part : Part) {status : Int} (found sought : Dictrec)
    (produced : status = FOUND ∧ 0 ∈ found.text.bytes ∨ status = NOTFOUND)
    (zeroed : sought.text = Buffer.zero TEXT) :
    (∃ sent, part.reply status found = some sent ∧
        SameResult status found (part.lookup sought sent)) ↔
      ¬ (status = FOUND ∧ found.text.str = notFoundText) := by
  rw [part.reply_eq, part.lookup_eq]
  have other : NOTFOUND ≠ FOUND := by decide
  rcases produced with ⟨rfl, terminated⟩ | rfl
  · have clean : 0 ∉ found.text.str := cstr_clean _
    obtain ⟨text, decoded⟩ := receiveReply_zeroed zeroed clean (Buffer.str_length_lt terminated)
    constructor
    · rintro ⟨sent, encoded, same, -⟩ ⟨-, marker⟩
      cases encoded
      rw [if_pos marker] at decoded
      exact other (decoded.symm.trans same)
    · intro plain
      have differs : found.text.str ≠ notFoundText := fun marker => plain ⟨rfl, marker⟩
      refine ⟨found.text.str, rfl, ?_, fun _ => text⟩
      rw [decoded, if_neg differs]
  · obtain ⟨-, decoded⟩ := receiveReply_zeroed zeroed (show 0 ∉ notFoundText by decide) (by decide)
    constructor
    · rintro - ⟨found, -⟩
      exact other found
    · intro _
      refine ⟨notFoundText, sendReply_notfound found, ?_, fun h => absurd h other⟩
      rw [decoded, if_pos rfl]

private def markerRecord : Dictrec where
  word := Buffer.ofString WORD [120] (by decide)
  text := Buffer.ofString TEXT notFoundText (by decide)

theorem reply_decoded_pet :
    ∃ sent, Part.part1.reply FOUND exampleRecord = some sent ∧
      SameResult FOUND exampleRecord (Part.part1.lookup Dictrec.zero sent) :=
  (reply_decoded_iff .part1 exampleRecord Dictrec.zero (Or.inl ⟨rfl, by decide⟩) rfl).mpr
    (by simp only [not_and]; decide)

/-- The definition "XXXX" arrives as a missing word. -/
theorem marker_text_not_found (part : Part) :
    part.reply FOUND markerRecord = some notFoundText ∧
      (part.lookup Dictrec.zero notFoundText).1 = NOTFOUND := by
  rw [part.reply_eq, part.lookup_eq]
  decide

theorem reply_format_ambiguous :
    ¬ ∀ (part : Part) (status : Int) (found sought : Dictrec),
      status = FOUND ∧ 0 ∈ found.text.bytes ∨ status = NOTFOUND →
      sought.text = Buffer.zero TEXT →
      ∃ sent, part.reply status found = some sent ∧
        SameResult status found (part.lookup sought sent) := by
  intro claim
  obtain ⟨sent, encoded, same, -⟩ :=
    claim .part1 FOUND markerRecord Dictrec.zero (Or.inl ⟨rfl, by decide⟩) rfl
  obtain ⟨reply, status⟩ := marker_text_not_found .part1
  rw [reply] at encoded
  cases encoded
  rw [status] at same
  exact absurd same (by decide)

end Dictionary
