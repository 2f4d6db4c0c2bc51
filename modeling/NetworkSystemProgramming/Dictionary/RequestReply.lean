import NetworkSystemProgramming.Dictionary.SocketDialogue

/-!
# One request and its reply

What either side does with one word over a stream, for every readable file of records.
-/

namespace Dictionary

open ByteBuffers

theorem recv_nothing (size count : Nat) : recv size count [] false = none := by
  simp [recv]

theorem recv_whole {size : Nat} {block : List Byte} (nonempty : block ≠ [])
    (fits : block.length ≤ size) (gone : Bool) :
    recv size block.length [block] gone = some (block, []) := by
  have := List.length_pos_iff.mpr nonempty
  simp [recv, nonempty, this, fits, dropBytes]

/-! ## The client -/

section
variable {q : List Byte} {stdin asked : List (List Byte)} {results : List (Int × List Byte)}
  {toServer : List (List Byte)}

/-- `gets` leaves the line in a zeroed buffer. -/
theorem gets_line (first : Bool) (short : q.length < WORD) :
    ∃ word : Buffer WORD, word.bytes = padded WORD q ∧
      clientStep ⟨.gets, first, Dictrec.zero, q :: stdin, asked, results⟩ toServer =
        some (⟨if first then .connect else .send, first, ⟨word, Buffer.zero TEXT⟩, stdin,
          asked ++ [q], results⟩, toServer) := by
  obtain ⟨word, put, bytes⟩ := Buffer.put_zero short
  refine ⟨word, bytes, ?_⟩
  simp only [clientStep, Dictrec.zero, put, Option.map_some]

/-- The whole line is sent, up to its NUL. -/
theorem send_line {first : Bool} {tryit : Dictrec} (nonempty : q ≠ []) (clean : 0 ∉ q)
    (short : q.length < WORD) (line : tryit.word.bytes = padded WORD q) :
    clientStep ⟨.send, first, tryit, stdin, asked, results⟩ toServer =
      some (⟨.recv, first, tryit, stdin, asked, results⟩, toServer ++ [q]) := by
  have word : tryit.word.str = q := Buffer.str_of_padded clean short line
  simp only [clientStep, word, deliver, if_neg nonempty]

end

theorem replyStatus_eq (text : Buffer TEXT) :
    replyStatus text = if text.str = notFoundText then NOTFOUND else FOUND := by
  have marker : cstr (notFoundText ++ [0]) = notFoundText := cstr_terminated (by decide) []
  by_cases same : text.str = notFoundText
  · have : strcmp text.bytes (notFoundText ++ [0]) = .eq := by
      rw [strcmp_eq_iff, marker]
      exact same
    simp [replyStatus, this, same]
  · have : strcmp text.bytes (notFoundText ++ [0]) ≠ .eq := by
      rw [Ne, strcmp_eq_iff, marker]
      exact same
    simp [replyStatus, this, same]

/-- What the client makes of a reply that it finds alone in its buffer. -/
theorem replyStatus_padded {text : Buffer TEXT} {s : List Byte} (clean : 0 ∉ s)
    (room : s.length < TEXT) (h : text.bytes = padded TEXT s) :
    text.str = s ∧ replyStatus text = if s = notFoundText then NOTFOUND else FOUND := by
  have str : text.str = s := Buffer.str_of_padded clean room h
  exact ⟨str, str ▸ replyStatus_eq text⟩

/-! ## The child -/

/-- What the server sends back for a word. -/
def reply (records : List Dictrec) (word : List Byte) : List Byte :=
  match findRecord records word with
  | some r => r.text.str
  | none => notFoundText

/-- The child is not there yet, or is about to wait with a zeroed request buffer. -/
def Idle (records : List Dictrec) (child : Option Child) : Prop :=
  ∀ c, child = some c → c.statics.Ready (outFile records) ∧
    (c.pc = .clear ∨ c.pc = .recv ∧ c.tryit.word = Buffer.zero WORD)

section
variable {records : List Dictrec}

theorem reply_clean (readable : Readable records) (word : List Byte) :
    0 ∉ reply records word ∧ (reply records word).length < TEXT := by
  cases search : findRecord records word with
  | none =>
    simp only [reply, search]
    decide
  | some r =>
    simp only [reply, search]
    exact ⟨cstr_clean _, Buffer.str_length_lt (readable.terminated r (findRecord_mem search))⟩

/-- The lookup in the server and its `switch` prepare the reply. -/
theorem lookup_answers {tryit : Dictrec} {statics : Lookup5} {q : List Byte}
    (readable : Readable records) (word : tryit.word.str = q)
    (ready : statics.Ready (outFile records)) (toClient : List (List Byte)) :
    ∃ tryit' statics', childStep (some (outFile records)) ⟨.lookup, tryit, statics⟩ toClient =
        some (⟨.send, tryit', statics'⟩, toClient) ∧
      statics'.Ready (outFile records) ∧ tryit'.text.str = reply records q := by
  rcases lookup5_answers readable ready tryit with
    ⟨r, -, search, found, call, -, text⟩ | ⟨search, call⟩
  · rw [word] at search
    refine ⟨found, _, ?_, Lookup5.mapped_ready _, ?_⟩
    · simp [childStep, call, answer]
    · rw [text, reply, search]
  · rw [word] at search
    obtain ⟨text, put, marker⟩ := put_notFoundText tryit.text
    have other : NOTFOUND ≠ FOUND := by decide
    refine ⟨⟨tryit.word, text⟩, _, ?_, Lookup5.mapped_ready _, ?_⟩
    · simp [childStep, call, answer, other, put]
    · rw [marker, reply, search]

theorem Idle.accept {serverTryit : Dictrec} (zeroed : serverTryit.word = Buffer.zero WORD) :
    Idle records (some ⟨.recv, serverTryit, Lookup5.initial⟩) := by
  rintro c ⟨⟩
  exact ⟨Lookup5.initial_ready _, Or.inr ⟨rfl, zeroed⟩⟩

/-- An idle child can only clear its request buffer. -/
theorem Idle.server {child child' : Child} {toClient toClient' : List (List Byte)}
    {resource : Option (List Byte)} (idle : Idle records (some child))
    (h : childStep resource child toClient = some (child', toClient')) :
    Idle records (some child') ∧ toClient' = toClient ∧ child.pc = .clear := by
  obtain ⟨ready, clear | ⟨waits, -⟩⟩ := idle child rfl
  · simp only [childStep, clear, Option.some.injEq, Prod.mk.injEq] at h
    obtain ⟨rfl, rfl⟩ := h
    refine ⟨?_, rfl, clear⟩
    rintro c ⟨⟩
    exact ⟨ready, Or.inr ⟨rfl, rfl⟩⟩
  · simp [childStep, waits] at h

/-- An idle child that receives a request has it alone in its buffer. -/
theorem Idle.received {child : Child} {q : List Byte} (idle : Idle records (some child))
    (waits : child.pc = .recv) (fits : q.length ≤ WORD) :
    child.statics.Ready (outFile records) ∧ (child.tryit.word.receive q).bytes = padded WORD q := by
  obtain ⟨ready, clear | ⟨-, zero⟩⟩ := idle child rfl
  · cases waits.symm.trans clear
  · rw [zero]
    exact ⟨ready, Buffer.receive_zero fits⟩

theorem Idle.alive {c : Connection} (idle : Idle records c.child) :
    childGone c = false := by
  cases here : c.child with
  | none => simp [childGone, here]
  | some child => obtain ⟨-, pc | ⟨pc, -⟩⟩ := idle child here <;> simp [childGone, here, pc]

end

end Dictionary
