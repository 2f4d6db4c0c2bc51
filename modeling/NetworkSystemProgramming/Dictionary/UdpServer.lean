import NetworkSystemProgramming.Dictionary.RemoteLookup

/-!
# The datagram server

`udp_server.c` with its `lookup5.c`. One record serves all clients: `recvfrom` stores up
to 32 bytes in the zeroed word field, which may then hold no NUL, and the text field keeps
the last answer. Here `strcmp` reads the memory of the two records, so that a word without
NUL goes on into the text behind it.
-/

namespace Dictionary

open ByteBuffers BinarySearch

variable {I : Type}

/-- A datagram, from a client or to one. -/
structure Datagram (I : Type) where
  client : I
  bytes : List Byte

/-- `tryit`, the static variable `client` and those of `lookup`. -/
structure UdpServer (I : Type) where
  tryit : Dictrec
  client : Option I
  statics : Lookup5

/-- One turn of the request loop: `recvfrom`, `lookup`, `sendto` and `memset`. -/
def respond (datafile : Option (List Byte)) (s : UdpServer I) (request : Datagram I) :
    Except Halt (Option (Datagram I) × UdpServer I) :=
  let client := some request.client
  match lookup5Memory s.statics datafile
      { s.tryit with word := s.tryit.word.receive request.bytes } with
  | .error halt => .error halt
  | .ok (status, tryit, statics) =>
    let cleared (text : Buffer TEXT) : UdpServer I := ⟨⟨.zero WORD, text⟩, client, statics⟩
    if status = FOUND then .ok (client.map (⟨·, tryit.text.str⟩), cleared tryit.text)
    else if status = NOTFOUND then
      match tryit.text.put (notFoundText ++ [0]) with
      | some text => .ok (client.map (⟨·, text.str⟩), cleared text)
      | none => .error .undefined
    else if status = UNAVAIL then .error (.exit 1)
    else .ok (none, cleared tryit.text)

/-- The request loop over the datagrams in the order they arrive. -/
def respondAll (datafile : Option (List Byte)) :
    UdpServer I → List (Datagram I) → Except Halt (List (Datagram I) × UdpServer I)
  | s, [] => .ok ([], s)
  | s, request :: rest =>
    match respond datafile s request with
    | .error halt => .error halt
    | .ok (reply, s) =>
      match respondAll datafile s rest with
      | .error halt => .error halt
      | .ok (replies, s) => .ok (reply.toList ++ replies, s)

/-- On a table with terminated words the memory behind the fields plays no part. -/
theorem lookup5Memory_table (table : RecordTable) {st : Lookup5} (ready : st.Ready table.file)
    (sought : Dictrec) :
    lookup5Memory st (some table.file) sought = lookup5 st (some table.file) sought := by
  refine lookup5Memory_eq ?_ ready sought
  rw [RecordTable.file, completeRecords_outFile]
  exact table.word_terminated

theorem receive_zero_str (block : List Byte) :
    ((Buffer.zero WORD).receive block).str = cstr (block.take WORD) := by
  have bytes : ((Buffer.zero WORD).receive block).bytes =
      block.take WORD ++ List.replicate (WORD - (block.take WORD).length) 0 := by
    simp [Buffer.receive, Buffer.zero, overwrite]
  rw [Buffer.str, bytes, cstr_append_zeros]

/-- A turn that starts with a zeroed word answers the sender with what the table says, and
ends with a zeroed word. -/
theorem respond_replies (table : RecordTable) {s : UdpServer I} (zeroed : s.tryit.word = .zero WORD)
    (ready : s.statics.Ready table.file) (request : Datagram I) :
    ∃ s', respond (some table.file) s request =
        .ok (some ⟨request.client, reply table.records (cstr (request.bytes.take WORD))⟩, s') ∧
      s'.tryit.word = .zero WORD ∧ s'.statics.Ready table.file := by
  have key : (s.tryit.word.receive request.bytes).str = cstr (request.bytes.take WORD) := by
    rw [zeroed, receive_zero_str]
  rcases table.lookup5_returns ready { s.tryit with word := s.tryit.word.receive request.bytes } with
    ⟨r, -, search, found, call, -, text⟩ | ⟨search, call⟩
  · rw [key] at search
    refine ⟨⟨⟨.zero WORD, found.text⟩, some request.client, Lookup5.mapped table.file⟩, ?_, rfl,
      Lookup5.mapped_ready table.file⟩
    simp [respond, lookup5Memory_table table ready, call, reply, search, text]
  · rw [key] at search
    obtain ⟨text, put, marker⟩ := put_notFoundText s.tryit.text
    have other : NOTFOUND ≠ FOUND := by decide
    refine ⟨⟨⟨.zero WORD, text⟩, some request.client, Lookup5.mapped table.file⟩, ?_, rfl,
      Lookup5.mapped_ready table.file⟩
    simp [respond, lookup5Memory_table table ready, call, reply, search, put, marker, other]

/-- Every datagram is answered, in order, whatever the text field holds before. -/
theorem respondAll_replies (table : RecordTable) {s : UdpServer I}
    (zeroed : s.tryit.word = .zero WORD) (ready : s.statics.Ready table.file)
    (requests : List (Datagram I)) :
    ∃ s', respondAll (some table.file) s requests =
        .ok (requests.map fun request =>
          ⟨request.client, reply table.records (cstr (request.bytes.take WORD))⟩, s') := by
  induction requests generalizing s with
  | nil => exact ⟨s, rfl⟩
  | cons request rest ih =>
    obtain ⟨s1, first, zeroed, ready⟩ := respond_replies table zeroed ready request
    obtain ⟨s2, others⟩ := ih zeroed ready
    exact ⟨s2, by simp [respondAll, first, others]⟩

/-- The server before its first request. -/
def UdpServer.initial (text : Buffer TEXT) : UdpServer I :=
  ⟨⟨.zero WORD, text⟩, none, Lookup5.initial⟩

/-- Each reply goes to the sender of its datagram and says what the table has for the first
32 bytes; after whatever other datagrams, the same datagram gets the same reply. -/
theorem udp_replies_independent (table : RecordTable) :
    (∀ (text : Buffer TEXT) (requests : List (Datagram I)),
      ∃ s, respondAll (some table.file) (.initial text) requests =
        .ok (requests.map fun request =>
          ⟨request.client, reply table.records (cstr (request.bytes.take WORD))⟩, s)) ∧
    ∀ (text text' : Buffer TEXT) (earlier earlier' : List (Datagram I)) (request : Datagram I),
      ∃ answer replies replies' s s',
        respondAll (some table.file) (.initial text) (earlier ++ [request]) =
          .ok (replies ++ [answer], s) ∧
        respondAll (some table.file) (.initial text') (earlier' ++ [request]) =
          .ok (replies' ++ [answer], s') ∧
        replies.length = earlier.length ∧ replies'.length = earlier'.length := by
  have served (text : Buffer TEXT) (requests : List (Datagram I)) :=
    respondAll_replies table (s := .initial text) rfl (Lookup5.initial_ready _) requests
  refine ⟨served, ?_⟩
  intro text text' earlier earlier' request
  obtain ⟨s, run⟩ := served text (earlier ++ [request])
  obtain ⟨s', run'⟩ := served text' (earlier' ++ [request])
  rw [List.map_append, List.map_singleton] at run run'
  exact ⟨_, _, _, s, s', run, run', List.length_map _, List.length_map _⟩

end Dictionary
