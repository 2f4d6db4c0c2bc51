import NetworkSystemProgramming.Dictionary.RemoteLookup

/-!
# How the stream splits the messages

Both sides call `recv` once for a message, and nothing on the wire says where a message
ends. A dialogue is right as long as every `recv` returns one message whole.
-/

namespace Dictionary

open ByteBuffers StepSystems StepSystem

/-- What the client's `lookup` returns for the complete reply. -/
def answerFrom (records : List Dictrec) (word : List Byte) : Int × List Byte :=
  (if reply records word = notFoundText then NOTFOUND else FOUND, reply records word)

/-- The key of the lookup that a step of the child makes. -/
def lookupKey (act : Act) (c : Connection) : List (List Byte) :=
  match act, c.child with
  | .server, some child => if child.pc = .lookup then [child.tryit.word.str] else []
  | _, _ => []

/-- Every `recv` returns one message, the whole of it. -/
def MessageAtOnce (act : Act) (c : Connection) : Prop :=
  match act with
  | .clientRecv count => c.toClient.head?.map List.length = some count
  | .serverRecv count => c.toServer.head?.map List.length = some count
  | _ => True

instance (act : Act) (c : Connection) : Decidable (MessageAtOnce act c) := by
  unfold MessageAtOnce
  split <;> infer_instance

/-- A connection to a server with the file of the records, both buffers zeroed, and the
lookups of its child. -/
def recordDialogue (records : List Dictrec) (serverTryit : Dictrec) (queries : List (List Byte)) :
    StepSystem Connection Act :=
  dialogue (some (outFile records)) Dictrec.zero serverTryit queries

/-- One lookup for each query so far, with the whole query, and the complete replies. -/
structure OneLookupEach (records : List Dictrec) (queries : List (List Byte)) (c : Connection)
    (keys : List (List Byte)) : Prop where
  keys_asked : keys <+: queries
  answers : c.client.results = (queries.take c.client.results.length).map (answerFrom records)
  looked_up : c.client.results.length ≤ keys.length
  in_turn : keys.length ≤ c.client.results.length + 1

/-- Where the request of the client is; `done` are the queries answered before. -/
inductive Transit (records : List Dictrec) (done : List (List Byte)) :
    Option (List Byte) → List (List Byte) → Option Child → List (List Byte) →
      List (List Byte) → Prop
  | quiet {child} (idle : Idle records child) : Transit records done none done child [] []
  | sent {q child} (idle : Idle records child) :
      Transit records done (some q) done child [q] []
  | arrived {q tryit statics} (ready : Lookup5.Ready (outFile records) statics)
      (line : tryit.word.bytes = padded WORD q) :
      Transit records done (some q) done (some ⟨.lookup, tryit, statics⟩) [] []
  | lookedUp {q tryit statics} (ready : Lookup5.Ready (outFile records) statics)
      (text : tryit.text.str = reply records q) :
      Transit records done (some q) (done ++ [q]) (some ⟨.send, tryit, statics⟩) [] []
  | answered {q child} (idle : Idle records child) :
      Transit records done (some q) (done ++ [q]) child [] [reply records q]

/-- The client with the queries answered and the one that it waits for. -/
inductive Asking (records : List Dictrec) (queries : List (List Byte)) :
    List (List Byte) → Option (List Byte) → Client → Prop
  | reading {done first stdin} (lines : done ++ stdin = queries) :
      Asking records queries done none
        ⟨.gets, first, Dictrec.zero, stdin, done, done.map (answerFrom records)⟩
  | connecting {done q word first stdin} (lines : done ++ q :: stdin = queries)
      (line : Buffer.bytes word = padded WORD q) :
      Asking records queries done none ⟨.connect, first, ⟨word, Buffer.zero TEXT⟩, stdin,
        done ++ [q], done.map (answerFrom records)⟩
  | sending {done q word stdin} (lines : done ++ q :: stdin = queries)
      (line : Buffer.bytes word = padded WORD q) :
      Asking records queries done none ⟨.send, false, ⟨word, Buffer.zero TEXT⟩, stdin,
        done ++ [q], done.map (answerFrom records)⟩
  | waiting {done q word stdin} (lines : done ++ q :: stdin = queries) :
      Asking records queries done (some q) ⟨.recv, false, ⟨word, Buffer.zero TEXT⟩, stdin,
        done ++ [q], done.map (answerFrom records)⟩
  | received {done q word text stdin} (lines : done ++ q :: stdin = queries)
      (line : Buffer.bytes text = padded TEXT (reply records q)) :
      Asking records queries (done ++ [q]) none ⟨.compare, false, ⟨word, text⟩, stdin,
        done ++ [q], done.map (answerFrom records)⟩
  | clearing {done tryit stdin} (lines : done ++ stdin = queries) :
      Asking records queries done none
        ⟨.clear, false, tryit, stdin, done, done.map (answerFrom records)⟩
  | ended {first tryit} :
      Asking records queries queries none
        ⟨.finished, first, tryit, [], queries, queries.map (answerFrom records)⟩

/-- The two sides and the lookups made are in step. -/
def InStep (records : List Dictrec) (queries : List (List Byte)) (c : Connection)
    (keys : List (List Byte)) : Prop :=
  ∃ done request, Asking records queries done request c.client ∧
    Transit records done request keys c.child c.toServer c.toClient

section
variable {records : List Dictrec} {queries done keys : List (List Byte)} {serverTryit : Dictrec}

theorem Transit.alive {c : Connection} {request : Option (List Byte)}
    (transit : Transit records done request keys c.child c.toServer c.toClient) :
    childGone c = false := by
  obtain ⟨client, child, toServer, toClient⟩ := c
  cases transit with
  | quiet idle => exact idle.alive (c := ⟨client, child, [], []⟩)
  | @sent q _ idle => exact idle.alive (c := ⟨client, child, [q], []⟩)
  | @answered q _ idle => exact idle.alive (c := ⟨client, child, [], [reply records q]⟩)
  | arrived | lookedUp => rfl

theorem Transit.accept {request : Option (List Byte)} {toServer toClient : List (List Byte)}
    (zeroed : serverTryit.word = Buffer.zero WORD)
    (transit : Transit records done request keys none toServer toClient) :
    Transit records done request keys (some ⟨.recv, serverTryit, Lookup5.initial⟩)
      toServer toClient := by
  cases transit with
  | quiet => exact .quiet (Idle.accept zeroed)
  | sent => exact .sent (Idle.accept zeroed)
  | answered => exact .answered (Idle.accept zeroed)

/-- The child takes the request one stage further; its one lookup is for the request. -/
theorem Transit.server {c : Connection} {child child' : Child} {toClient' : List (List Byte)}
    {request : Option (List Byte)} (readable : Readable records)
    (query : ∀ q, request = some q → Query q ∧ reply records q ≠ [])
    (transit : Transit records done request keys c.child c.toServer c.toClient)
    (runs : c.child = some child)
    (h : childStep (some (outFile records)) child c.toClient = some (child', toClient')) :
    Transit records done request (keys ++ lookupKey .server c) (some child') c.toServer
      toClient' := by
  obtain ⟨client, here, toServer, toClient⟩ := c
  obtain rfl : here = some child := runs
  cases transit with
  | quiet idle =>
    obtain ⟨idle', rfl, clears⟩ := idle.server h
    simpa [lookupKey, clears] using Transit.quiet idle'
  | @sent q _ idle =>
    obtain ⟨idle', rfl, clears⟩ := idle.server h
    simpa [lookupKey, clears] using Transit.sent idle'
  | @answered q _ idle =>
    obtain ⟨idle', rfl, clears⟩ := idle.server h
    simpa [lookupKey, clears] using Transit.answered idle'
  | @arrived q tryit statics ready line =>
    obtain ⟨⟨-, clean, short⟩, -⟩ := query q rfl
    have word : tryit.word.str = q := Buffer.str_of_padded clean short line
    obtain ⟨tryit', statics', call, ready', text⟩ := lookup_answers readable word ready []
    rw [call] at h
    cases h
    have lookedUp : Transit records done (some q) (done ++ [q]) (some ⟨.send, tryit', statics'⟩)
        [] [] := .lookedUp ready' text
    simpa [lookupKey, word] using lookedUp
  | @lookedUp q tryit statics ready text =>
    simp only [childStep, Option.some.injEq, Prod.mk.injEq] at h
    obtain ⟨rfl, rfl⟩ := h
    have idle : Idle records (some ⟨.clear, tryit, statics⟩) := by
      rintro c ⟨⟩
      exact ⟨ready, Or.inl rfl⟩
    simpa [lookupKey, deliver, text, (query q rfl).2] using Transit.answered idle

/-- The child finds the request alone in its zeroed buffer. -/
theorem Transit.serverRecv {request : Option (List Byte)} {child : Child}
    {toServer toClient rest : List (List Byte)} {count : Nat} {block : List Byte} {gone : Bool}
    (query : ∀ q, request = some q → Query q)
    (transit : Transit records done request keys (some child) toServer toClient)
    (waits : child.pc = .recv) (whole : toServer.head?.map List.length = some count)
    (h : recv WORD count toServer gone = some (block, rest)) :
    Transit records done request keys (some { child with
      pc := .lookup
      tryit := { child.tryit with word := child.tryit.word.receive block } }) rest toClient := by
  cases transit with
  | quiet => cases whole
  | arrived => cases waits
  | lookedUp => cases waits
  | answered => cases whole
  | @sent q _ idle =>
    obtain ⟨nonempty, -, short⟩ := query q rfl
    obtain rfl : q.length = count := Option.some.inj whole
    rw [recv_whole nonempty (Nat.le_of_lt short)] at h
    cases h
    obtain ⟨ready, line⟩ := idle.received waits (Nat.le_of_lt short)
    exact .arrived ready line

/-- The statements of the client that do not wait for the server. -/
theorem Asking.client {request : Option (List Byte)} {c c' : Client} {child : Option Child}
    {toServer toServer' toClient : List (List Byte)}
    (readable : Readable records) (queried : ∀ q ∈ queries, Query q)
    (asking : Asking records queries done request c)
    (transit : Transit records done request keys child toServer toClient)
    (h : clientStep c toServer = some (c', toServer')) :
    InStep records queries ⟨c', child, toServer', toClient⟩ keys := by
  cases asking with
  | @reading _ first stdin lines =>
    cases stdin with
    | nil =>
      cases h
      obtain rfl : done = queries := by simpa using lines
      exact ⟨_, none, .ended, transit⟩
    | cons q stdin =>
      obtain ⟨-, -, short⟩ := queried q (by simp [← lines])
      obtain ⟨word, line, step⟩ := gets_line first short
      rw [step] at h
      cases h
      cases first with
      | true => exact ⟨done, none, .connecting lines line, transit⟩
      | false => exact ⟨done, none, .sending lines line, transit⟩
  | connecting lines line =>
    cases h
    exact ⟨done, none, .sending lines line, transit⟩
  | @sending _ q word stdin lines line =>
    obtain ⟨nonempty, clean, short⟩ := queried q (by simp [← lines])
    rw [send_line nonempty clean short line] at h
    cases h
    cases transit with
    | quiet idle =>
      exact ⟨_, some q, .waiting lines, .sent idle⟩
  | waiting => cases h
  | @received done q word text stdin lines line =>
    obtain ⟨clean, short⟩ := reply_clean readable q
    obtain ⟨str, status⟩ := replyStatus_padded clean short line
    have answer : (replyStatus text, text.str) = answerFrom records q := by
      rw [str, status, answerFrom]
    simp only [clientStep, answer, Option.some.injEq, Prod.mk.injEq] at h
    obtain ⟨rfl, rfl⟩ := h
    have results : done.map (answerFrom records) ++ [answerFrom records q] =
        (done ++ [q]).map (answerFrom records) := by simp
    refine ⟨done ++ [q], none, ?_, transit⟩
    rw [results]
    exact .clearing (by simpa using lines)
  | clearing lines =>
    cases h
    exact ⟨done, none, .reading lines, transit⟩
  | ended => cases h

/-- The client finds the reply alone in its zeroed buffer. -/
theorem Asking.recv {request : Option (List Byte)} {c : Client} {child : Option Child}
    {toServer toClient rest : List (List Byte)} {count : Nat} {block : List Byte} {gone : Bool}
    (readable : Readable records)
    (answered : ∀ q, request = some q → reply records q ≠ [])
    (asking : Asking records queries done request c)
    (transit : Transit records done request keys child toServer toClient) (waits : c.pc = .recv)
    (whole : toClient.head?.map List.length = some count)
    (h : Dictionary.recv TEXT count toClient gone = some (block, rest)) :
    InStep records queries ⟨{ c with
      pc := .compare
      tryit := { c.tryit with text := c.tryit.text.receive block } }, child, toServer, rest⟩
      keys := by
  cases asking with
  | @waiting _ q word stdin lines =>
    cases transit with
    | sent => cases whole
    | arrived => cases whole
    | lookedUp => cases whole
    | answered idle =>
      have short := (reply_clean readable q).2
      obtain rfl : (reply records q).length = count := Option.some.inj whole
      rw [recv_whole (answered q rfl) (Nat.le_of_lt short)] at h
      cases h
      exact ⟨_, none, .received lines (Buffer.receive_zero (Nat.le_of_lt short)), .quiet idle⟩
  | _ => cases waits

theorem Asking.request_mem {request : Option (List Byte)} {c : Client}
    (asking : Asking records queries done request c) :
    ∀ q, request = some q → q ∈ queries := by
  rintro q rfl
  cases asking with
  | waiting lines => simp [← lines]

/-- Step lemma: as long as every `recv` returns one message, the two sides stay in step. -/
theorem InStep.step {c c' : Connection} {act : Act}
    (readable : Readable records) (queried : ∀ q ∈ queries, Query q)
    (answered : ∀ q ∈ queries, reply records q ≠ [])
    (zeroed : serverTryit.word = Buffer.zero WORD) (inStep : InStep records queries c keys)
    (whole : MessageAtOnce act c)
    (h : next (some (outFile records)) serverTryit act c = some c') :
    InStep records queries c' (keys ++ lookupKey act c) := by
  obtain ⟨done, request, asking, transit⟩ := inStep
  have query : ∀ q, request = some q → Query q ∧ reply records q ≠ [] := by
    intro q asked
    have member := asking.request_mem q asked
    exact ⟨queried q member, answered q member⟩
  have alive := transit.alive (c := c)
  obtain ⟨client, child, toServer, toClient⟩ := c
  have silent : ∀ act', act' ≠ .server →
      lookupKey act' ⟨client, child, toServer, toClient⟩ = [] := by
    rintro (_ | _) other <;> first | rfl | exact absurd rfl other
  cases next_move h with
  | client client' toServer' step =>
    rw [silent _ (by simp), List.append_nil]
    exact asking.client readable queried transit step
  | clientRecv count block rest waits received =>
    rw [silent _ (by simp), List.append_nil]
    exact asking.recv readable (fun q asked => (query q asked).2) transit waits whole received
  | accept fresh =>
    obtain rfl : child = none := fresh
    rw [silent _ (by simp), List.append_nil]
    exact ⟨done, request, asking, transit.accept zeroed⟩
  | clientSigpipe _ gone => exact absurd (alive.symm.trans gone) Bool.false_ne_true
  | server child child' toClient' runs step =>
    exact ⟨done, request, asking, transit.server readable query runs step⟩
  | serverRecv count child block rest runs waits received =>
    cases runs
    rw [silent _ (by simp), List.append_nil]
    exact ⟨done, request, asking,
      transit.serverRecv (fun q asked => (query q asked).1) waits whole received⟩
  | serverSigpipe child runs sends gone =>
    cases runs
    cases transit with
    | quiet idle => obtain ⟨-, pc | ⟨pc, -⟩⟩ := idle _ rfl <;> cases sends.symm.trans pc
    | sent idle => obtain ⟨-, pc | ⟨pc, -⟩⟩ := idle _ rfl <;> cases sends.symm.trans pc
    | answered idle => obtain ⟨-, pc | ⟨pc, -⟩⟩ := idle _ rfl <;> cases sends.symm.trans pc
    | arrived => cases sends
    | lookedUp =>
      cases asking with
      | waiting => cases gone

theorem InStep.start (queries : List (List Byte)) :
    InStep records queries (Connection.initial Dictrec.zero queries) [] :=
  ⟨[], none, .reading rfl, .quiet (by rintro c ⟨⟩)⟩

theorem InStep.oneLookupEach {c : Connection} (inStep : InStep records queries c keys) :
    OneLookupEach records queries c keys := by
  have of_lines : ∀ {done rest : List (List Byte)}, done ++ rest = queries →
      done.map (answerFrom records) =
        (queries.take (done.map (answerFrom records)).length).map (answerFrom records) := by
    rintro done rest rfl
    simp
  obtain ⟨client, child, toServer, toClient⟩ := c
  obtain ⟨done, request, asking, transit⟩ := inStep
  cases asking with
  | reading lines | connecting lines | sending lines | clearing lines =>
    cases transit with
    | quiet => exact ⟨⟨_, lines⟩, of_lines lines, by simp, by simp⟩
  | received lines =>
    cases transit with
    | quiet => exact ⟨⟨_, by simpa using lines⟩, of_lines lines, by simp, by simp⟩
  | waiting lines =>
    cases transit with
    | sent => exact ⟨⟨_, lines⟩, of_lines lines, by simp, by simp⟩
    | arrived => exact ⟨⟨_, lines⟩, of_lines lines, by simp, by simp⟩
    | lookedUp => exact ⟨⟨_, by simpa using lines⟩, of_lines lines, by simp, by simp⟩
    | answered => exact ⟨⟨_, by simpa using lines⟩, of_lines lines, by simp, by simp⟩
  | ended =>
    cases transit with
    | quiet => exact ⟨List.prefix_refl _, of_lines (List.append_nil _), by simp, by simp⟩

/-- All queries are looked up and answered. -/
def AllAnswered (records : List Dictrec) (queries : List (List Byte))
    (s : Connection × List (List Byte)) : Prop :=
  s.2 = queries ∧ s.1.client.results = queries.map (answerFrom records)

theorem InStep.all_answered {c : Connection} (inStep : InStep records queries c keys)
    (done : c.client.pc = .finished) : AllAnswered records queries (c, keys) := by
  obtain ⟨client, child, toServer, toClient⟩ := c
  obtain ⟨_, request, asking, transit⟩ := inStep
  cases asking with
  | ended =>
    cases transit with
    | quiet => exact ⟨rfl, rfl⟩
  | _ => cases done

/-- Until the client has ended some side can take a step. -/
theorem InStep.progress {c : Connection} (serverTryit : Dictrec)
    (readable : Readable records) (queried : ∀ q ∈ queries, Query q)
    (answered : ∀ q ∈ queries, reply records q ≠ [])
    (inStep : InStep records queries c keys) (running : c.client.pc ≠ .finished) :
    ∃ act c', MessageAtOnce act c ∧ next (some (outFile records)) serverTryit act c = some c' := by
  obtain ⟨client, child, toServer, toClient⟩ := c
  obtain ⟨done, request, asking, transit⟩ := inStep
  cases asking with
  | @reading _ first stdin lines =>
    cases stdin with
    | nil => exact ⟨.client, _, trivial, rfl⟩
    | cons q stdin =>
      obtain ⟨-, -, short⟩ := queried q (by simp [← lines])
      obtain ⟨word, -, step⟩ := gets_line first short
      exact ⟨.client, _, trivial, by rw [next, step]; rfl⟩
  | connecting | sending | received | clearing => exact ⟨.client, _, trivial, rfl⟩
  | @waiting _ q word stdin lines =>
    have member : q ∈ queries := by simp [← lines]
    obtain ⟨nonempty, clean, short⟩ := queried q member
    cases transit with
    | sent idle =>
      cases child with
      | none => exact ⟨.accept, _, trivial, rfl⟩
      | some child =>
        obtain ⟨-, clear | ⟨waits, -⟩⟩ := idle child rfl
        · refine ⟨.server, ?_⟩
          simp [next, childStep, clear, MessageAtOnce]
        · refine ⟨.serverRecv q.length, ?_⟩
          simp [next, waits, recv_whole nonempty (Nat.le_of_lt short), MessageAtOnce]
    | @arrived _ tryit statics ready line =>
      obtain ⟨tryit', statics', call, -⟩ := lookup_answers readable
        (Buffer.str_of_padded clean short line) ready []
      refine ⟨.server, ?_⟩
      simp [next, call, MessageAtOnce]
    | lookedUp => exact ⟨.server, _, trivial, rfl⟩
    | answered idle =>
      have short := (reply_clean readable q).2
      refine ⟨.clientRecv (reply records q).length, ?_⟩
      simp [next, recv_whole (answered q member) (Nat.le_of_lt short), MessageAtOnce]
  | ended => exact absurd rfl running

/-- Under way to the server is the request at most, so that its `recv` empties the stream. -/
theorem InStep.request_taken {c : Connection} {count : Nat} {block : List Byte}
    {rest : List (List Byte)} (queried : ∀ q ∈ queries, Query q)
    (inStep : InStep records queries c keys)
    (whole : c.toServer.head?.map List.length = some count)
    (h : recv WORD count c.toServer (clientGone c) = some (block, rest)) :
    rest.length < c.toServer.length := by
  obtain ⟨client, child, toServer, toClient⟩ := c
  obtain ⟨done, request, asking, transit⟩ := inStep
  cases transit with
  | @sent q =>
    obtain ⟨nonempty, -, short⟩ := queried q (asking.request_mem q rfl)
    obtain rfl : q.length = count := Option.some.inj whole
    rw [recv_whole nonempty (Nat.le_of_lt short)] at h
    cases h
    exact Nat.zero_lt_one
  | _ => cases whole

end

/-- The dialogues in which every `recv` returns one message, with the lookups made. -/
def unsplitDialogue (records : List Dictrec) (serverTryit : Dictrec)
    (queries : List (List Byte)) : StepSystem (Connection × List (List Byte)) Act :=
  ((recordDialogue records serverTryit queries).restrict MessageAtOnce).logged lookupKey

section
variable {records : List Dictrec} {queries done keys : List (List Byte)} {serverTryit : Dictrec}

theorem InStep.reachable {s : Connection × List (List Byte)}
    (readable : Readable records) (queried : ∀ q ∈ queries, Query q)
    (answered : ∀ q ∈ queries, reply records q ≠ [])
    (zeroed : serverTryit.word = Buffer.zero WORD)
    (reach : (unsplitDialogue records serverTryit queries).Reachable s) :
    InStep records queries s.1 s.2 := by
  refine reach.invariant (I := fun s => InStep records queries s.1 s.2) ?_ ?_
  · rintro ⟨c, keys⟩ ⟨rfl, rfl⟩
    exact InStep.start queries
  · rintro act ⟨c, keys⟩ ⟨c', keys'⟩ inStep ⟨⟨whole, h⟩, rfl⟩
    exact inStep.step readable queried answered zeroed whole h

/-- Run lemma: every dialogue that goes on as long as it can gets all answers. -/
theorem InStep.finishes {s : Connection × List (List Byte)}
    (readable : Readable records) (queried : ∀ q ∈ queries, Query q)
    (answered : ∀ q ∈ queries, reply records q ≠ [])
    (zeroed : serverTryit.word = Buffer.zero WORD) (inStep : InStep records queries s.1 s.2) :
    Inevitable (unsplitDialogue records serverTryit queries) (AllAnswered records queries) s := by
  refine Inevitable.of_measure (fun s => InStep records queries s.1 s.2)
    (Nat.lt_wfRel.wf) (fun s => s.1.weight) ?_ ?_ s inStep
  · rintro ⟨c, keys⟩ inStep unanswered
    by_cases done : c.client.pc = .finished
    · exact absurd (inStep.all_answered done) unanswered
    · obtain ⟨act, c', whole, h⟩ := inStep.progress serverTryit readable queried answered done
      exact ⟨act, (c', _), ⟨whole, h⟩, rfl⟩
  · rintro act ⟨c, keys⟩ ⟨c', keys'⟩ inStep ⟨⟨whole, h⟩, rfl⟩
    refine ⟨inStep.step readable queried answered zeroed whole h, next_weight_of ?_ h⟩
    rintro count block rest rfl received
    exact inStep.request_taken queried whole received

/-- As long as every `recv` returns one message, each query is looked up once and whole,
each answer is the complete reply, and every query gets one. -/
theorem unsplit_messages_answered (records : List Dictrec) (serverTryit : Dictrec)
    (queries : List (List Byte)) (readable : Readable records)
    (zeroed : serverTryit.word = Buffer.zero WORD) (queried : ∀ q ∈ queries, Query q)
    (answered : ∀ q ∈ queries, reply records q ≠ []) {c : Connection}
    {keys : List (List Byte)}
    (reach : (unsplitDialogue records serverTryit queries).Reachable (c, keys)) :
    OneLookupEach records queries c keys ∧
      Inevitable (unsplitDialogue records serverTryit queries) (AllAnswered records queries)
        (c, keys) := by
  have inStep := InStep.reachable readable queried answered zeroed reach
  exact ⟨inStep.oneLookupEach, InStep.finishes readable queried answered zeroed inStep⟩

theorem recv_part {size count : Nat} {block got : List Byte} {rest : List (List Byte)} {gone : Bool}
    (nonempty : block ≠ []) (part : block.length ≠ count)
    (h : recv size count [block] gone = some (got, rest)) :
    got = block.take count ∧ count < block.length := by
  obtain ⟨⟨-, -, short⟩, same⟩ :
      (0 < count ∧ count ≤ size ∧ count ≤ block.length) ∧ (block.take count, _) = (got, rest) := by
    simpa [recv, nonempty] using h
  cases same
  exact ⟨rfl, by omega⟩

theorem recv_empty {size count : Nat} {got : List Byte} {rest : List (List Byte)} {gone : Bool}
    (h : recv size count [] gone = some (got, rest)) : got = [] ∧ gone = true := by
  obtain ⟨⟨-, gone⟩, rfl, -⟩ : (count = 0 ∧ gone = true) ∧ [] = got ∧ [] = rest := by
    simpa [recv] using h
  exact ⟨rfl, gone⟩

/-- Some side takes a step after which there is not one right lookup for each query. -/
def BreaksNext (records : List Dictrec) (serverTryit : Dictrec) (queries : List (List Byte))
    (keys : List (List Byte)) (c : Connection) : Prop :=
  ∃ act c', next (some (outFile records)) serverTryit act c = some c' ∧
    ¬ OneLookupEach records queries c' (keys ++ lookupKey act c)

theorem take_short {s : List Byte} {n : Nat} (short : s.length < n) (count : Nat) :
    (s.take count).length < n :=
  Nat.lt_of_le_of_lt (List.length_take_le' count s) short

/-- A child looks up what is in its buffer, whatever it is. -/
theorem wrong_key_breaks {client : Client} {tryit : Dictrec} {statics : Lookup5}
    {toServer toClient : List (List Byte)} {key : List Byte}
    (readable : Readable records) (ready : statics.Ready (outFile records))
    (word : tryit.word.str = key) (wrong : ¬ keys ++ [key] <+: queries) :
    BreaksNext records serverTryit queries keys
      ⟨client, some ⟨.lookup, tryit, statics⟩, toServer, toClient⟩ := by
  obtain ⟨tryit', statics', call, -⟩ := lookup_answers readable word ready toClient
  refine ⟨.server, ⟨client, some ⟨.send, tryit', statics'⟩, toServer, toClient⟩, ?_, ?_⟩
  · exact next_server call serverTryit client toServer
  · intro right
    exact wrong (by simpa [lookupKey, word] using right.keys_asked)

/-- A part of the reply is returned for the reply. -/
theorem reply_part_breaks {word : Buffer WORD} {child : Option Child} {q : List Byte}
    {stdin toServer toClient : List (List Byte)} {count : Nat}
    (readable : Readable records) (lines : done ++ q :: stdin = queries)
    (part : count < (reply records q).length) :
    BreaksNext records serverTryit queries keys ⟨⟨.compare, false,
      ⟨word, (Buffer.zero TEXT).receive ((reply records q).take count)⟩, stdin, done ++ [q],
      done.map (answerFrom records)⟩, child, toServer, toClient⟩ := by
  refine ⟨.client, _, rfl, ?_⟩
  intro right
  obtain ⟨clean, short⟩ := reply_clean readable q
  have fits := take_short short count
  have text : ((Buffer.zero TEXT).receive ((reply records q).take count)).str =
      (reply records q).take count :=
    Buffer.str_of_padded (fun bad => clean (List.mem_of_mem_take bad)) fits
      (Buffer.receive_zero (Nat.le_of_lt fits))
  subst lines
  have last := congrArg (fun results => results[done.length]?) right.answers
  have same : (reply records q).take count = reply records q := by
    simpa [text, answerFrom] using congrArg (Option.map Prod.snd) last
  have whole := congrArg List.length same
  rw [List.length_take] at whole
  omega

/-- A part of the query is no key that was asked for. -/
theorem query_part_wrong {q : List Byte} {stdin : List (List Byte)} {count : Nat}
    (lines : done ++ q :: stdin = queries) (part : count < q.length) :
    ¬ done ++ [q.take count] <+: queries := by
  intro longer
  rw [← lines, List.prefix_append_right_inj] at longer
  have same : q.take count = q := (List.cons_prefix_cons.mp longer).1
  have whole := congrArg List.length same
  rw [List.length_take] at whole
  omega

/-- A `recv` that returns something else than one message breaks the dialogue: the next
statement of that side looks up a wrong key or returns a wrong answer. -/
theorem split_message_breaks {c c' : Connection} {act : Act}
    (readable : Readable records) (queried : ∀ q ∈ queries, Query q)
    (answered : ∀ q ∈ queries, reply records q ≠ [])
    (zeroed : serverTryit.word = Buffer.zero WORD)
    (reach : (unsplitDialogue records serverTryit queries).Reachable (c, keys))
    (split : ¬ MessageAtOnce act c)
    (h : next (some (outFile records)) serverTryit act c = some c') :
    BreaksNext records serverTryit queries keys c' := by
  have inStep : InStep records queries c keys :=
    InStep.reachable readable queried answered zeroed reach
  obtain ⟨done, request, asking, transit⟩ := inStep
  have alive := transit.alive
  obtain ⟨client, child, toServer, toClient⟩ := c
  cases next_move h with
  | client | accept | server | clientSigpipe | serverSigpipe => exact absurd trivial split
  | clientRecv count block rest waits received =>
    cases asking with
    | @waiting _ q word stdin lines =>
      have nonempty := answered q (by simp [← lines])
      cases transit with
      | answered idle =>
        obtain ⟨rfl, part⟩ := recv_part nonempty (fun whole => split (congrArg some whole)) received
        exact reply_part_breaks readable lines part
      | sent | arrived | lookedUp =>
        obtain ⟨-, gone⟩ := recv_empty received
        exact absurd (alive.symm.trans gone) Bool.false_ne_true
    | _ => cases waits
  | serverRecv count child block rest runs waits received =>
    cases runs
    cases transit with
    | quiet idle =>
      obtain ⟨rfl, gone⟩ := recv_empty received
      obtain ⟨ready, line⟩ := idle.received (q := []) waits (Nat.zero_le WORD)
      cases asking with
      | ended =>
        refine wrong_key_breaks readable ready
          (Buffer.str_of_padded (by simp) (by decide) line) ?_
        intro longer
        have := longer.length_le
        rw [List.length_append, List.length_singleton] at this
        omega
      | _ => cases gone
    | @sent q _ idle =>
      obtain ⟨nonempty, clean, short⟩ := queried q (asking.request_mem q rfl)
      obtain ⟨rfl, part⟩ := recv_part nonempty (fun whole => split (congrArg some whole)) received
      have fits := take_short short count
      obtain ⟨ready, line⟩ := idle.received waits (Nat.le_of_lt fits)
      have clean' : 0 ∉ q.take count := fun bad => clean (List.mem_of_mem_take bad)
      cases asking with
      | waiting lines =>
        exact wrong_key_breaks readable ready (Buffer.str_of_padded clean' fits line)
          (query_part_wrong lines part)
    | answered idle =>
      obtain ⟨-, gone⟩ := recv_empty received
      cases asking with
      | waiting => cases gone
    | arrived | lookedUp => cases waits

end

theorem unsplit_query_answered :
    OneLookupEach [exampleRecord] [[99, 97, 116]]
        (Connection.initial Dictrec.zero [[99, 97, 116]]) [] ∧
      Inevitable (unsplitDialogue [exampleRecord] Dictrec.zero [[99, 97, 116]])
        (AllAnswered [exampleRecord] [[99, 97, 116]])
        (Connection.initial Dictrec.zero [[99, 97, 116]], []) :=
  unsplit_messages_answered [exampleRecord] Dictrec.zero [[99, 97, 116]] (by decide) rfl
    (by simp only [Query]; decide) (by decide) (Reachable.initial ⟨rfl, rfl⟩)

/-- The first byte of "cat" arrives alone and is looked up. -/
private def splitSchedule : List Act :=
  [.client, .client, .client, .accept, .serverRecv 1, .server]

theorem split_query_looked_up_in_parts :
    ¬ ∀ (records : List Dictrec) (serverTryit : Dictrec) (queries : List (List Byte)),
      (∀ r ∈ records, 0 ∈ r.text.bytes) → serverTryit.word = Buffer.zero WORD →
      (∀ q ∈ queries, Query q) → ∀ s,
      ((recordDialogue records serverTryit queries).logged lookupKey).Reachable s →
      OneLookupEach records queries s.1 s.2 := by
  intro claim
  have run : (follow (recording (next (some (outFile [exampleRecord])) Dictrec.zero) lookupKey)
      splitSchedule (Connection.initial Dictrec.zero [[99, 97, 116]], [])).map Prod.snd =
        some [[99]] := by decide +kernel
  obtain ⟨s, followed, keys⟩ := Option.map_eq_some_iff.mp run
  have start : ((recordDialogue [exampleRecord] Dictrec.zero [[99, 97, 116]]).logged
      lookupKey).Reachable (Connection.initial Dictrec.zero [[99, 97, 116]], []) :=
    Reachable.initial ⟨rfl, rfl⟩
  have reach := start.run (follow_recording_run (fun _ _ _ step => step) followed)
  have right := claim [exampleRecord] Dictrec.zero [[99, 97, 116]] (by decide) rfl
    (by simp only [Query]; decide) s reach
  have asked := right.keys_asked
  rw [keys] at asked
  exact absurd asked (by decide)

end Dictionary
