import Mathlib.Data.List.Forall2
import NetworkSystemProgramming.Dictionary.RequestReply

/-!
# A remote lookup gives the local result

Neither side sends a length or a terminator. The replies are read correctly because
each side has a zeroed buffer whenever it waits for the other one.
-/

namespace Dictionary

open ByteBuffers StepSystems StepSystem

/-- No text of the table is empty or reads like the reply for a missing word. -/
def RecordTable.Plain (table : RecordTable) : Prop :=
  ∀ r ∈ table.records, r.text.str ≠ [] ∧ r.text.str ≠ notFoundText

/-- A line that fits the word field. -/
def Query (q : List Byte) : Prop := q ≠ [] ∧ 0 ∉ q ∧ q.length < WORD

/-- The result that a direct call of `lookup5` gives, whatever was looked up before:
the same status and, when the word is found, the same text. -/
def LocalAnswer (table : RecordTable) (q : List Byte) (result : Int × List Byte) : Prop :=
  ∀ (st : Lookup5) (sought : Dictrec), st.Ready table.file → sought.word.str = q →
    ∃ found st', lookup5 st (some table.file) sought = .ok (result.1, found, st') ∧
      st'.Ready table.file ∧ (result.1 = FOUND → found.text.str = result.2)

theorem reply_spec {table : RecordTable} (plain : table.Plain) (word : List Byte) :
    reply table.records word ≠ [] ∧ 0 ∉ reply table.records word ∧
      (reply table.records word).length < TEXT := by
  refine ⟨?_, reply_clean table.readable word⟩
  cases search : findRecord table.records word with
  | none =>
    simp only [reply, search]
    decide
  | some r =>
    simp only [reply, search]
    exact (plain r (findRecord_mem search)).1

/-- The client has the local result exactly when its text is the reply. -/
theorem localAnswer_iff {table : RecordTable} (plain : table.Plain) {q : List Byte}
    (query : Query q) (text : Buffer TEXT) :
    LocalAnswer table q (replyStatus text, text.str) ↔ text.str = reply table.records q := by
  rw [replyStatus_eq]
  constructor
  · intro answer
    obtain ⟨-, clean, short⟩ := query
    let sought : Dictrec := ⟨Buffer.ofString WORD q (Nat.le_of_lt short), Buffer.zero TEXT⟩
    have word : sought.word.str = q := Buffer.str_of_padded clean short rfl
    obtain ⟨found, st, call, -, same⟩ :=
      answer Lookup5.initial sought (Lookup5.initial_ready table.file) word
    rcases table.lookup5_returns (Lookup5.initial_ready table.file) sought with
      ⟨r, -, search, found', call', -, textStr⟩ | ⟨search, call'⟩
    · rw [call'] at call
      simp only [Except.ok.injEq, Prod.mk.injEq] at call
      obtain ⟨status, rfl, -⟩ := call
      have returned : found'.text.str = text.str := same status.symm
      rw [reply, ← word, search, ← returned, textStr]
    · rw [call'] at call
      simp only [Except.ok.injEq, Prod.mk.injEq] at call
      rw [reply, ← word, search]
      by_contra other
      rw [if_neg other] at call
      exact absurd call.1 (by decide)
  · intro str st sought ready word
    rcases table.lookup5_returns ready sought with
      ⟨r, member, search, found, call, -, textStr⟩ | ⟨search, call⟩
    · have text_eq : reply table.records q = r.text.str := by rw [← word, reply, search]
      rw [text_eq] at str
      rw [str, if_neg (plain r member).2]
      exact ⟨found, _, call, Lookup5.mapped_ready _, fun _ => textStr⟩
    · have text_eq : reply table.records q = notFoundText := by rw [← word, reply, search]
      rw [text_eq] at str
      rw [if_pos str]
      refine ⟨sought, _, call, Lookup5.mapped_ready _, ?_⟩
      intro found
      cases found

/-- The client reads the local result off the reply. -/
theorem reply_localAnswer {table : RecordTable} (plain : table.Plain) {q : List Byte}
    (query : Query q) {text : Buffer TEXT} (h : text.bytes = padded TEXT (reply table.records q)) :
    LocalAnswer table q (replyStatus text, text.str) := by
  obtain ⟨-, clean, room⟩ := reply_spec plain q
  exact (localAnswer_iff plain query text).mpr (replyStatus_padded clean room h).1

/-- Where the request `q` that the client waits for is: the child and the sends under
way. Without a request the child is idle and nothing is under way. -/
inductive Exchange (table : RecordTable) :
    Option (List Byte) → Option Child → List (List Byte) → List (List Byte) → Prop
  | quiet {child} (idle : Idle table.records child) : Exchange table none child [] []
  | sent {q child} (idle : Idle table.records child) : Exchange table (some q) child [q] []
  | arrived {q tryit statics} (ready : Lookup5.Ready table.file statics)
      (line : tryit.word.bytes = padded WORD q) :
      Exchange table (some q) (some ⟨.lookup, tryit, statics⟩) [] []
  | lookedUp {q tryit statics} (ready : Lookup5.Ready table.file statics)
      (text : tryit.text.str = reply table.records q) :
      Exchange table (some q) (some ⟨.send, tryit, statics⟩) [] []
  | answered {q child} (idle : Idle table.records child) :
      Exchange table (some q) child [] [reply table.records q]

/-- The results so far are the local ones. -/
abbrev Answered (table : RecordTable) := List.Forall₂ (LocalAnswer table)

/-- The client up to its end, with the request that it waits for: `done` are the lines
answered, `q` is the one at hand. -/
inductive ClientPhase (table : RecordTable) (queries : List (List Byte)) :
    Option (List Byte) → Client → Prop
  | reading {first stdin done results} (lines : done ++ stdin = queries)
      (answers : Answered table done results) :
      ClientPhase table queries none ⟨.gets, first, Dictrec.zero, stdin, done, results⟩
  | connecting {first word stdin done q results} (lines : done ++ q :: stdin = queries)
      (answers : Answered table done results) (line : Buffer.bytes word = padded WORD q) :
      ClientPhase table queries none
        ⟨.connect, first, ⟨word, Buffer.zero TEXT⟩, stdin, done ++ [q], results⟩
  | sending {word stdin done q results} (lines : done ++ q :: stdin = queries)
      (answers : Answered table done results) (line : Buffer.bytes word = padded WORD q) :
      ClientPhase table queries none
        ⟨.send, false, ⟨word, Buffer.zero TEXT⟩, stdin, done ++ [q], results⟩
  | waiting {word stdin done q results} (lines : done ++ q :: stdin = queries)
      (answers : Answered table done results) :
      ClientPhase table queries (some q)
        ⟨.recv, false, ⟨word, Buffer.zero TEXT⟩, stdin, done ++ [q], results⟩
  | received {word text stdin done q results} (lines : done ++ q :: stdin = queries)
      (answers : Answered table done results)
      (line : Buffer.bytes text = padded TEXT (reply table.records q)) :
      ClientPhase table queries none ⟨.compare, false, ⟨word, text⟩, stdin, done ++ [q], results⟩
  | clearing {tryit stdin done results} (lines : done ++ stdin = queries)
      (answers : Answered table done results) :
      ClientPhase table queries none ⟨.clear, false, tryit, stdin, done, results⟩

/-- The client has seen the end of its input. -/
def Ended (table : RecordTable) (queries : List (List Byte)) (c : Client) : Prop :=
  c.pc = .finished ∧ c.stdin = [] ∧ c.asked = queries ∧ Answered table queries c.results

def Coherent (table : RecordTable) (queries : List (List Byte)) (c : Connection) : Prop :=
  (∃ request, ClientPhase table queries request c.client ∧
    Exchange table request c.child c.toServer c.toClient) ∨ Ended table queries c.client

section
variable {table : RecordTable} {queries : List (List Byte)} {serverTryit : Dictrec}

theorem ClientPhase.running {request : Option (List Byte)} {c : Client}
    (h : ClientPhase table queries request c) : c.pc ≠ .finished := by
  cases h <;> simp

theorem Exchange.accept {request : Option (List Byte)} {toServer toClient : List (List Byte)}
    (zeroed : serverTryit.word = Buffer.zero WORD)
    (exchange : Exchange table request none toServer toClient) :
    Exchange table request (some ⟨.recv, serverTryit, Lookup5.initial⟩) toServer toClient := by
  cases exchange with
  | quiet => exact .quiet (Idle.accept zeroed)
  | sent => exact .sent (Idle.accept zeroed)
  | answered => exact .answered (Idle.accept zeroed)

/-- The child takes the request one stage further. -/
theorem Exchange.server {request : Option (List Byte)} {child child' : Child}
    {toServer toClient toClient' : List (List Byte)} (plain : table.Plain)
    (query : ∀ q, request = some q → Query q)
    (exchange : Exchange table request (some child) toServer toClient)
    (h : childStep (some table.file) child toClient = some (child', toClient')) :
    Exchange table request (some child') toServer toClient' := by
  cases exchange with
  | quiet idle =>
    obtain ⟨idle', rfl, -⟩ := idle.server h
    exact .quiet idle'
  | sent idle =>
    obtain ⟨idle', rfl, -⟩ := idle.server h
    exact .sent idle'
  | answered idle =>
    obtain ⟨idle', rfl, -⟩ := idle.server h
    exact .answered idle'
  | arrived ready line =>
    have word := Buffer.str_of_padded (query _ rfl).2.1 (query _ rfl).2.2 line
    obtain ⟨tryit, statics, call, ready', text⟩ := lookup_answers table.readable word ready []
    rw [call] at h
    cases h
    exact .lookedUp ready' text
  | @lookedUp q tryit statics ready text =>
    simp only [childStep, Option.some.injEq, Prod.mk.injEq] at h
    obtain ⟨rfl, rfl⟩ := h
    rw [text, deliver, if_neg (reply_spec plain _).1]
    refine .answered ?_
    rintro c ⟨⟩
    exact ⟨ready, Or.inl rfl⟩

/-- The child finds the request alone in its zeroed buffer. -/
theorem Exchange.serverRecv {request : Option (List Byte)} {child : Child}
    {toServer toClient rest : List (List Byte)} {count : Nat} {block : List Byte}
    (query : ∀ q, request = some q → Query q)
    (exchange : Exchange table request (some child) toServer toClient)
    (waits : child.pc = .recv) (whole : ∀ block ∈ toServer.head?, count = block.length)
    (h : recv WORD count toServer false = some (block, rest)) :
    Exchange table request (some { child with
      pc := .lookup
      tryit := { child.tryit with word := child.tryit.word.receive block } }) rest toClient := by
  cases exchange with
  | quiet => simp [recv_nothing] at h
  | arrived => cases waits
  | lookedUp => cases waits
  | answered => simp [recv_nothing] at h
  | @sent q _ idle =>
    obtain ⟨nonempty, -, short⟩ := query q rfl
    obtain rfl : count = q.length := whole q rfl
    rw [recv_whole nonempty (Nat.le_of_lt short)] at h
    cases h
    obtain ⟨ready, line⟩ := idle.received waits (Nat.le_of_lt short)
    exact .arrived ready line

/-- The statements of the client that do not wait for the server. -/
theorem ClientPhase.client {request : Option (List Byte)} {c c' : Client} {child : Option Child}
    {toServer toServer' toClient : List (List Byte)} (plain : table.Plain)
    (queried : ∀ q ∈ queries, Query q)
    (phase : ClientPhase table queries request c)
    (exchange : Exchange table request child toServer toClient)
    (h : clientStep c toServer = some (c', toServer')) :
    Coherent table queries ⟨c', child, toServer', toClient⟩ := by
  cases phase with
  | @reading first stdin done results lines answers =>
    cases stdin with
    | nil =>
      simp only [clientStep, Option.some.injEq, Prod.mk.injEq] at h
      obtain ⟨rfl, rfl⟩ := h
      rw [List.append_nil] at lines
      subst lines
      exact Or.inr ⟨rfl, rfl, rfl, answers⟩
    | cons q stdin =>
      obtain ⟨-, -, short⟩ := queried q (by simp [← lines])
      obtain ⟨word, line, step⟩ := gets_line first short
      rw [step] at h
      cases h
      cases exchange with
      | quiet idle =>
        cases first with
        | true => exact Or.inl ⟨none, .connecting lines answers line, .quiet idle⟩
        | false => exact Or.inl ⟨none, .sending lines answers line, .quiet idle⟩
  | connecting lines answers line =>
    cases h
    exact Or.inl ⟨none, .sending lines answers line, exchange⟩
  | @sending word stdin done q results lines answers line =>
    obtain ⟨nonempty, clean, short⟩ := queried q (by simp [← lines])
    rw [send_line nonempty clean short line] at h
    cases h
    cases exchange with
    | quiet idle =>
      exact Or.inl ⟨some q, .waiting lines answers, .sent idle⟩
  | waiting => cases h
  | @received word text stdin done q results lines answers line =>
    cases h
    have answer : LocalAnswer table q (replyStatus text, text.str) :=
      reply_localAnswer plain (queried q (by simp [← lines])) line
    have answers' : Answered table (done ++ [q]) (results ++ [(replyStatus text, text.str)]) :=
      List.rel_append answers (.cons answer .nil)
    exact Or.inl ⟨none, .clearing (by simpa using lines) answers', exchange⟩
  | clearing lines answers =>
    cases h
    exact Or.inl ⟨none, .reading lines answers, exchange⟩

/-- The child does not end while the client is there. -/
theorem Exchange.alive {request : Option (List Byte)} {c : Connection}
    (exchange : Exchange table request c.child c.toServer c.toClient) : childGone c = false := by
  obtain ⟨client, child, toServer, toClient⟩ := c
  cases exchange with
  | quiet idle => exact idle.alive (c := ⟨client, child, [], []⟩)
  | @sent q _ idle => exact idle.alive (c := ⟨client, child, [q], []⟩)
  | @answered q _ idle => exact idle.alive (c := ⟨client, child, [], [reply table.records q]⟩)
  | arrived | lookedUp => rfl

/-- The client finds the reply alone in its zeroed buffer. -/
theorem ClientPhase.recv {request : Option (List Byte)} {c : Client} {child : Option Child}
    {toServer toClient rest : List (List Byte)} {count : Nat} {block : List Byte}
    (plain : table.Plain) (phase : ClientPhase table queries request c)
    (exchange : Exchange table request child toServer toClient) (waits : c.pc = .recv)
    (whole : ∀ block ∈ toClient.head?, count = block.length)
    (h : Dictionary.recv TEXT count toClient false = some (block, rest)) :
    Coherent table queries ⟨{ c with
      pc := .compare
      tryit := { c.tryit with text := c.tryit.text.receive block } }, child, toServer, rest⟩ := by
  cases phase with
  | @waiting word stdin done q results lines answers =>
    cases exchange with
    | sent => simp [recv_nothing] at h
    | arrived => simp [recv_nothing] at h
    | lookedUp => simp [recv_nothing] at h
    | answered idle =>
      obtain ⟨nonempty, -, short⟩ := reply_spec plain q
      obtain rfl : count = (reply table.records q).length := whole _ rfl
      rw [recv_whole nonempty (Nat.le_of_lt short)] at h
      cases h
      exact Or.inl ⟨none, .received lines answers (Buffer.receive_zero (Nat.le_of_lt short)),
        .quiet idle⟩
  | _ => cases waits

theorem finished_stays {resource : Option (List Byte)} {c c' : Connection} {act : Act}
    (done : c.client.pc = .finished) (h : next resource serverTryit act c = some c') :
    c'.client = c.client := by
  cases next_move h with
  | client _ _ step => simp [clientStep, done] at step
  | clientRecv _ _ _ waits => simp [done] at waits
  | clientSigpipe sends => simp [done] at sends
  | accept | server | serverRecv | serverSigpipe => rfl

/-- Step lemma: every step of either side keeps a connection coherent. -/
theorem Coherent.step {c c' : Connection} {act : Act} (plain : table.Plain)
    (queried : ∀ q ∈ queries, Query q) (zeroed : serverTryit.word = Buffer.zero WORD)
    (coherent : Coherent table queries c) (whole : Whole act c)
    (h : next (some table.file) serverTryit act c = some c') : Coherent table queries c' := by
  obtain ⟨client, child, toServer, toClient⟩ := c
  rcases coherent with ⟨request, phase, exchange⟩ | ended
  · have stays : clientGone ⟨client, child, toServer, toClient⟩ = false := by
      simpa [clientGone] using phase.running
    have alive := exchange.alive
    have query : ∀ q, request = some q → Query q := by
      rintro q rfl
      cases phase with
      | waiting lines => exact queried q (by simp [← lines])
    cases next_move h with
    | client client' toServer' step => exact phase.client plain queried exchange step
    | clientRecv count block rest waits received =>
      rw [alive] at received
      exact phase.recv plain exchange waits whole received
    | accept fresh =>
      obtain rfl : child = none := fresh
      exact Or.inl ⟨request, phase, exchange.accept zeroed⟩
    | clientSigpipe _ gone => exact absurd (alive.symm.trans gone) Bool.false_ne_true
    | server child child' toClient' runs step =>
      cases runs
      exact Or.inl ⟨request, phase, exchange.server plain query step⟩
    | serverRecv count child block rest runs waits received =>
      cases runs
      rw [stays] at received
      exact Or.inl ⟨request, phase, exchange.serverRecv query waits whole received⟩
    | serverSigpipe _ _ _ gone => exact absurd (stays.symm.trans gone) Bool.false_ne_true
  · have same := finished_stays ended.1 h
    right
    rw [same]
    exact ended

theorem Coherent.start (queries : List (List Byte)) :
    Coherent table queries (Connection.initial Dictrec.zero queries) :=
  Or.inl ⟨none, .reading rfl .nil, .quiet (by rintro c ⟨⟩)⟩

end

/-! ## Every call returns -/

def ClientPc.weight : ClientPc → Nat
  | .connect => 12
  | .send => 11
  | .recv => 4
  | .compare => 3
  | .clear => 2
  | .gets => 1
  | .finished => 0

def ChildPc.weight : ChildPc → Nat
  | .lookup => 5
  | .send => 4
  | .clear => 1
  | .recv => 0
  | .exited => 0

/-- A bound on the steps that are left. -/
def Connection.weight (c : Connection) : Nat :=
  12 * c.client.stdin.length + c.client.pc.weight + 6 * c.toServer.length +
    2 * c.toClient.length + (match c.child with
      | none => 2
      | some child => child.pc.weight)

section
variable {table : RecordTable} {queries : List (List Byte)} {serverTryit : Dictrec}

theorem deliver_length (channel : List (List Byte)) (block : List Byte) :
    (deliver channel block).length ≤ channel.length + 1 := by
  rw [deliver]
  split
  · omega
  · simp

theorem dropBytes_length (count : Nat) (channel : List (List Byte)) :
    (dropBytes count channel).length ≤ channel.length := by
  induction channel generalizing count with
  | nil => simp [dropBytes]
  | cons block rest ih =>
    rw [dropBytes]
    split
    · simp
    · have := ih (count - block.length)
      rw [List.length_cons]
      omega

/-- A `recv` that takes a send whole leaves fewer sends under way. -/
theorem recv_shorter {size count : Nat} {channel rest : List (List Byte)} {block : List Byte}
    (whole : ∀ block ∈ channel.head?, count = block.length)
    (h : recv size count channel false = some (block, rest)) : rest.length < channel.length := by
  cases channel with
  | nil => simp [recv_nothing] at h
  | cons first others =>
    obtain rfl : count = first.length := whole first rfl
    have left : rest = dropBytes first.length (first :: others) := by
      simp only [recv] at h
      split at h
      · simp at h
      · split at h
        · cases h
          rfl
        · cases h
    have := dropBytes_length 0 others
    rw [left, dropBytes, if_neg (Nat.lt_irrefl _), Nat.sub_self, List.length_cons]
    omega

theorem clientStep_weight {c c' : Client} {toServer toServer' : List (List Byte)}
    (h : clientStep c toServer = some (c', toServer')) :
    12 * c'.stdin.length + c'.pc.weight + 6 * toServer'.length <
      12 * c.stdin.length + c.pc.weight + 6 * toServer.length := by
  cases pc : c.pc with
  | gets =>
    simp only [clientStep, pc] at h
    split at h
    · cases h
      simp [ClientPc.weight]
    · rename_i lines
      simp only [Option.map_eq_some_iff] at h
      obtain ⟨word, _, h⟩ := h
      cases h
      rw [lines, List.length_cons]
      have : (if c.firstTime then ClientPc.connect else ClientPc.send).weight ≤ 12 := by
        split <;> decide
      simp only [ClientPc.weight] at this ⊢
      omega
  | send =>
    simp only [clientStep, pc] at h
    cases h
    have := deliver_length toServer c.tryit.word.str
    simp only [ClientPc.weight]
    omega
  | recv => simp [clientStep, pc] at h
  | finished => simp [clientStep, pc] at h
  | connect | compare | clear =>
    simp only [clientStep, pc] at h
    cases h
    simp only [ClientPc.weight]
    omega

theorem answer_weight {child child' : Child} {status : Int}
    (h : answer child status = some child') : child'.pc.weight ≤ 4 := by
  simp only [answer] at h
  split at h
  · cases h
    simp [ChildPc.weight]
  · split at h
    · simp only [Option.map_eq_some_iff] at h
      obtain ⟨_, _, rfl⟩ := h
      simp [ChildPc.weight]
    · split at h <;> cases h <;> simp [ChildPc.weight]

theorem childStep_weight {resource : Option (List Byte)} {child child' : Child}
    {toClient toClient' : List (List Byte)}
    (h : childStep resource child toClient = some (child', toClient')) :
    2 * toClient'.length + child'.pc.weight < 2 * toClient.length + child.pc.weight := by
  cases pc : child.pc with
  | recv => simp [childStep, pc] at h
  | exited => simp [childStep, pc] at h
  | lookup =>
    simp only [childStep, pc] at h
    split at h
    · simp only [Option.map_eq_some_iff] at h
      obtain ⟨_, answered, h⟩ := h
      cases h
      have := answer_weight answered
      simp only [ChildPc.weight] at this ⊢
      omega
    · cases h
      simp [ChildPc.weight]
    · cases h
  | send =>
    simp only [childStep, pc] at h
    cases h
    have := deliver_length toClient child.tryit.text.str
    simp only [ChildPc.weight]
    omega
  | clear =>
    simp only [childStep, pc] at h
    cases h
    simp [ChildPc.weight]

/-- A step brings the end nearer, when the child's `recv` takes sends off the stream. -/
theorem next_weight_of {resource : Option (List Byte)} {c c' : Connection} {act : Act}
    (shorter : ∀ count block rest, act = .serverRecv count →
      recv WORD count c.toServer (clientGone c) = some (block, rest) →
      rest.length < c.toServer.length)
    (h : next resource serverTryit act c = some c') : c'.weight < c.weight := by
  obtain ⟨client, child, toServer, toClient⟩ := c
  cases next_move h with
  | client client' toServer' step =>
    have less := clientStep_weight step
    simp only [Connection.weight] at less ⊢
    omega
  | clientRecv count block rest waits received =>
    have shorter : rest.length ≤ toClient.length := by
      simp only [recv] at received
      split at received
      · split at received <;> cases received
        exact Nat.le_refl _
      · split at received <;> cases received
        exact dropBytes_length count toClient
    replace waits : client.pc = .recv := waits
    simp only [Connection.weight, waits, ClientPc.weight]
    omega
  | accept fresh =>
    obtain rfl : child = none := fresh
    simp [Connection.weight, ChildPc.weight]
  | server child child' toClient' runs step =>
    cases runs
    have less := childStep_weight step
    simp only [Connection.weight] at less ⊢
    omega
  | serverRecv count child block rest runs waits received =>
    cases runs
    have : rest.length < toServer.length := shorter count block rest rfl received
    simp only [Connection.weight, waits, ChildPc.weight]
    omega
  | clientSigpipe sends =>
    replace sends : client.pc = .send := sends
    simp [Connection.weight, ClientPc.weight, sends]
  | serverSigpipe child runs sends =>
    cases runs
    simp [Connection.weight, ChildPc.weight, sends]

/-- While the client runs, every step brings the end nearer. -/
theorem next_weight {resource : Option (List Byte)} {c c' : Connection} {act : Act}
    (running : c.client.pc ≠ .finished) (whole : Whole act c)
    (h : next resource serverTryit act c = some c') : c'.weight < c.weight := by
  apply next_weight_of ?_ h
  rintro count block rest rfl received
  have stays : clientGone c = false := by simpa [clientGone] using running
  rw [stays] at received
  exact recv_shorter whole received

/-- While the client runs, some side can take a step: neither is ever left waiting for
the other. -/
theorem Coherent.progress {c : Connection} (serverTryit : Dictrec) (plain : table.Plain)
    (queried : ∀ q ∈ queries, Query q) (coherent : Coherent table queries c)
    (running : c.client.pc ≠ .finished) :
    ∃ act c', Whole act c ∧ next (some table.file) serverTryit act c = some c' := by
  obtain ⟨client, child, toServer, toClient⟩ := c
  rcases coherent with ⟨request, phase, exchange⟩ | ended
  · cases phase with
    | @reading first stdin done results lines answers =>
      cases stdin with
      | nil => exact ⟨.client, _, trivial, rfl⟩
      | cons q stdin =>
        obtain ⟨-, -, short⟩ := queried q (by simp [← lines])
        obtain ⟨word, -, step⟩ := gets_line first short
        exact ⟨.client, _, trivial, by rw [next, step]; rfl⟩
    | connecting => exact ⟨.client, _, trivial, rfl⟩
    | sending => exact ⟨.client, _, trivial, rfl⟩
    | received => exact ⟨.client, _, trivial, rfl⟩
    | clearing => exact ⟨.client, _, trivial, rfl⟩
    | @waiting word stdin done q results lines answers =>
      obtain ⟨nonempty, clean, short⟩ := queried q (by simp [← lines])
      cases exchange with
      | sent idle =>
        cases child with
        | none => exact ⟨.accept, _, trivial, rfl⟩
        | some child =>
          obtain ⟨-, clear | ⟨waits, -⟩⟩ := idle child rfl
          · refine ⟨.server, ?_⟩
            simp [next, childStep, clear, Whole]
          · refine ⟨.serverRecv q.length, ?_⟩
            simp [next, waits, recv_whole nonempty (Nat.le_of_lt short), Whole]
      | @arrived q tryit statics ready line =>
        have word := Buffer.str_of_padded clean short line
        obtain ⟨tryit', statics', call, -⟩ := lookup_answers table.readable word ready []
        refine ⟨.server, ?_⟩
        simp [next, call, Whole]
      | lookedUp => exact ⟨.server, _, trivial, rfl⟩
      | answered idle =>
        obtain ⟨nonempty, -, short⟩ := reply_spec plain q
        refine ⟨.clientRecv (reply table.records q).length, ?_⟩
        simp [next, recv_whole nonempty (Nat.le_of_lt short), Whole]
  · exact absurd ended.1 running

end

/-- One connection of a client that reads `queries`. -/
def wholeDialogue (table : RecordTable) (serverTryit : Dictrec) (queries : List (List Byte)) :
    StepSystem Connection Act :=
  (dialogue (some table.file) Dictrec.zero serverTryit queries).restrict Whole

/-- The server and any number of clients. -/
def service {I : Type} [DecidableEq I] (table : RecordTable) (serverTryit : Dictrec)
    (queries : I → List (List Byte)) : StepSystem (I → Connection) (I × Act) :=
  interleaved fun i => wholeDialogue table serverTryit (queries i)

theorem Coherent.reachable {table : RecordTable} {serverTryit : Dictrec}
    {queries : List (List Byte)} {c : Connection} (plain : table.Plain)
    (queried : ∀ q ∈ queries, Query q) (zeroed : serverTryit.word = Buffer.zero WORD)
    (reach : (wholeDialogue table serverTryit queries).Reachable c) : Coherent table queries c := by
  refine reach.invariant (I := Coherent table queries) ?_ ?_
  · rintro c rfl
    exact Coherent.start queries
  · rintro act c c' coherent ⟨whole, h⟩
    exact coherent.step plain queried zeroed whole h

/-- Run lemma: a client always gets to the end of its input. -/
theorem Coherent.finishes {table : RecordTable} {serverTryit : Dictrec}
    {queries : List (List Byte)} {c : Connection} (plain : table.Plain)
    (queried : ∀ q ∈ queries, Query q) (zeroed : serverTryit.word = Buffer.zero WORD)
    (coherent : Coherent table queries c) :
    ∃ c', (wholeDialogue table serverTryit queries).Run c c' ∧ Ended table queries c'.client := by
  induction left : c.weight using Nat.strongRecOn generalizing c with
  | ind n ih =>
    by_cases done : c.client.pc = .finished
    · rcases coherent with ⟨_, phase, _⟩ | ended
      · exact absurd done phase.running
      · exact ⟨c, Run.refl c, ended⟩
    · obtain ⟨act, c1, whole, h⟩ := coherent.progress serverTryit plain queried done
      have less := next_weight done whole h
      obtain ⟨c2, run, ended⟩ :=
        ih c1.weight (left ▸ less) (coherent.step plain queried zeroed whole h) rfl
      exact ⟨c2, Run.cons (T := wholeDialogue table serverTryit queries) ⟨whole, h⟩ run, ended⟩

theorem Coherent.answers {table : RecordTable} {queries : List (List Byte)} {c : Connection}
    (coherent : Coherent table queries c) :
    List.Forall₂ (LocalAnswer table) (queries.take c.client.results.length) c.client.results := by
  have of_done : ∀ {done rest results}, done ++ rest = queries → Answered table done results →
      Answered table (queries.take results.length) results := by
    rintro done rest results rfl answers
    rw [← answers.length_eq, List.take_left]
    exact answers
  obtain ⟨client, child, toServer, toClient⟩ := c
  rcases coherent with ⟨_, phase, _⟩ | ⟨-, -, -, answers⟩
  · cases phase with
    | reading lines answers => exact of_done lines answers
    | connecting lines answers => exact of_done lines answers
    | sending lines answers => exact of_done lines answers
    | waiting lines answers => exact of_done lines answers
    | received lines answers => exact of_done lines answers
    | clearing lines answers => exact of_done lines answers
  · exact of_done (List.append_nil queries) answers

/-- The request buffer holds the line last read and nothing else. -/
theorem Coherent.request_clean {table : RecordTable} {queries : List (List Byte)}
    {c : Connection} (coherent : Coherent table queries c) {child : Child}
    (here : c.child = some child) (looking : child.pc = .lookup)
    (running : c.client.pc ≠ .finished) :
    ∃ q, c.client.asked.getLast? = some q ∧ child.tryit.word.bytes = padded WORD q := by
  obtain ⟨client, _, toServer, toClient⟩ := c
  obtain rfl : _ = some child := here
  rcases coherent with ⟨request, phase, exchange⟩ | ended
  · have not_idle : ¬ Idle table.records (some child) := by
      intro idle
      obtain ⟨-, pc | ⟨pc, -⟩⟩ := idle child rfl <;> rw [pc] at looking <;> cases looking
    cases exchange with
    | quiet idle => exact absurd idle not_idle
    | sent idle => exact absurd idle not_idle
    | answered idle => exact absurd idle not_idle
    | lookedUp => cases looking
    | arrived ready line =>
      cases phase with
      | waiting => exact ⟨_, List.getLast?_concat, line⟩
  · exact absurd ended.1 running

/-- The text buffer of the client holds the reply and nothing else. -/
theorem Coherent.reply_clean {table : RecordTable} {queries : List (List Byte)} {c : Connection}
    (plain : table.Plain) (coherent : Coherent table queries c) (compares : c.client.pc = .compare) :
    c.client.tryit.text.bytes = padded TEXT c.client.tryit.text.str := by
  obtain ⟨client, child, toServer, toClient⟩ := c
  rcases coherent with ⟨request, phase, exchange⟩ | ended
  · cases phase with
    | @received word text stdin done q results lines answers line =>
      obtain ⟨-, clean, short⟩ := reply_spec plain q
      rw [(replyStatus_padded clean short line).1]
      exact line
    | _ => cases compares
  · rw [ended.1] at compares
    cases compares

/-- In every interleaving of any number of connections each result of the client's
`lookup` is the one of the local lookup, no stale byte is looked up or returned, and
every client can run to the end of its queries. -/
theorem remote_lookup_refines_local {I : Type} [DecidableEq I] (table : RecordTable)
    (plain : table.Plain) (serverTryit : Dictrec) (zeroed : serverTryit.word = Buffer.zero WORD)
    (queries : I → List (List Byte)) (queried : ∀ i, ∀ q ∈ queries i, Query q)
    {s : I → Connection} (reach : (service table serverTryit queries).Reachable s) (i : I) :
    List.Forall₂ (LocalAnswer table) ((queries i).take (s i).client.results.length)
        (s i).client.results ∧
      (∀ child, (s i).child = some child → child.pc = .lookup → (s i).client.pc ≠ .finished →
        ∃ q, (s i).client.asked.getLast? = some q ∧ child.tryit.word.bytes = padded WORD q) ∧
      ((s i).client.pc = .compare →
        (s i).client.tryit.text.bytes = padded TEXT (s i).client.tryit.text.str) ∧
      ∃ t, (service table serverTryit queries).Run s t ∧
        (t i).client.results.length = (queries i).length := by
  have coherent := Coherent.reachable plain (queried i) zeroed (interleaved_reachable reach i)
  refine ⟨coherent.answers, ?_, coherent.reply_clean plain, ?_⟩
  · intro child here looking running
    exact coherent.request_clean here looking running
  · obtain ⟨c, run, -, -, -, answers⟩ := coherent.finishes plain (queried i) zeroed
    refine ⟨Function.update s i c, interleaved_run s i run, ?_⟩
    rw [Function.update_self]
    exact answers.length_eq.symm

/-- Two clients, one of which asks for a word of the table and then for a shorter one
that is missing. -/
private def exampleQueries (i : Bool) : List (List Byte) :=
  if i then [[99, 97, 116], [97]] else []

theorem two_queries_answered :
    ∃ t, (service exampleTable Dictrec.zero exampleQueries).Reachable t ∧
      List.Forall₂ (LocalAnswer exampleTable) [[99, 97, 116], [97]] (t true).client.results := by
  have plain : exampleTable.Plain := by
    simp only [RecordTable.Plain]
    decide
  have queried : ∀ i, ∀ q ∈ exampleQueries i, Query q := by
    simp only [Query]
    decide
  have start : (service exampleTable Dictrec.zero exampleQueries).Reachable
      (fun i => Connection.initial Dictrec.zero (exampleQueries i)) :=
    Reachable.initial (fun _ => rfl)
  obtain ⟨-, -, -, t, run, length⟩ := remote_lookup_refines_local exampleTable plain
    Dictrec.zero rfl exampleQueries queried start true
  have reach := start.run run
  have answers := (remote_lookup_refines_local exampleTable plain Dictrec.zero rfl
    exampleQueries queried reach true).1
  rw [length] at answers
  exact ⟨t, reach, answers⟩

end Dictionary
