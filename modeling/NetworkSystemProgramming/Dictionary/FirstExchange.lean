import NetworkSystemProgramming.Dictionary.RemoteLookup

/-!
# The first exchange

Both records are local variables that nobody clears before the first round: the server
receives the first query, and the client the first reply, in front of whatever the memory
held. From the second round on both have zeroed buffers.
-/

namespace Dictionary

open ByteBuffers StepSystems StepSystem

/-- One connection whose two records hold anything at first. -/
def uninitialised (table : RecordTable) (clientTryit serverTryit : Dictrec)
    (queries : List (List Byte)) : StepSystem Connection Act :=
  (dialogue (some table.file) clientTryit serverTryit queries).restrict Whole

/-- The child sends what the table says for the line read last, and the client has the
local result for each of its lines. -/
structure Answering (table : RecordTable) (queries : List (List Byte)) (c : Connection) : Prop where
  sent : ∀ child, c.child = some child → child.pc = .send → c.client.pc ≠ .finished →
    ∃ q, c.client.asked.getLast? = some q ∧ child.tryit.text.str = reply table.records q
  received : List.Forall₂ (LocalAnswer table) (queries.take c.client.results.length)
    c.client.results

/-- What is sent for the first query: the word goes on into the memory behind it. -/
def firstReply (table : RecordTable) (serverTryit : Dictrec) (q : List Byte) : List Byte :=
  reply table.records (serverTryit.word.receive q).str

/-- The memory does not show: the query with what lies behind it in the word field of the
server is answered like the query alone, and where the answer ends the text field of the
client holds a NUL. -/
structure Unnoticed (table : RecordTable) (clientTryit serverTryit : Dictrec) (q : List Byte) :
    Prop where
  word : reply table.records (serverTryit.word.receive q).str = reply table.records q
  text : clientTryit.text.bytes[(reply table.records q).length]? = some 0

/-- The child is not there yet, or has not received anything. -/
def Fresh (serverTryit : Dictrec) (child : Option Child) : Prop :=
  ∀ c, child = some c → c = ⟨.recv, serverTryit, Lookup5.initial⟩

/-- The stages of the first exchange, whatever the memory held. -/
inductive Opening (table : RecordTable) (clientTryit serverTryit : Dictrec)
    (queries : List (List Byte)) : Connection → Prop
  | reading : Opening table clientTryit serverTryit queries
      ⟨⟨.gets, true, clientTryit, queries, [], []⟩, none, [], []⟩
  | connecting {q stdin word} (lines : q :: stdin = queries) (line : Buffer.str word = q) :
      Opening table clientTryit serverTryit queries
        ⟨⟨.connect, true, ⟨word, clientTryit.text⟩, stdin, [q], []⟩, none, [], []⟩
  | sending {q stdin word child} (lines : q :: stdin = queries) (line : Buffer.str word = q)
      (fresh : Fresh serverTryit child) : Opening table clientTryit serverTryit queries
        ⟨⟨.send, false, ⟨word, clientTryit.text⟩, stdin, [q], []⟩, child, [], []⟩
  | sent {q stdin word child} (lines : q :: stdin = queries) (fresh : Fresh serverTryit child) :
      Opening table clientTryit serverTryit queries
        ⟨⟨.recv, false, ⟨word, clientTryit.text⟩, stdin, [q], []⟩, child, [q], []⟩
  | arrived {q stdin word tryit} (lines : q :: stdin = queries)
      (request : Dictrec.word tryit = serverTryit.word.receive q) :
      Opening table clientTryit serverTryit queries
        ⟨⟨.recv, false, ⟨word, clientTryit.text⟩, stdin, [q], []⟩,
          some ⟨.lookup, tryit, Lookup5.initial⟩, [], []⟩
  | lookedUp {q stdin word tryit statics} (lines : q :: stdin = queries)
      (ready : Lookup5.Ready table.file statics)
      (text : tryit.text.str = firstReply table serverTryit q) :
      Opening table clientTryit serverTryit queries
        ⟨⟨.recv, false, ⟨word, clientTryit.text⟩, stdin, [q], []⟩,
          some ⟨.send, tryit, statics⟩, [], []⟩
  | answered {q stdin word child} (lines : q :: stdin = queries)
      (idle : Idle table.records (some child)) :
      Opening table clientTryit serverTryit queries
        ⟨⟨.recv, false, ⟨word, clientTryit.text⟩, stdin, [q], []⟩, some child, [],
          [firstReply table serverTryit q]⟩
  | received {q stdin tryit child} (lines : q :: stdin = queries)
      (idle : Idle table.records (some child))
      (text : Dictrec.text tryit = clientTryit.text.receive (firstReply table serverTryit q)) :
      Opening table clientTryit serverTryit queries
        ⟨⟨.compare, false, tryit, stdin, [q], []⟩, some child, [], []⟩
  | clearing {q stdin tryit child} (lines : q :: stdin = queries)
      (idle : Idle table.records (some child))
      (text : Dictrec.text tryit = clientTryit.text.receive (firstReply table serverTryit q)) :
      Opening table clientTryit serverTryit queries
        ⟨⟨.clear, false, tryit, stdin, [q], [(replyStatus tryit.text, tryit.text.str)]⟩,
          some child, [], []⟩

section
variable {table : RecordTable} {clientTryit serverTryit : Dictrec} {queries : List (List Byte)}

theorem firstReply_spec (plain : table.Plain) (serverTryit : Dictrec) (q : List Byte) :
    firstReply table serverTryit q ≠ [] ∧ 0 ∉ firstReply table serverTryit q ∧
      (firstReply table serverTryit q).length < TEXT :=
  reply_spec plain _

/-- What the client has in the end is the reply, exactly when the memory does not show. -/
theorem unnoticed_iff (plain : table.Plain) {q : List Byte} :
    Unnoticed table clientTryit serverTryit q ↔
      firstReply table serverTryit q = reply table.records q ∧
        (clientTryit.text.receive (firstReply table serverTryit q)).str = reply table.records q := by
  obtain ⟨-, clean, short⟩ := reply_spec plain q
  have ends : (clientTryit.text.receive (reply table.records q)).str = reply table.records q ↔
      clientTryit.text.bytes[(reply table.records q).length]? = some 0 := by
    rw [Buffer.str, Buffer.receive_bytes _ (Nat.le_of_lt short)]
    refine cstr_overwrite_eq_iff clean ?_
    rw [clientTryit.text.size_eq]
    exact short
  constructor
  · rintro ⟨word, text⟩
    have same : firstReply table serverTryit q = reply table.records q := word
    exact ⟨same, by rw [same]; exact ends.mpr text⟩
  · rintro ⟨word, text⟩
    rw [word] at text
    exact ⟨word, ends.mp text⟩

theorem Fresh.alive {c : Connection} (fresh : Fresh serverTryit c.child) : childGone c = false := by
  cases here : c.child with
  | none => simp [childGone, here]
  | some child => simp [childGone, here, fresh child here]

/-- Behind the first exchange there is no child to accept. -/
def Settled (table : RecordTable) (queries : List (List Byte)) (c : Connection) : Prop :=
  Coherent table queries c ∧ (c.child ≠ none ∨ c.client.pc = .finished)

/-- What the memory of the server held plays no part once the child is there. -/
theorem next_accepted {resource : Option (List Byte)} {act : Act} {c : Connection}
    (accepted : c.child ≠ none) (tryit tryit' : Dictrec) :
    next resource tryit act c = next resource tryit' act c := by
  cases act with
  | accept => simp [next, accepted]
  | _ => rfl

theorem next_keeps_child {resource : Option (List Byte)} {act : Act} {c c' : Connection}
    (accepted : c.child ≠ none) (h : next resource serverTryit act c = some c') :
    c'.child ≠ none := by
  cases next_move h with
  | client => exact accepted
  | clientRecv => exact accepted
  | clientSigpipe => exact accepted
  | _ => simp

theorem Settled.step {c c' : Connection} {act : Act} (plain : table.Plain)
    (queried : ∀ q ∈ queries, Query q) (settled : Settled table queries c) (whole : Whole act c)
    (h : next (some table.file) serverTryit act c = some c') : Settled table queries c' := by
  obtain ⟨coherent, accepted | done⟩ := settled
  · have stays := next_keeps_child accepted h
    rw [next_accepted accepted serverTryit Dictrec.zero] at h
    exact ⟨coherent.step plain queried rfl whole h, Or.inl stays⟩
  · have same := finished_stays done h
    rcases coherent with ⟨_, phase, _⟩ | ended
    · exact absurd done phase.running
    · rw [Settled, Coherent, same]
      exact ⟨Or.inr ended, Or.inr done⟩

/-! ## The stages follow one another -/

theorem Opening.client {client client' : Client} {child : Option Child}
    {toServer toServer' toClient : List (List Byte)} (plain : table.Plain)
    (queried : ∀ q ∈ queries, Query q)
    (unnoticed : ∀ q ∈ queries.head?, Unnoticed table clientTryit serverTryit q)
    (opening : Opening table clientTryit serverTryit queries ⟨client, child, toServer, toClient⟩)
    (h : clientStep client toServer = some (client', toServer')) :
    Opening table clientTryit serverTryit queries ⟨client', child, toServer', toClient⟩ ∨
      Settled table queries ⟨client', child, toServer', toClient⟩ := by
  cases opening with
  | reading =>
    cases queries with
    | nil =>
      cases h
      exact Or.inr ⟨Or.inr ⟨rfl, rfl, rfl, .nil⟩, Or.inr rfl⟩
    | cons q stdin =>
      obtain ⟨-, clean, short⟩ := queried q List.mem_cons_self
      obtain ⟨word, put, line⟩ := clientTryit.word.put_string clean short
      simp only [clientStep, put, Option.map_some] at h
      cases h
      exact Or.inl (.connecting rfl line)
  | connecting lines line =>
    cases h
    refine Or.inl (.sending lines line ?_)
    rintro c ⟨⟩
  | @sending q stdin word child lines line fresh =>
    obtain ⟨nonempty, -, -⟩ := queried q (by simp [← lines])
    simp only [clientStep, line, deliver, if_neg nonempty] at h
    cases h
    exact Or.inl (.sent lines fresh)
  | received lines idle text =>
    cases h
    exact Or.inl (.clearing lines idle text)
  | @clearing q stdin tryit child lines idle text =>
    cases h
    have query : Query q := queried q (by simp [← lines])
    have read := ((unnoticed_iff plain).mp (unnoticed q (by simp [← lines]))).2
    have answer : LocalAnswer table q (replyStatus tryit.text, tryit.text.str) := by
      rw [localAnswer_iff plain query, text]
      exact read
    have phase : ClientPhase table queries none ⟨.gets, false, Dictrec.zero, stdin, [q],
        [(replyStatus tryit.text, tryit.text.str)]⟩ := .reading lines (.cons answer .nil)
    exact Or.inr ⟨Or.inl ⟨none, phase, .quiet idle⟩, Or.inl (Option.some_ne_none child)⟩
  | _ => cases h

theorem Opening.server {client : Client} {child child' : Child}
    {toServer toClient toClient' : List (List Byte)} (plain : table.Plain)
    (opening : Opening table clientTryit serverTryit queries
      ⟨client, some child, toServer, toClient⟩)
    (h : childStep (some table.file) child toClient = some (child', toClient')) :
    Opening table clientTryit serverTryit queries ⟨client, some child', toServer, toClient'⟩ := by
  cases opening with
  | sending _ _ fresh =>
    cases fresh child rfl
    cases h
  | sent _ fresh =>
    cases fresh child rfl
    cases h
  | @arrived q stdin word tryit lines request =>
    have asked : tryit.word.str = (serverTryit.word.receive q).str := by rw [request]
    obtain ⟨tryit', statics', call, ready, text⟩ := lookup_answers table.readable asked
      (Lookup5.initial_ready table.file) []
    rw [call] at h
    cases h
    exact .lookedUp lines ready text
  | @lookedUp q stdin word tryit statics lines ready text =>
    simp only [childStep, text, deliver, if_neg (firstReply_spec plain serverTryit q).1] at h
    cases h
    refine .answered lines ?_
    rintro c ⟨⟩
    exact ⟨ready, Or.inl rfl⟩
  | answered lines idle =>
    obtain ⟨idle', rfl, -⟩ := idle.server h
    exact .answered lines idle'
  | received lines idle text =>
    obtain ⟨idle', rfl, -⟩ := idle.server h
    exact .received lines idle' text
  | clearing lines idle text =>
    obtain ⟨idle', rfl, -⟩ := idle.server h
    exact .clearing lines idle' text

theorem Opening.clientRecv {client : Client} {child : Option Child}
    {toServer toClient rest : List (List Byte)} {count : Nat} {block : List Byte}
    (plain : table.Plain)
    (opening : Opening table clientTryit serverTryit queries ⟨client, child, toServer, toClient⟩)
    (waits : client.pc = .recv) (whole : ∀ block ∈ toClient.head?, count = block.length)
    (h : recv TEXT count toClient false = some (block, rest)) :
    Opening table clientTryit serverTryit queries ⟨{ client with
      pc := .compare
      tryit := { client.tryit with text := client.tryit.text.receive block } },
      child, toServer, rest⟩ := by
  cases opening with
  | sent => simp [recv_nothing] at h
  | arrived => simp [recv_nothing] at h
  | lookedUp => simp [recv_nothing] at h
  | @answered q stdin word child lines idle =>
    obtain ⟨nonempty, -, short⟩ := firstReply_spec plain serverTryit q
    obtain rfl : count = (firstReply table serverTryit q).length := whole _ rfl
    rw [recv_whole nonempty (Nat.le_of_lt short)] at h
    cases h
    exact .received lines idle rfl
  | _ => cases waits

theorem Opening.serverRecv {client : Client} {child : Child}
    {toServer toClient rest : List (List Byte)} {count : Nat} {block : List Byte}
    (queried : ∀ q ∈ queries, Query q)
    (opening : Opening table clientTryit serverTryit queries
      ⟨client, some child, toServer, toClient⟩)
    (waits : child.pc = .recv) (whole : ∀ block ∈ toServer.head?, count = block.length)
    (h : recv WORD count toServer false = some (block, rest)) :
    Opening table clientTryit serverTryit queries ⟨client, some { child with
      pc := .lookup
      tryit := { child.tryit with word := child.tryit.word.receive block } }, rest, toClient⟩ := by
  cases opening with
  | @sent q stdin word child lines fresh =>
    obtain ⟨nonempty, -, short⟩ := queried q (by simp [← lines])
    obtain rfl : count = q.length := whole q rfl
    rw [recv_whole nonempty (Nat.le_of_lt short)] at h
    cases h
    cases fresh child rfl
    exact .arrived lines rfl
  | arrived => cases waits
  | lookedUp => cases waits
  | _ => simp [recv_nothing] at h

theorem Opening.accept {client : Client} {toServer toClient : List (List Byte)}
    (opening : Opening table clientTryit serverTryit queries ⟨client, none, toServer, toClient⟩)
    (called : client.firstTime = false) :
    Opening table clientTryit serverTryit queries
      ⟨client, some ⟨.recv, serverTryit, Lookup5.initial⟩, toServer, toClient⟩ := by
  have fresh : Fresh serverTryit (some ⟨.recv, serverTryit, Lookup5.initial⟩) := by
    rintro c ⟨⟩
    rfl
  cases opening with
  | reading => cases called
  | connecting => cases called
  | sending lines line => exact .sending lines line fresh
  | sent lines => exact .sent lines fresh

/-- Step lemma: a step stays within the first exchange, or ends it in front of zeroed
buffers. -/
theorem Opening.step {c c' : Connection} {act : Act} (plain : table.Plain)
    (queried : ∀ q ∈ queries, Query q)
    (unnoticed : ∀ q ∈ queries.head?, Unnoticed table clientTryit serverTryit q)
    (opening : Opening table clientTryit serverTryit queries c) (whole : Whole act c)
    (h : next (some table.file) serverTryit act c = some c') :
    Opening table clientTryit serverTryit queries c' ∨ Settled table queries c' := by
  have stays : clientGone c = false := by cases opening <;> rfl
  have alive : childGone c = false := by
    cases opening with
    | @sending q stdin word child _ _ fresh => exact fresh.alive
    | @sent q stdin word child _ fresh => exact fresh.alive
    | answered _ idle => exact idle.alive
    | received _ idle => exact idle.alive
    | clearing _ idle => exact idle.alive
    | _ => rfl
  obtain ⟨client, child, toServer, toClient⟩ := c
  cases next_move h with
  | client client' toServer' step => exact opening.client plain queried unnoticed step
  | clientRecv count block rest waits received =>
    rw [alive] at received
    exact Or.inl (opening.clientRecv plain waits whole received)
  | accept fresh called =>
    obtain rfl : child = none := fresh
    exact Or.inl (opening.accept called)
  | server child child' toClient' runs step =>
    cases runs
    exact Or.inl (opening.server plain step)
  | serverRecv count child block rest runs waits received =>
    cases runs
    rw [stays] at received
    exact Or.inl (opening.serverRecv queried waits whole received)
  | clientSigpipe _ gone => exact absurd (alive.symm.trans gone) Bool.false_ne_true
  | serverSigpipe _ _ _ gone => exact absurd (stays.symm.trans gone) Bool.false_ne_true

/-! ## What is answered -/

/-- The first reply is right when the memory does not show. -/
theorem Opening.answering {c : Connection} (plain : table.Plain) (queried : ∀ q ∈ queries, Query q)
    (unnoticed : ∀ q ∈ queries.head?, Unnoticed table clientTryit serverTryit q)
    (opening : Opening table clientTryit serverTryit queries c) : Answering table queries c := by
  have of_idle {child : Child} (idle : Idle table.records (some child)) : child.pc ≠ .send := by
    obtain ⟨-, pc | ⟨pc, -⟩⟩ := idle child rfl <;> simp [pc]
  constructor
  · intro child here sends _
    cases opening with
    | sending _ _ fresh =>
      cases fresh child here
      cases sends
    | sent _ fresh =>
      cases fresh child here
      cases sends
    | @lookedUp q stdin word tryit statics lines ready text =>
      cases here
      have right := (unnoticed q (by simp [← lines])).word
      exact ⟨q, rfl, text.trans right⟩
    | answered _ idle =>
      cases here
      exact absurd sends (of_idle idle)
    | received _ idle =>
      cases here
      exact absurd sends (of_idle idle)
    | clearing _ idle =>
      cases here
      exact absurd sends (of_idle idle)
    | arrived =>
      cases here
      cases sends
    | _ => cases here
  · cases opening with
    | @clearing q stdin tryit child lines idle text =>
      subst lines
      have read := ((unnoticed_iff plain).mp (unnoticed q rfl)).2
      refine .cons ?_ .nil
      rw [localAnswer_iff plain (queried q List.mem_cons_self), text]
      exact read
    | _ => exact .nil

/-- From the second round on every reply is right. -/
theorem Coherent.answering {c : Connection} (coherent : Coherent table queries c) :
    Answering table queries c := by
  refine ⟨?_, coherent.answers⟩
  intro child here sends running
  obtain ⟨client, _, toServer, toClient⟩ := c
  obtain rfl : _ = some child := here
  rcases coherent with ⟨request, phase, exchange⟩ | ended
  · have not_idle : ¬ Idle table.records (some child) := by
      intro idle
      obtain ⟨-, pc | ⟨pc, -⟩⟩ := idle child rfl <;> rw [pc] at sends <;> cases sends
    cases exchange with
    | quiet idle => exact absurd idle not_idle
    | sent idle => exact absurd idle not_idle
    | answered idle => exact absurd idle not_idle
    | arrived => cases sends
    | lookedUp ready text =>
      cases phase with
      | waiting => exact ⟨_, List.getLast?_concat, text⟩
  · exact absurd ended.1 running

theorem Unnoticed.answering {c : Connection} (plain : table.Plain)
    (queried : ∀ q ∈ queries, Query q)
    (unnoticed : ∀ q ∈ queries.head?, Unnoticed table clientTryit serverTryit q)
    (reach : (uninitialised table clientTryit serverTryit queries).Reachable c) :
    Answering table queries c := by
  have stage : Opening table clientTryit serverTryit queries c ∨ Settled table queries c := by
    refine reach.invariant (I := fun c =>
      Opening table clientTryit serverTryit queries c ∨ Settled table queries c) ?_ ?_
    · rintro c rfl
      exact Or.inl .reading
    · rintro act c c' (opening | settled) ⟨whole, h⟩
      · exact opening.step plain queried unnoticed whole h
      · exact Or.inr (settled.step plain queried whole h)
  rcases stage with opening | settled
  · exact opening.answering plain queried unnoticed
  · exact settled.1.answering

/-! ## The first exchange happens -/

theorem reach_next {c : Connection} (act : Act) (c' : Connection)
    (reach : (uninitialised table clientTryit serverTryit queries).Reachable c)
    (h : next (some table.file) serverTryit act c = some c') (whole : Whole act c) :
    (uninitialised table clientTryit serverTryit queries).Reachable c' :=
  reach.next (l := act) ⟨whole, h⟩

/-- There is a run up to the first reply of the child, and on from there up to the first
result of the client. -/
theorem first_exchange (plain : table.Plain) {q : List Byte} (query : Query q)
    (stdin : List (List Byte)) (clientTryit serverTryit : Dictrec) :
    ∃ replying child answered text,
      (uninitialised table clientTryit serverTryit (q :: stdin)).Reachable replying ∧
      replying.client.pc = .recv ∧ replying.client.asked = [q] ∧
      replying.child = some child ∧ child.pc = .send ∧
      child.tryit.text.str = firstReply table serverTryit q ∧
      (uninitialised table clientTryit serverTryit (q :: stdin)).Reachable answered ∧
      answered.client.results = [(replyStatus text, text.str)] ∧
      text = clientTryit.text.receive (firstReply table serverTryit q) := by
  obtain ⟨nonempty, clean, short⟩ := query
  obtain ⟨word, put, line⟩ := clientTryit.word.put_string clean short
  let received : Dictrec := ⟨serverTryit.word.receive q, serverTryit.text⟩
  have found : received.word.str = (serverTryit.word.receive q).str := rfl
  obtain ⟨tryit, statics, call, -, text⟩ := lookup_answers table.readable found
    (Lookup5.initial_ready table.file) []
  have text : tryit.text.str = firstReply table serverTryit q := text
  obtain ⟨some_text, -, room⟩ := firstReply_spec plain serverTryit q
  let c0 := Connection.initial clientTryit (q :: stdin)
  let waiting : Client := ⟨.recv, false, ⟨word, clientTryit.text⟩, stdin, [q], []⟩
  let c1 : Connection := ⟨{ waiting with pc := .connect, firstTime := true }, none, [], []⟩
  let c2 : Connection := ⟨{ waiting with pc := .send }, none, [], []⟩
  let c3 : Connection := ⟨waiting, none, [q], []⟩
  let c4 : Connection := ⟨waiting, some ⟨.recv, serverTryit, Lookup5.initial⟩, [q], []⟩
  let c5 : Connection := ⟨waiting, some ⟨.lookup, received, Lookup5.initial⟩, [], []⟩
  let c6 : Connection := ⟨waiting, some ⟨.send, tryit, statics⟩, [], []⟩
  let reply := firstReply table serverTryit q
  let c7 : Connection := ⟨waiting, some ⟨.clear, tryit, statics⟩, [], [reply]⟩
  let read : Buffer TEXT := clientTryit.text.receive reply
  let compared : Client := { waiting with pc := .compare, tryit := ⟨word, read⟩ }
  let c8 : Connection := { c7 with client := compared, toClient := [] }
  let c9 : Connection := { c8 with client := { compared with
    pc := .clear
    results := [(replyStatus read, read.str)] } }
  have step1 : next (some table.file) serverTryit .client c0 = some c1 := by
    simp only [next, clientStep, c0, Connection.initial, put]
    rfl
  have step3 : next (some table.file) serverTryit .client c2 = some c3 := by
    simp only [next, clientStep, c2, waiting, line, deliver, if_neg nonempty]
    rfl
  have step5 : next (some table.file) serverTryit (.serverRecv q.length) c4 = some c5 := by
    simp only [next, c4, Option.bind_some, if_true, recv_whole nonempty (Nat.le_of_lt short)]
    rfl
  have step6 : next (some table.file) serverTryit .server c5 = some c6 :=
    next_server call serverTryit waiting []
  have step7 : next (some table.file) serverTryit .server c6 = some c7 := by
    simp only [next, c6, Option.bind_some, childStep, text, deliver, if_neg some_text]
    rfl
  have step8 : next (some table.file) serverTryit (.clientRecv reply.length) c7 = some c8 := by
    simp only [next, c7, waiting, if_true, recv_whole some_text (Nat.le_of_lt room), reply]
    rfl
  have begun : (uninitialised table clientTryit serverTryit (q :: stdin)).Reachable c0 :=
    Reachable.initial rfl
  have reach1 := reach_next .client c1 begun step1 trivial
  have reach2 := reach_next .client c2 reach1 rfl trivial
  have reach3 := reach_next .client c3 reach2 step3 trivial
  have reach4 := reach_next .accept c4 reach3 rfl trivial
  have reach5 := reach_next _ c5 reach4 step5 fun _ h => by cases h; rfl
  have reach6 := reach_next .server c6 reach5 step6 trivial
  have reach7 := reach_next .server c7 reach6 step7 trivial
  have reach8 := reach_next _ c8 reach7 step8 fun _ h => by cases h; rfl
  have reach9 := reach_next .client c9 reach8 rfl trivial
  exact ⟨c6, _, c9, read, reach6, rfl, rfl, rfl, rfl, text, reach9, rfl, rfl⟩

theorem unnoticed_of_answering (plain : table.Plain) {q : List Byte} {stdin : List (List Byte)}
    (query : Query q)
    (answering : ∀ c, (uninitialised table clientTryit serverTryit (q :: stdin)).Reachable c →
      Answering table (q :: stdin) c) : Unnoticed table clientTryit serverTryit q := by
  obtain ⟨replying, child, answered, text, reach, waits, asked, here, sends, sent, reach', results,
    read⟩ := first_exchange plain query stdin clientTryit serverTryit
  obtain ⟨line, last, right⟩ := (answering replying reach).sent child here sends (by simp [waits])
  rw [asked] at last
  cases last
  have result := (answering answered reach').received
  rw [results] at result
  obtain ⟨answer, -⟩ := List.forall₂_cons.mp result
  rw [localAnswer_iff plain query, read] at answer
  exact (unnoticed_iff plain).mpr ⟨sent.symm.trans right, answer⟩

end

/-- Every reply is the lookup result for its query, and every result of the client the
local one, exactly when the memory does not show in the first exchange. -/
theorem answering_iff_unnoticed (table : RecordTable) (plain : table.Plain)
    (clientTryit serverTryit : Dictrec) (queries : List (List Byte))
    (queried : ∀ q ∈ queries, Query q) :
    (∀ c, (uninitialised table clientTryit serverTryit queries).Reachable c →
        Answering table queries c) ↔
      ∀ q ∈ queries.head?, Unnoticed table clientTryit serverTryit q := by
  constructor
  · intro answering q first
    cases queries with
    | nil => cases first
    | cons q' stdin =>
      cases first
      exact unnoticed_of_answering plain (queried q List.mem_cons_self) answering
  · intro unnoticed c reach
    exact Unnoticed.answering plain queried unnoticed reach

/-- Memory that holds the word `dogs` and a text of five bytes. -/
private def usedMemory : Dictrec where
  word := Buffer.ofString WORD [100, 111, 103, 115] (by decide)
  text := Buffer.ofString TEXT [119, 111, 111, 102, 10] (by decide)

private theorem catTable_plain : exampleTable.Plain := by
  simp only [RecordTable.Plain]
  decide

private theorem cat_query : ∀ q ∈ [[99, 97, 116]], Query q := by
  simp only [Query]
  decide

/-- A query in front of a NUL is answered in memory that is not zeroed. -/
theorem cat_answered_in_used_memory :
    Unnoticed exampleTable ⟨usedMemory.word, Buffer.ofString TEXT [119, 111, 111, 102] (by decide)⟩
        ⟨Buffer.ofString WORD [100, 111, 103] (by decide), usedMemory.text⟩ [99, 97, 116] ∧
      ∀ c, (uninitialised exampleTable
          ⟨usedMemory.word, Buffer.ofString TEXT [119, 111, 111, 102] (by decide)⟩
          ⟨Buffer.ofString WORD [100, 111, 103] (by decide), usedMemory.text⟩
          [[99, 97, 116]]).Reachable c → Answering exampleTable [[99, 97, 116]] c := by
  have unnoticed : Unnoticed exampleTable
      ⟨usedMemory.word, Buffer.ofString TEXT [119, 111, 111, 102] (by decide)⟩
      ⟨Buffer.ofString WORD [100, 111, 103] (by decide), usedMemory.text⟩ [99, 97, 116] :=
    ⟨by decide, by decide⟩
  refine ⟨unnoticed, (answering_iff_unnoticed exampleTable catTable_plain _ _ _ cat_query).mpr ?_⟩
  rintro q ⟨⟩
  exact unnoticed

/-- The query `cat` in front of the last letter of `dogs`. -/
theorem cat_read_as_cats : ¬ ∀ (table : RecordTable), table.Plain →
    ∀ (clientTryit serverTryit : Dictrec) (queries : List (List Byte)),
      (∀ q ∈ queries, Query q) →
        ∀ c, (uninitialised table clientTryit serverTryit queries).Reachable c →
          Answering table queries c := by
  intro claim
  have answering := claim exampleTable catTable_plain Dictrec.zero usedMemory _ cat_query
  have unnoticed := unnoticed_of_answering catTable_plain (cat_query _ List.mem_cons_self) answering
  exact absurd unnoticed.word (by decide)

end Dictionary
