import NetworkSystemProgramming.Dictionary.ReplyFormat

/-!
# Queries over datagrams

`main.c` with `lookup9.c`: each call sends the word in one datagram and takes the next one
that arrives for the answer. The network neither loses nor changes a datagram; it may keep
one for any time, so that another one overtakes it, and it may copy one. A turn of the
server is one step. What `recvfrom` stores as the sender is the address of the server again.
-/

namespace Dictionary

open ByteBuffers StepSystems StepSystem

inductive AskerPc where
  | gets
  | sendto
  | recvfrom
  | clear
  | finished
  deriving DecidableEq

/-- `main` and its `lookup`. The histories are the lines read and the results, each with the
text that `main` prints. -/
structure Asker where
  pc : AskerPc
  tryit : Dictrec
  stdin : List (List Byte)
  asked : List (List Byte)
  results : List (Int × List Byte)

/-- The client, the server and the datagrams under way. -/
structure Exchanges where
  asker : Asker
  server : UdpServer Unit
  toServer : List (Datagram Unit)
  toClient : List (Datagram Unit)

inductive UdpAct where
  | client
  /-- `recvfrom` of the client returns the `k`-th of the datagrams under way. -/
  | clientRecv (k : Nat)
  | server (k : Nat)
  | copyRequest (k : Nat)
  | copyReply (k : Nat)
  deriving DecidableEq

/-- One statement of the client other than `recvfrom`. -/
def askerStep (c : Asker) (toServer : List (Datagram Unit)) :
    Option (Asker × List (Datagram Unit)) :=
  match c.pc with
  | .gets =>
    match c.stdin with
    | [] => some ({ c with pc := .finished }, toServer)
    | q :: rest =>
      (c.tryit.word.put (q ++ [0])).map fun word =>
        ({ c with
          pc := .sendto
          tryit := { c.tryit with word }
          stdin := rest
          asked := c.asked ++ [q] }, toServer)
  | .sendto => some ({ c with pc := .recvfrom }, toServer ++ [⟨(), c.tryit.word.str⟩])
  | .recvfrom => none
  | .clear => some ({ c with pc := .gets, tryit := Dictrec.zero }, toServer)
  | .finished => none

/-- `recvfrom`, and the result of `lookup`. -/
def Asker.receive (c : Asker) (block : List Byte) : Asker :=
  let result := lookup9 c.tryit block
  { c with
    pc := .clear
    tryit := result.2
    results := c.results ++ [(result.1, result.2.text.str)] }

def udpNext (datafile : Option (List Byte)) (act : UdpAct) (s : Exchanges) : Option Exchanges :=
  match act with
  | .client =>
    (askerStep s.asker s.toServer).map fun (asker, toServer) => { s with asker, toServer }
  | .clientRecv k =>
    if s.asker.pc = .recvfrom then
      s.toClient[k]?.map fun d =>
        { s with asker := s.asker.receive d.bytes, toClient := s.toClient.eraseIdx k }
    else none
  | .server k =>
    s.toServer[k]?.bind fun d =>
      match respond datafile s.server d with
      | .error _ => none
      | .ok (reply, server) =>
        some { s with
          server
          toServer := s.toServer.eraseIdx k
          toClient := s.toClient ++ reply.toList }
  | .copyRequest k => s.toServer[k]?.map fun d => { s with toServer := s.toServer ++ [d] }
  | .copyReply k => s.toClient[k]?.map fun d => { s with toClient := s.toClient ++ [d] }

/-- Nobody has sent anything yet. The record of the client and the word field of the server,
locals that neither `main` sets before its first turn, are taken to hold zeros. -/
def Exchanges.initial (text : Buffer TEXT) (queries : List (List Byte)) : Exchanges where
  asker := ⟨.gets, Dictrec.zero, queries, [], []⟩
  server := .initial text
  toServer := []
  toClient := []

def udpRuns (table : RecordTable) (text : Buffer TEXT) (queries : List (List Byte)) :
    StepSystem Exchanges UdpAct :=
  ofNext (· = Exchanges.initial text queries) (udpNext (some table.file))

/-- No datagram is copied. -/
def Uncopied (act : UdpAct) (_ : Exchanges) : Prop :=
  ∀ k, act ≠ .copyRequest k ∧ act ≠ .copyReply k

/-- What the lookup of the server gives for a word. -/
def serverResult (table : RecordTable) (word : List Byte) : Int × List Byte :=
  match findRecord table.records word with
  | some r => (FOUND, r.text.str)
  | none => (NOTFOUND, notFoundText)

/-- Each result is the one of the server for the word of the same call. -/
def Matched (table : RecordTable) (queries : List (List Byte)) (s : Exchanges) : Prop :=
  ∀ p ∈ queries.zip s.asker.results, p.2 = serverResult table p.1

/-- No query has a definition that reads like the reply for a missing word. -/
def Unmarked (table : RecordTable) (queries : List (List Byte)) : Prop :=
  ∀ q ∈ queries, ∀ r, findRecord table.records q = some r → r.text.str ≠ notFoundText

/-- A line that `gets` has room for. -/
def FitsWord (q : List Byte) : Prop := 0 ∉ q ∧ q.length < WORD

/-- What a zeroed client makes of a datagram. -/
def decoded (sent : List Byte) : Int × List Byte :=
  (if sent = notFoundText then NOTFOUND else FOUND, sent)

section
variable {table : RecordTable} {queries : List (List Byte)}

theorem reply_short (table : RecordTable) (word : List Byte) :
    0 ∉ reply table.records word ∧ (reply table.records word).length < TEXT :=
  reply_clean table.readable word

/-- The answer of the server to another word decodes to the result for `q` only when both
words are answered alike. -/
theorem decoded_iff (q : List Byte) (sent : List Byte) :
    decoded sent = serverResult table q ↔ sent = reply table.records q ∧
      ∀ r, findRecord table.records q = some r → r.text.str ≠ notFoundText := by
  have other : NOTFOUND ≠ FOUND := by decide
  cases search : findRecord table.records q with
  | none => grind [decoded, serverResult, reply]
  | some r => grind [decoded, serverResult, reply]

theorem receive_decoded {c : Asker} {block : List Byte} (zeroed : c.tryit.text = Buffer.zero TEXT)
    (clean : 0 ∉ block) (short : block.length < TEXT) :
    c.receive block = { c with
      pc := .clear
      tryit := (lookup9 c.tryit block).2
      results := c.results ++ [decoded block] } := by
  obtain ⟨text, status⟩ := receiveReply_zeroed zeroed clean short
  simp only [Asker.receive, lookup9, text, status, decoded]

/-- The server answers the word of a datagram. -/
theorem respond_line {server : UdpServer Unit} {d : Datagram Unit}
    (zeroed : server.tryit.word = .zero WORD) (ready : server.statics.Ready table.file)
    (line : FitsWord d.bytes) :
    ∃ server', respond (some table.file) server d =
        .ok (some ⟨(), reply table.records d.bytes⟩, server') ∧
      server'.tryit.word = .zero WORD ∧ server'.statics.Ready table.file := by
  have word : cstr (d.bytes.take WORD) = d.bytes := by
    rw [List.take_of_length_le (Nat.le_of_lt line.2), cstr_of_clean line.1]
  have answered := respond_replies table zeroed ready d
  rwa [word] at answered

/-! ## What holds in every run -/

/-- The client, with the word that it waits for an answer to: `done` are the lines
answered, `q` is the one at hand. -/
inductive AskerPhase (table : RecordTable) (queries : List (List Byte)) :
    Option (List Byte) → Asker → Prop
  | reading {stdin done results} (lines : done ++ stdin = queries)
      (matched : List.Forall₂ (fun q result => result = serverResult table q) done results) :
      AskerPhase table queries none ⟨.gets, Dictrec.zero, stdin, done, results⟩
  | sending {word stdin done q results} (lines : done ++ q :: stdin = queries)
      (matched : List.Forall₂ (fun q result => result = serverResult table q) done results)
      (line : Buffer.str word = q) :
      AskerPhase table queries none
        ⟨.sendto, ⟨word, Buffer.zero TEXT⟩, stdin, done ++ [q], results⟩
  | waiting {word stdin done q results} (lines : done ++ q :: stdin = queries)
      (matched : List.Forall₂ (fun q result => result = serverResult table q) done results) :
      AskerPhase table queries (some q)
        ⟨.recvfrom, ⟨word, Buffer.zero TEXT⟩, stdin, done ++ [q], results⟩
  | clearing {tryit stdin done results} (lines : done ++ stdin = queries)
      (matched : List.Forall₂ (fun q result => result = serverResult table q) done results) :
      AskerPhase table queries none ⟨.clear, tryit, stdin, done, results⟩
  | finished {tryit stdin done results} (lines : done ++ stdin = queries)
      (matched : List.Forall₂ (fun q result => result = serverResult table q) done results) :
      AskerPhase table queries none ⟨.finished, tryit, stdin, done, results⟩

/-- What the datagrams under way may be, for the word that the client waits for; `copied`
says whether they may also be there twice. -/
structure Carries (table : RecordTable) (queries : List (List Byte)) (copied : Prop)
    (under : Option (List Byte) → List (Datagram Unit) → List (Datagram Unit) → Prop) : Prop where
  quiet : under none [] []
  sent : ∀ {a b} q, q ∈ queries → under none a b → under (some q) (a ++ [⟨(), q⟩]) b
  asked : ∀ {w a b} d, under w a b → d ∈ a → d.bytes ∈ queries
  served : ∀ {w a b} k d, under w a b → a[k]? = some d →
    under w (a.eraseIdx k) (b ++ [⟨(), reply table.records d.bytes⟩])
  received : ∀ {q a b} k d, q ∈ queries → under (some q) a b → b[k]? = some d →
    d.bytes = reply table.records q ∧ under none a (b.eraseIdx k)
  copiedRequest : copied → ∀ {w a b} d, under w a b → d ∈ a → under w (a ++ [d]) b
  copiedReply : copied → ∀ {w a b} d, under w a b → d ∈ b → under w a (b ++ [d])

/-- The server between two turns. -/
def UdpServer.Waiting {I : Type} (table : RecordTable) (server : UdpServer I) : Prop :=
  server.tryit.word = .zero WORD ∧ server.statics.Ready table.file

/-- The invariant of the runs. -/
def Orderly (table : RecordTable) (queries : List (List Byte))
    (under : Option (List Byte) → List (Datagram Unit) → List (Datagram Unit) → Prop)
    (s : Exchanges) : Prop :=
  s.server.Waiting table ∧
    ∃ w, AskerPhase table queries w s.asker ∧ under w s.toServer s.toClient

section
variable {copied : Prop}
  {under : Option (List Byte) → List (Datagram Unit) → List (Datagram Unit) → Prop}

theorem AskerPhase.client {w : Option (List Byte)} {c c' : Asker}
    {toServer toServer' toClient : List (Datagram Unit)}
    (carries : Carries table queries copied under) (lines : ∀ q ∈ queries, FitsWord q)
    (asking : AskerPhase table queries w c) (here : under w toServer toClient)
    (h : askerStep c toServer = some (c', toServer')) :
    ∃ w', AskerPhase table queries w' c' ∧ under w' toServer' toClient := by
  cases asking with
  | @reading stdin done results order matched =>
    cases stdin with
    | nil =>
      cases h
      exact ⟨none, .finished order matched, here⟩
    | cons q stdin =>
      obtain ⟨clean, short⟩ := lines q (by simp [← order])
      obtain ⟨word, put, line⟩ := Dictrec.zero.word.put_string clean short
      simp only [askerStep, put, Option.map_some] at h
      cases h
      exact ⟨none, .sending order matched line, here⟩
  | @sending word stdin done q results order matched line =>
    simp only [askerStep, line] at h
    cases h
    exact ⟨some q, .waiting order matched, carries.sent q (by simp [← order]) here⟩
  | waiting => cases h
  | clearing order matched =>
    cases h
    exact ⟨none, .reading order matched, here⟩
  | finished => cases h

/-- The client takes a datagram that answers its word. -/
theorem AskerPhase.receive {w : Option (List Byte)} {c : Asker}
    {toServer toClient : List (Datagram Unit)} {k : Nat} {d : Datagram Unit}
    (carries : Carries table queries copied under) (unmarked : Unmarked table queries)
    (asking : AskerPhase table queries w c) (here : under w toServer toClient)
    (waits : c.pc = .recvfrom) (taken : toClient[k]? = some d) :
    ∃ w', AskerPhase table queries w' (c.receive d.bytes) ∧
      under w' toServer (toClient.eraseIdx k) := by
  cases asking with
  | @waiting word stdin done q results order matched =>
    obtain ⟨answer, rest⟩ := carries.received k d (by simp [← order]) here taken
    obtain ⟨clean, short⟩ := reply_short table q
    have right : decoded d.bytes = serverResult table q :=
      (decoded_iff q d.bytes).mpr ⟨answer, unmarked q (by simp [← order])⟩
    have matched' : List.Forall₂ (fun q result => result = serverResult table q) (done ++ [q])
        (results ++ [decoded d.bytes]) := List.rel_append matched (.cons right .nil)
    refine ⟨none, ?_, rest⟩
    rw [receive_decoded rfl (answer ▸ clean) (answer ▸ short)]
    exact .clearing (by simpa using order) matched'
  | _ => cases waits

/-- Step lemma, for every network that carries what the runs need. -/
theorem Orderly.step {s t : Exchanges} {act : UdpAct} (carries : Carries table queries copied under)
    (lines : ∀ q ∈ queries, FitsWord q) (unmarked : Unmarked table queries)
    (orderly : Orderly table queries under s) (copies : Uncopied act s ∨ copied)
    (h : udpNext (some table.file) act s = some t) : Orderly table queries under t := by
  obtain ⟨waiting, w, asking, here⟩ := orderly
  cases act with
  | client =>
    obtain ⟨⟨c', toServer'⟩, step, rfl⟩ := Option.map_eq_some_iff.mp h
    exact ⟨waiting, asking.client carries lines here step⟩
  | clientRecv k =>
    obtain ⟨waits, h⟩ := Option.ite_none_right_eq_some.mp h
    obtain ⟨d, taken, rfl⟩ := Option.map_eq_some_iff.mp h
    exact ⟨waiting, asking.receive carries unmarked here waits taken⟩
  | server k =>
    obtain ⟨d, taken, h⟩ := Option.bind_eq_some_iff.mp h
    have line := lines _ (carries.asked d here (List.mem_of_getElem? taken))
    obtain ⟨server, answered, waiting'⟩ := respond_line waiting.1 waiting.2 line
    rw [answered] at h
    cases h
    exact ⟨waiting', w, asking, carries.served k d here taken⟩
  | copyRequest k =>
    obtain ⟨d, taken, rfl⟩ := Option.map_eq_some_iff.mp h
    rcases copies with plain | copied
    · exact absurd rfl (plain k).1
    · exact ⟨waiting, w, asking, carries.copiedRequest copied d here (List.mem_of_getElem? taken)⟩
  | copyReply k =>
    obtain ⟨d, taken, rfl⟩ := Option.map_eq_some_iff.mp h
    rcases copies with plain | copied
    · exact absurd rfl (plain k).2
    · exact ⟨waiting, w, asking, carries.copiedReply copied d here (List.mem_of_getElem? taken)⟩

theorem Orderly.start (carries : Carries table queries copied under) (text : Buffer TEXT) :
    Orderly table queries under (Exchanges.initial text queries) := by
  have reading : AskerPhase table queries none ⟨.gets, Dictrec.zero, queries, [], []⟩ :=
    .reading rfl .nil
  exact ⟨⟨rfl, Lookup5.initial_ready _⟩, none, reading, carries.quiet⟩

theorem Orderly.matched {s : Exchanges} (orderly : Orderly table queries under s) :
    Matched table queries s := by
  obtain ⟨-, w, asking, -⟩ := orderly
  have of_done {done rest results} (order : done ++ rest = queries)
      (matched : List.Forall₂ (fun q result => result = serverResult table q) done results) :
      ∀ p ∈ queries.zip results, p.2 = serverResult table p.1 := by
    obtain ⟨size, right⟩ := List.forall₂_iff_zip.mp matched
    intro p member
    rw [← order, ← List.append_nil results, List.zip_append size, List.zip_nil_right,
      List.append_nil] at member
    exact right member
  obtain ⟨asker, server, toServer, toClient⟩ := s
  cases asking with
  | reading order matched => exact of_done order matched
  | sending order matched => exact of_done order matched
  | waiting order matched => exact of_done order matched
  | clearing order matched => exact of_done order matched
  | finished order matched => exact of_done order matched

end

/-! ## Two such networks -/

/-- No datagram is copied: only the request at hand or its answer is under way. -/
inductive Alone (table : RecordTable) (queries : List (List Byte)) :
    Option (List Byte) → List (Datagram Unit) → List (Datagram Unit) → Prop
  | quiet : Alone table queries none [] []
  | request {q} (member : q ∈ queries) : Alone table queries (some q) [⟨(), q⟩] []
  | answer {q} : Alone table queries (some q) [] [⟨(), reply table.records q⟩]

/-- All queries have one answer. -/
def Alike (queries : List (List Byte)) (answer : List Byte) (_ : Option (List Byte))
    (toServer toClient : List (Datagram Unit)) : Prop :=
  (∀ d ∈ toServer, d.bytes ∈ queries) ∧ ∀ d ∈ toClient, d.bytes = answer

theorem alone_carries : Carries table queries False (Alone table queries) where
  quiet := .quiet
  sent := by
    rintro a b q member ⟨⟩
    exact .request member
  asked := by
    rintro w a b d here carried
    cases here with
    | request member =>
      rw [List.mem_singleton.mp carried]
      exact member
    | _ => cases carried
  served := by
    rintro w a b k d here taken
    cases here with
    | @request q =>
      obtain ⟨rfl, rfl⟩ : k = 0 ∧ ⟨(), q⟩ = d := by simpa [List.getElem?_singleton] using taken
      exact .answer
    | _ => simp at taken
  received := by
    rintro q a b k d - here taken
    cases here with
    | request => simp at taken
    | answer =>
      obtain ⟨rfl, rfl⟩ : k = 0 ∧ ⟨(), reply table.records q⟩ = d := by
        simpa [List.getElem?_singleton] using taken
      exact ⟨rfl, .quiet⟩
  copiedRequest := nofun
  copiedReply := nofun

theorem alike_carries {answer : List Byte} (same : ∀ q ∈ queries, reply table.records q = answer) :
    Carries table queries True (Alike queries answer) where
  quiet := ⟨nofun, nofun⟩
  sent := by
    rintro a b q member ⟨requests, answers⟩
    exact ⟨List.forall_mem_append.mpr ⟨requests, List.forall_mem_singleton.mpr member⟩, answers⟩
  asked := fun d here carried => here.1 d carried
  served := by
    rintro w a b k d ⟨requests, answers⟩ taken
    have answered := same _ (requests d (List.mem_of_getElem? taken))
    exact ⟨fun d' carried => requests d' (List.mem_of_mem_eraseIdx carried),
      List.forall_mem_append.mpr ⟨answers, List.forall_mem_singleton.mpr answered⟩⟩
  received := by
    rintro q a b k d member ⟨requests, answers⟩ taken
    have answered := answers d (List.mem_of_getElem? taken)
    exact ⟨answered.trans (same q member).symm, requests,
      fun d' carried => answers d' (List.mem_of_mem_eraseIdx carried)⟩
  copiedRequest := by
    rintro - w a b d ⟨requests, answers⟩ carried
    have again := requests d carried
    exact ⟨List.forall_mem_append.mpr ⟨requests, List.forall_mem_singleton.mpr again⟩, answers⟩
  copiedReply := by
    rintro - w a b d ⟨requests, answers⟩ carried
    have again := answers d carried
    exact ⟨requests, List.forall_mem_append.mpr ⟨answers, List.forall_mem_singleton.mpr again⟩⟩

/-- Run lemma: without copies the order of arrivals matches the answers to the words. -/
theorem uncopied_matched {text : Buffer TEXT} {s : Exchanges} (lines : ∀ q ∈ queries, FitsWord q)
    (unmarked : Unmarked table queries)
    (reach : ((udpRuns table text queries).restrict Uncopied).Reachable s) :
    Matched table queries s := by
  have orderly : Orderly table queries (Alone table queries) s := by
    refine reach.invariant (I := Orderly table queries (Alone table queries)) ?_ ?_
    · rintro s rfl
      exact Orderly.start alone_carries text
    · rintro act s t orderly ⟨plain, h⟩
      exact orderly.step alone_carries lines unmarked (Or.inl plain) h
  exact orderly.matched

/-- With copies a late answer is right when all answers are the same. -/
theorem alike_matched {text : Buffer TEXT} {s : Exchanges} {answer : List Byte}
    (lines : ∀ q ∈ queries, FitsWord q) (unmarked : Unmarked table queries)
    (same : ∀ q ∈ queries, reply table.records q = answer)
    (reach : (udpRuns table text queries).Reachable s) : Matched table queries s := by
  have carries := alike_carries same
  have orderly : Orderly table queries (Alike queries answer) s := by
    refine reach.invariant (I := Orderly table queries (Alike queries answer)) ?_ ?_
    · rintro s rfl
      exact Orderly.start carries text
    · rintro act s t orderly h
      exact orderly.step carries lines unmarked (Or.inr trivial) h
  exact orderly.matched

end

/-! ## Runs of whole calls -/

/-- Between two calls, with the datagrams that came late. -/
def Exchanges.between (server : UdpServer Unit) (stdin asked : List (List Byte))
    (results : List (Int × List Byte)) (late : List (Datagram Unit)) : Exchanges :=
  ⟨⟨.gets, Dictrec.zero, stdin, asked, results⟩, server, [], late⟩

/-- In front of a `recvfrom`, with all requests answered. -/
def Exchanges.awaiting (word : Buffer WORD) (server : UdpServer Unit)
    (stdin asked : List (List Byte)) (results : List (Int × List Byte))
    (late : List (Datagram Unit)) : Exchanges :=
  ⟨⟨.recvfrom, ⟨word, Buffer.zero TEXT⟩, stdin, asked, results⟩, server, [], late⟩

section
variable (table : RecordTable) (text : Buffer TEXT) (queries : List (List Byte))

theorem uncopied_next {table : RecordTable} {text : Buffer TEXT} {queries : List (List Byte)}
    {r s : Exchanges} (act : UdpAct) (t : Exchanges)
    (run : ((udpRuns table text queries).restrict Uncopied).Run r s)
    (h : udpNext (some table.file) act s = some t) (plain : Uncopied act s) :
    ((udpRuns table text queries).restrict Uncopied).Run r t :=
  run.snoc (l := act) ⟨plain, h⟩

/-- A call up to its `recvfrom`. -/
theorem asks {server : UdpServer Unit} {q : List Byte} (line : FitsWord q)
    (waiting : server.Waiting table) (stdin asked : List (List Byte))
    (results : List (Int × List Byte)) (late : List (Datagram Unit)) :
    ∃ word server', server'.Waiting table ∧
      ((udpRuns table text queries).restrict Uncopied).Run
        (.between server (q :: stdin) asked results late)
        (.awaiting word server' stdin (asked ++ [q]) results
          (late ++ [⟨(), reply table.records q⟩])) := by
  obtain ⟨word, put, str⟩ := Dictrec.zero.word.put_string line.1 line.2
  obtain ⟨server', answered, waiting'⟩ := respond_line (d := ⟨(), q⟩) waiting.1 waiting.2 line
  let typed : Asker := ⟨.sendto, ⟨word, Buffer.zero TEXT⟩, stdin, asked ++ [q], results⟩
  let s0 : Exchanges := .between server (q :: stdin) asked results late
  let s1 : Exchanges := ⟨typed, server, [], late⟩
  let s2 : Exchanges := ⟨{ typed with pc := .recvfrom }, server, [⟨(), q⟩], late⟩
  let s3 : Exchanges :=
    .awaiting word server' stdin (asked ++ [q]) results (late ++ [⟨(), reply table.records q⟩])
  have step1 : udpNext (some table.file) .client s0 = some s1 := by
    simp only [udpNext, askerStep, s0, Exchanges.between, put, Option.map_some]
    rfl
  have step2 : udpNext (some table.file) .client s1 = some s2 := by
    simp only [udpNext, askerStep, s1, typed, str, Option.map_some]
    rfl
  have step3 : udpNext (some table.file) (.server 0) s2 = some s3 := by
    simp only [udpNext, s2, List.getElem?_cons_zero, Option.bind_some, answered]
    rfl
  have start : ((udpRuns table text queries).restrict Uncopied).Run s0 s0 := Run.refl s0
  have run1 := uncopied_next .client s1 start step1 fun _ => ⟨nofun, nofun⟩
  have run2 := uncopied_next .client s2 run1 step2 fun _ => ⟨nofun, nofun⟩
  have run3 := uncopied_next (.server 0) s3 run2 step3 fun _ => ⟨nofun, nofun⟩
  exact ⟨word, server', waiting', run3⟩

/-- The rest of a call that takes the `k`-th datagram. -/
theorem takes {late : List (Datagram Unit)} {k : Nat} {d : Datagram Unit}
    (taken : late[k]? = some d) (clean : 0 ∉ d.bytes) (short : d.bytes.length < TEXT)
    (word : Buffer WORD) (server : UdpServer Unit) (stdin asked : List (List Byte))
    (results : List (Int × List Byte)) :
    ((udpRuns table text queries).restrict Uncopied).Run
      (.awaiting word server stdin asked results late)
      (.between server stdin asked (results ++ [decoded d.bytes]) (late.eraseIdx k)) := by
  let waits : Asker := ⟨.recvfrom, ⟨word, Buffer.zero TEXT⟩, stdin, asked, results⟩
  let s0 : Exchanges := .awaiting word server stdin asked results late
  let s1 : Exchanges := ⟨waits.receive d.bytes, server, [], late.eraseIdx k⟩
  let s2 : Exchanges :=
    .between server stdin asked (results ++ [decoded d.bytes]) (late.eraseIdx k)
  have step1 : udpNext (some table.file) (.clientRecv k) s0 = some s1 := by
    simp only [udpNext, s0, Exchanges.awaiting, if_true, taken, Option.map_some]
    rfl
  have step2 : udpNext (some table.file) .client s1 = some s2 := by
    have received := receive_decoded (c := waits) rfl clean short
    simp only [udpNext, s1, received, askerStep, Option.map_some]
    rfl
  have start : ((udpRuns table text queries).restrict Uncopied).Run s0 s0 := Run.refl s0
  have run1 := uncopied_next (.clientRecv k) s1 start step1 fun _ => ⟨nofun, nofun⟩
  exact uncopied_next .client s2 run1 step2 fun _ => ⟨nofun, nofun⟩

/-- Calls one after the other, each of which takes its own answer. -/
theorem rounds {server : UdpServer Unit} (pre : List (List Byte)) (lines : ∀ q ∈ pre, FitsWord q)
    (waiting : server.Waiting table) (stdin asked : List (List Byte))
    (results : List (Int × List Byte)) (late : List (Datagram Unit)) :
    ∃ server', server'.Waiting table ∧ ((udpRuns table text queries).restrict Uncopied).Run
      (.between server (pre ++ stdin) asked results late)
      (.between server' stdin (asked ++ pre)
        (results ++ pre.map fun q => decoded (reply table.records q)) late) := by
  induction pre generalizing server asked results with
  | nil => exact ⟨server, waiting, by simpa using Run.refl _⟩
  | cons q pre ih =>
    obtain ⟨clean, short⟩ := reply_short table q
    obtain ⟨word, server1, waiting1, first⟩ := asks table text queries
      (lines q List.mem_cons_self) waiting (pre ++ stdin) asked results late
    have own : (late ++ [⟨(), reply table.records q⟩])[late.length]? =
        some ⟨(), reply table.records q⟩ := List.getElem?_concat_length
    have second := takes table text queries own clean short word server1 (pre ++ stdin)
      (asked ++ [q]) results
    rw [List.eraseIdx_append_of_length_le (Nat.le_refl _), Nat.sub_self, List.eraseIdx_cons_zero,
      List.append_nil] at second
    obtain ⟨server2, waiting2, others⟩ := ih
      (fun q' member => lines q' (List.mem_cons_of_mem q member)) waiting1 (asked ++ [q])
      (results ++ [decoded (reply table.records q)])
    rw [List.append_assoc, List.append_assoc] at others
    exact ⟨server2, waiting2, (first.trans second).trans others⟩

end

/-! ## What the claimed match needs -/

section
variable {table : RecordTable} {text : Buffer TEXT} {queries : List (List Byte)}

theorem initial_waiting (table : RecordTable) (text : Buffer TEXT) :
    (UdpServer.initial text : UdpServer Unit).Waiting table :=
  ⟨rfl, Lookup5.initial_ready _⟩

theorem unmarked_of_matched (lines : ∀ q ∈ queries, FitsWord q)
    (matched : ∀ s, ((udpRuns table text queries).restrict Uncopied).Reachable s →
      Matched table queries s) : Unmarked table queries := by
  obtain ⟨server, -, run⟩ := rounds table text queries queries lines (initial_waiting table text)
    [] [] [] []
  have start : ((udpRuns table text queries).restrict Uncopied).Reachable
      (.between (.initial text) (queries ++ []) [] [] []) := by
    rw [List.append_nil]
    exact Reachable.initial rfl
  intro q member
  have pair : (q, decoded (reply table.records q)) ∈
      queries.zip (queries.map fun q => decoded (reply table.records q)) := by
    have zipped : (queries.map id).zip (queries.map fun q => decoded (reply table.records q)) =
        queries.map fun q => (q, decoded (reply table.records q)) := List.zip_map'
    rw [List.map_id] at zipped
    rw [zipped]
    exact List.mem_map_of_mem member
  exact ((decoded_iff q _).mp (matched _ (start.run run) _ pair)).2

/-- The answer to the first query, copied and kept until any later call, is taken for its
own answer. -/
theorem alike_of_matched {first : List Byte} {rest : List (List Byte)}
    (lines : ∀ q ∈ first :: rest, FitsWord q)
    (matched : ∀ s, (udpRuns table text (first :: rest)).Reachable s →
      Matched table (first :: rest) s) {q : List Byte} (member : q ∈ rest) :
    reply table.records q = reply table.records first := by
  obtain ⟨mid, post, rfl⟩ := List.append_of_mem member
  obtain ⟨clean, short⟩ := reply_short table first
  let queries := first :: (mid ++ q :: post)
  let answer : Datagram Unit := ⟨(), reply table.records first⟩
  obtain ⟨word1, server1, waiting1, run1⟩ := asks table text queries (lines _ List.mem_cons_self)
    (initial_waiting table text) (mid ++ q :: post) [] [] []
  have copy : (udpRuns table text queries).step (.copyReply 0)
      (.awaiting word1 server1 (mid ++ q :: post) [first] [] [answer])
      (.awaiting word1 server1 (mid ++ q :: post) [first] [] [answer, answer]) := rfl
  have oldest (last : Datagram Unit) : [answer, last][0]? = some answer := rfl
  have run2 := takes table text queries (oldest answer) clean short word1 server1
    (mid ++ q :: post) [first] []
  obtain ⟨server2, waiting2, run3⟩ := rounds table text queries mid
    (fun q' inside => lines q' (by simp [inside])) waiting1 (q :: post) [first]
    [decoded (reply table.records first)] [answer]
  obtain ⟨word3, server3, -, run4⟩ := asks table text queries (lines q (by simp)) waiting2 post
    ([first] ++ mid)
    ([decoded (reply table.records first)] ++ mid.map fun q => decoded (reply table.records q))
    [answer]
  have run5 := takes table text queries (oldest ⟨(), reply table.records q⟩) clean short word3
    server3 post ([first] ++ mid ++ [q])
    ([decoded (reply table.records first)] ++ mid.map fun q => decoded (reply table.records q))
  have start : (udpRuns table text queries).Reachable (.between (.initial text) queries [] [] []) :=
    Reachable.initial rfl
  have reach := (((((start.run (restrict_run run1)).next copy).run (restrict_run run2)).run
    (restrict_run run3)).run (restrict_run run4)).run (restrict_run run5)
  have pair : (q, decoded (reply table.records first)) ∈ queries.zip
      ([decoded (reply table.records first)] ++
        mid.map (fun q => decoded (reply table.records q)) ++
        [decoded (reply table.records first)]) := by
    have size : (first :: mid).length =
        ([decoded (reply table.records first)] ++
          mid.map fun q => decoded (reply table.records q)).length := by
      simp
    have split : queries = (first :: mid) ++ q :: post := rfl
    rw [split, List.zip_append size]
    simp
  have taken := matched _ reach _ pair
  exact ((decoded_iff q _).mp taken).1.symm

end

/-- Under a network that may copy datagrams each result belongs to its own word exactly when
all words have one answer, and under one that does not copy always; in both no definition
may read like the reply for a missing word. -/
theorem matched_iff (table : RecordTable) (text : Buffer TEXT) (queries : List (List Byte))
    (lines : ∀ q ∈ queries, FitsWord q) :
    ((∀ s, (udpRuns table text queries).Reachable s → Matched table queries s) ↔
        Unmarked table queries ∧
          ∀ q ∈ queries, reply table.records q = reply table.records (queries.headD [])) ∧
      ((∀ s, ((udpRuns table text queries).restrict Uncopied).Reachable s →
          Matched table queries s) ↔ Unmarked table queries) := by
  refine ⟨⟨?_, ?_⟩, ?_, ?_⟩
  · intro matched
    refine ⟨unmarked_of_matched lines fun s reach => matched s (restrict_reachable reach), ?_⟩
    intro q member
    cases queries with
    | nil => cases member
    | cons first rest =>
      rcases List.mem_cons.mp member with rfl | later
      · rfl
      · exact alike_of_matched lines matched later
  · rintro ⟨unmarked, same⟩ s reach
    exact alike_matched lines unmarked same reach
  · exact unmarked_of_matched lines
  · intro unmarked s reach
    exact uncopied_matched lines unmarked reach

private theorem exampleTable_unmarked (queries : List (List Byte)) :
    Unmarked exampleTable queries := by
  intro q _ r found
  have member := findRecord_mem found
  rw [List.mem_singleton.mp member]
  decide

/-- The query `cat`, twice: the answers may be mixed up. -/
theorem cat_twice_matched : Unmarked exampleTable [[99, 97, 116], [99, 97, 116]] ∧
    ∀ s, (udpRuns exampleTable (Buffer.zero TEXT) [[99, 97, 116], [99, 97, 116]]).Reachable s →
      Matched exampleTable [[99, 97, 116], [99, 97, 116]] s := by
  have lines : ∀ q ∈ [[99, 97, 116], [99, 97, 116]], FitsWord q := by
    simp only [FitsWord]
    decide
  have unmarked := exampleTable_unmarked [[99, 97, 116], [99, 97, 116]]
  exact ⟨unmarked,
    (matched_iff exampleTable (Buffer.zero TEXT) _ lines).1.mpr ⟨unmarked, by decide⟩⟩

/-- The queries `cat` and `dog`, and the answer to the first one arrives twice. -/
theorem copied_answer_taken : ¬ ∀ (table : RecordTable) (queries : List (List Byte)),
    (∀ q ∈ queries, FitsWord q) →
      ∀ s, (udpRuns table (Buffer.zero TEXT) queries).Reachable s → Matched table queries s := by
  intro claim
  have lines : ∀ q ∈ [[99, 97, 116], [100, 111, 103]], FitsWord q := by
    simp only [FitsWord]
    decide
  have same := alike_of_matched lines (claim exampleTable _ lines) (List.mem_singleton_self _)
  exact absurd same (by decide)

end Dictionary
