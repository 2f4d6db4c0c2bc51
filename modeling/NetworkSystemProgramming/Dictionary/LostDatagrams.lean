import NetworkSystemProgramming.Dictionary.DatagramQueries

/-!
# Datagrams that get lost

`lookup9.c` sends the word once and waits in `recvfrom` without a time limit. While the
network loses nothing, every word is answered. When it loses one datagram, nothing is under
way any more, and the client waits for ever.
-/

namespace Dictionary

open ByteBuffers StepSystems StepSystem

/-- The exchanges, and the number of datagrams that the network has lost. -/
structure Lossy where
  exchanges : Exchanges
  lost : Nat

inductive LossyAct where
  | carried (act : UdpAct)
  | loseRequest (k : Nat)
  | loseReply (k : Nat)

def lossyNext (datafile : Option (List Byte)) (act : LossyAct) (s : Lossy) : Option Lossy :=
  match act with
  | .carried act => (udpNext datafile act s.exchanges).map fun exchanges => { s with exchanges }
  | .loseRequest k =>
    s.exchanges.toServer[k]?.map fun _ =>
      ⟨{ s.exchanges with toServer := s.exchanges.toServer.eraseIdx k }, s.lost + 1⟩
  | .loseReply k =>
    s.exchanges.toClient[k]?.map fun _ =>
      ⟨{ s.exchanges with toClient := s.exchanges.toClient.eraseIdx k }, s.lost + 1⟩

/-- The network copies nothing. -/
def CarriedOnce (act : LossyAct) (s : Lossy) : Prop :=
  ∀ carried, act = .carried carried → Uncopied carried s.exchanges

/-- A network that may lose datagrams, between two programs that start with zeroed words. -/
def lossyRuns (table : RecordTable) (text : Buffer TEXT) (queries : List (List Byte)) :
    StepSystem Lossy LossyAct :=
  (ofNext (· = ⟨Exchanges.initial text queries, 0⟩) (lossyNext (some table.file))).restrict
    CarriedOnce

/-- The words of the input are answered one after the other, up to the end or up to a word
whose request or reply is lost; then no step is possible. -/
inductive Concluded (table : RecordTable) (queries : List (List Byte)) : Lossy → Prop
  | answered {s} (pc : s.exchanges.asker.pc = .finished) (kept : s.lost = 0)
      (all : s.exchanges.asker.results = queries.map (serverResult table)) :
      Concluded table queries s
  | waiting {s done q rest} (pc : s.exchanges.asker.pc = .recvfrom) (lost : s.lost = 1)
      (split : queries = done ++ q :: rest)
      (answered : s.exchanges.asker.results = done.map (serverResult table)) :
      Concluded table queries s

/-- The client waits and nothing is under way. -/
structure Hung (table : RecordTable) (queries : List (List Byte)) (s : Lossy) : Prop where
  lost : s.lost = 1
  waits : ∃ q, AskerPhase table queries (some q) s.exchanges.asker
  noRequest : s.exchanges.toServer = []
  noReply : s.exchanges.toClient = []

/-- The invariant of the runs. -/
inductive OnceLost (table : RecordTable) (queries : List (List Byte)) (s : Lossy) : Prop
  | none (kept : s.lost = 0) (orderly : Orderly table queries (Alone table queries) s.exchanges)
      (read : s.exchanges.asker.pc = .finished → s.exchanges.asker.stdin = [])
  | one (hung : Hung table queries s)

/-- The steps of the client, of the server and of the network that are left. -/
def Lossy.left (s : Lossy) : Nat :=
  5 * s.exchanges.asker.stdin.length + 2 * s.exchanges.toServer.length +
    s.exchanges.toClient.length +
    match s.exchanges.asker.pc with
    | .gets => 1
    | .sendto => 5
    | .recvfrom | .clear => 2
    | .finished => 0

variable {table : RecordTable} {text : Buffer TEXT} {queries : List (List Byte)} {s t : Lossy}

theorem results_eq {done : List (List Byte)} {results : List (Int × List Byte)}
    (matched : List.Forall₂ (fun q result => result = serverResult table q) done results) :
    results = done.map (serverResult table) := by
  induction matched with
  | nil => rfl
  | cons right _ ih => rw [List.map_cons, right, ih]

theorem AskerPhase.waits {q : List Byte} {c : Asker}
    (asking : AskerPhase table queries (some q) c) :
    c.pc = .recvfrom ∧ ∃ done rest, queries = done ++ q :: rest ∧
      c.results = done.map (serverResult table) := by
  cases asking with
  | @waiting word stdin done q results lines matched =>
    exact ⟨rfl, done, stdin, lines.symm, results_eq matched⟩

theorem AskerPhase.complete {w : Option (List Byte)} {c : Asker}
    (asking : AskerPhase table queries w c) (finished : c.pc = .finished) (read : c.stdin = []) :
    c.results = queries.map (serverResult table) := by
  cases asking with
  | finished lines matched =>
    cases read
    rw [← lines, List.append_nil]
    exact results_eq matched
  | _ => cases finished

/-- The request or the answer that is under way belongs to the word that is waited for. -/
theorem Orderly.under_way {s : Exchanges} (orderly : Orderly table queries (Alone table queries) s)
    (some_ : s.toServer ≠ [] ∨ s.toClient ≠ []) :
    (∃ q, AskerPhase table queries (some q) s.asker) ∧
      s.toServer.length + s.toClient.length = 1 := by
  obtain ⟨-, w, asking, here⟩ := orderly
  obtain ⟨asker, server, toServer, toClient⟩ := s
  cases here with
  | quiet => simp at some_
  | request member => exact ⟨⟨_, asking⟩, rfl⟩
  | answer => exact ⟨⟨_, asking⟩, rfl⟩

/-- Only the end of the input finishes the client. -/
theorem askerStep_finished {c c' : Asker} {toServer toServer' : List (Datagram Unit)}
    (step : askerStep c toServer = some (c', toServer')) (finished : c'.pc = .finished) :
    c'.stdin = [] := by
  obtain ⟨pc, tryit, stdin, asked, results⟩ := c
  cases pc with
  | gets =>
    cases stdin with
    | nil =>
      cases step
      rfl
    | cons q rest =>
      obtain ⟨word, -, same⟩ := Option.map_eq_some_iff.mp step
      cases same
      cases finished
  | sendto | clear =>
    cases step
    cases finished
  | recvfrom | finished => cases step

theorem udpNext_finished {datafile : Option (List Byte)} {act : UdpAct} {s t : Exchanges}
    (read : s.asker.pc = .finished → s.asker.stdin = [])
    (step : udpNext datafile act s = some t) (finished : t.asker.pc = .finished) :
    t.asker.stdin = [] := by
  cases act with
  | client =>
    obtain ⟨⟨c, toServer⟩, own, rfl⟩ := Option.map_eq_some_iff.mp step
    exact askerStep_finished own finished
  | clientRecv k =>
    obtain ⟨-, step⟩ := Option.ite_none_right_eq_some.mp step
    obtain ⟨d, -, rfl⟩ := Option.map_eq_some_iff.mp step
    cases finished
  | server k =>
    obtain ⟨d, -, step⟩ := Option.bind_eq_some_iff.mp step
    split at step
    · cases step
    · cases step
      exact read finished
  | copyRequest k | copyReply k =>
    obtain ⟨d, -, rfl⟩ := Option.map_eq_some_iff.mp step
    exact read finished

/-- When the client has nothing to do and nothing is under way, nothing happens. -/
theorem udpNext_none {d : Option (List Byte)} {s : Exchanges}
    (idle : askerStep s.asker s.toServer = none) (noRequest : s.toServer = [])
    (noReply : s.toClient = []) (act : UdpAct) : udpNext d act s = none := by
  cases act with
  | client => simp [udpNext, idle]
  | clientRecv | server | copyRequest | copyReply => simp [udpNext, noRequest, noReply]

theorem stuck_of_idle (idle : askerStep s.exchanges.asker s.exchanges.toServer = none)
    (noRequest : s.exchanges.toServer = []) (noReply : s.exchanges.toClient = []) :
    Stuck (lossyRuns table text queries) s := by
  rintro act t ⟨-, step⟩
  cases act with
  | carried act =>
    have none := udpNext_none (d := some table.file) idle noRequest noReply act
    simp [ofNext, lossyNext, none] at step
  | loseRequest | loseReply => simp [ofNext, lossyNext, noRequest, noReply] at step

theorem Hung.stuck (hung : Hung table queries s) : Stuck (lossyRuns table text queries) s := by
  obtain ⟨-, ⟨q, asking⟩, noRequest, noReply⟩ := hung
  exact stuck_of_idle (by simp [askerStep, asking.waits.1]) noRequest noReply

/-- At the end of the input nothing is under way. -/
theorem Orderly.stuck (orderly : Orderly table queries (Alone table queries) s.exchanges)
    (finished : s.exchanges.asker.pc = .finished) : Stuck (lossyRuns table text queries) s := by
  obtain ⟨-, w, asking, here⟩ := orderly
  obtain ⟨⟨asker, server, toServer, toClient⟩, lost⟩ := s
  cases asking with
  | finished =>
    cases here
    exact stuck_of_idle rfl rfl rfl
  | _ => cases finished

theorem OnceLost.step {act : LossyAct} (lines : ∀ q ∈ queries, FitsWord q)
    (unmarked : Unmarked table queries) (h : OnceLost table queries s)
    (step : (lossyRuns table text queries).step act s t) : OnceLost table queries t := by
  cases h with
  | one hung => exact absurd step (hung.stuck act t)
  | none kept orderly read =>
    obtain ⟨once, step⟩ := step
    cases act with
    | carried act =>
      obtain ⟨exchanges, own, rfl⟩ := Option.map_eq_some_iff.mp step
      have orderly' := orderly.step alone_carries lines unmarked (Or.inl (once act rfl)) own
      exact .none kept orderly' (udpNext_finished read own)
    | loseRequest k =>
      obtain ⟨d, taken, rfl⟩ := Option.map_eq_some_iff.mp step
      obtain ⟨waits, single⟩ := orderly.under_way (Or.inl (List.ne_nil_of_mem
        (List.mem_of_getElem? taken)))
      have inside := (List.getElem?_eq_some_iff.mp taken).1
      refine .one ⟨congrArg Nat.succ kept, waits, ?_, ?_⟩
      · apply List.eq_nil_of_length_eq_zero
        rw [List.length_eraseIdx_of_lt inside]
        omega
      · apply List.eq_nil_of_length_eq_zero
        change s.exchanges.toClient.length = 0
        omega
    | loseReply k =>
      obtain ⟨d, taken, rfl⟩ := Option.map_eq_some_iff.mp step
      obtain ⟨waits, single⟩ := orderly.under_way (Or.inr (List.ne_nil_of_mem
        (List.mem_of_getElem? taken)))
      have inside := (List.getElem?_eq_some_iff.mp taken).1
      refine .one ⟨congrArg Nat.succ kept, waits, ?_, ?_⟩
      · apply List.eq_nil_of_length_eq_zero
        change s.exchanges.toServer.length = 0
        omega
      · apply List.eq_nil_of_length_eq_zero
        rw [List.length_eraseIdx_of_lt inside]
        omega

theorem onceLost (lines : ∀ q ∈ queries, FitsWord q) (unmarked : Unmarked table queries)
    (reach : (lossyRuns table text queries).Reachable s) : OnceLost table queries s := by
  refine reach.invariant ?_ ?_
  · rintro s rfl
    exact .none rfl (Orderly.start alone_carries text) (fun never => by cases never)
  · intro act s t h step
    exact h.step lines unmarked step

/-! ## Every run ends -/

theorem askerStep_less {c c' : Asker} {server : UdpServer Unit}
    {toServer toServer' toClient : List (Datagram Unit)} {lost : Nat}
    (step : askerStep c toServer = some (c', toServer')) :
    Lossy.left ⟨⟨c', server, toServer', toClient⟩, lost⟩ <
      Lossy.left ⟨⟨c, server, toServer, toClient⟩, lost⟩ := by
  obtain ⟨pc, tryit, stdin, asked, results⟩ := c
  cases pc with
  | gets =>
    cases stdin with
    | nil =>
      cases step
      simp [Lossy.left]
    | cons q rest =>
      obtain ⟨word, -, same⟩ := Option.map_eq_some_iff.mp step
      cases same
      simp only [Lossy.left, List.length_cons]
      omega
  | sendto =>
    cases step
    simp only [Lossy.left, List.length_append, List.length_singleton]
    omega
  | clear =>
    cases step
    simp [Lossy.left]
  | recvfrom | finished => cases step

/-- Without copies a step uses up a line, a request, an answer or a statement. -/
theorem udpNext_less {datafile : Option (List Byte)} {act : UdpAct} {s t : Exchanges} {lost : Nat}
    (once : Uncopied act s) (step : udpNext datafile act s = some t) :
    Lossy.left ⟨t, lost⟩ < Lossy.left ⟨s, lost⟩ := by
  cases act with
  | client =>
    obtain ⟨⟨c, toServer⟩, own, rfl⟩ := Option.map_eq_some_iff.mp step
    exact askerStep_less own
  | clientRecv k =>
    obtain ⟨waits, step⟩ := Option.ite_none_right_eq_some.mp step
    obtain ⟨d, taken, rfl⟩ := Option.map_eq_some_iff.mp step
    have inside := (List.getElem?_eq_some_iff.mp taken).1
    simp only [Lossy.left, waits, Asker.receive, List.length_eraseIdx_of_lt inside]
    omega
  | server k =>
    obtain ⟨d, taken, step⟩ := Option.bind_eq_some_iff.mp step
    have inside := (List.getElem?_eq_some_iff.mp taken).1
    split at step
    · cases step
    · rename_i reply server answered
      cases step
      have single : reply.toList.length ≤ 1 := by cases reply <;> simp
      simp only [Lossy.left, List.length_append, List.length_eraseIdx_of_lt inside]
      omega
  | copyRequest k => exact absurd rfl (once k).1
  | copyReply k => exact absurd rfl (once k).2

theorem lossy_less {act : LossyAct} (step : (lossyRuns table text queries).step act s t) :
    t.left < s.left := by
  obtain ⟨once, step⟩ := step
  cases act with
  | carried act =>
    obtain ⟨exchanges, own, rfl⟩ := Option.map_eq_some_iff.mp step
    exact udpNext_less (once act rfl) own
  | loseRequest k =>
    obtain ⟨d, taken, rfl⟩ := Option.map_eq_some_iff.mp step
    have inside := (List.getElem?_eq_some_iff.mp taken).1
    simp only [Lossy.left, List.length_eraseIdx_of_lt inside]
    omega
  | loseReply k =>
    obtain ⟨d, taken, rfl⟩ := Option.map_eq_some_iff.mp step
    have inside := (List.getElem?_eq_some_iff.mp taken).1
    simp only [Lossy.left, List.length_eraseIdx_of_lt inside]
    omega

theorem carried_moves {s : Exchanges} (lost : Nat) (act : UdpAct) (once : Uncopied act s)
    (step : udpNext (some table.file) act s ≠ none) :
    ∃ act t, (lossyRuns table text queries).step act ⟨s, lost⟩ t := by
  obtain ⟨t, step⟩ := Option.ne_none_iff_exists'.mp step
  refine ⟨.carried act, ⟨t, lost⟩, ?_, ?_⟩
  · rintro carried same
    cases same
    exact once
  · simp [ofNext, lossyNext, step]

theorem Orderly.moves {s : Exchanges} (lost : Nat) (lines : ∀ q ∈ queries, FitsWord q)
    (orderly : Orderly table queries (Alone table queries) s)
    (unfinished : s.asker.pc ≠ .finished) :
    ∃ act t, (lossyRuns table text queries).step act ⟨s, lost⟩ t := by
  obtain ⟨waiting, w, asking, here⟩ := orderly
  obtain ⟨asker, server, toServer, toClient⟩ := s
  cases asking with
  | @reading stdin done results order =>
    refine carried_moves lost .client (by simp [Uncopied]) ?_
    cases stdin with
    | nil => simp [udpNext, askerStep]
    | cons q stdin =>
      obtain ⟨clean, short⟩ := lines q (by simp [← order])
      obtain ⟨word, put, -⟩ := Dictrec.zero.word.put_string clean short
      simp [udpNext, askerStep, put]
  | sending | clearing =>
    exact carried_moves lost .client (by simp [Uncopied]) (by simp [udpNext, askerStep])
  | finished => exact absurd rfl unfinished
  | @waiting word stdin done q results order =>
    cases here with
    | request member =>
      obtain ⟨server', answered, -⟩ := respond_line (d := ⟨(), q⟩) waiting.1 waiting.2
        (lines q member)
      exact carried_moves lost (.server 0) (by simp [Uncopied]) (by simp [udpNext, answered])
    | answer => exact carried_moves lost (.clientRecv 0) (by simp [Uncopied]) (by simp [udpNext])

theorem Hung.concluded (hung : Hung table queries s) : Concluded table queries s := by
  obtain ⟨q, asking⟩ := hung.waits
  obtain ⟨pc, done, rest, split, answered⟩ := asking.waits
  exact .waiting pc hung.lost split answered

/-- Over a network that may lose datagrams every run comes to its end. If nothing is lost,
every word has been given its own answer; if something is, it is one datagram, and the client
waits for ever for the answer to one word, with all words before it answered. -/
theorem answered_or_waiting (lines : ∀ q ∈ queries, FitsWord q) (unmarked : Unmarked table queries)
    (reach : (lossyRuns table text queries).Reachable s) :
    Inevitable (lossyRuns table text queries)
      (fun t => Concluded table queries t ∧ Stuck (lossyRuns table text queries) t) s := by
  refine Inevitable.of_measure (fun t => OnceLost table queries t) Nat.lt_wfRel.wf Lossy.left ?_ ?_
    s (onceLost lines unmarked reach)
  · intro t h open_
    cases h with
    | one hung => exact absurd ⟨hung.concluded, hung.stuck⟩ open_
    | none kept orderly read =>
      by_cases finished : t.exchanges.asker.pc = .finished
      · refine absurd ⟨?_, ?_⟩ open_
        · obtain ⟨-, w, asking, -⟩ := orderly
          exact .answered finished kept (asking.complete finished (read finished))
        · exact orderly.stuck finished
      · exact orderly.moves t.lost lines finished
  · intro act r t h step
    exact ⟨h.step lines unmarked step, lossy_less step⟩

/-- The queries `cat` and `dog`. -/
private def catAndDog : List (List Byte) := [[99, 97, 116], [100, 111, 103]]

theorem cat_and_dog_conclude :
    Inevitable (lossyRuns exampleTable (Buffer.zero TEXT) catAndDog)
      (fun t => Concluded exampleTable catAndDog t ∧
        Stuck (lossyRuns exampleTable (Buffer.zero TEXT) catAndDog) t)
      ⟨Exchanges.initial (Buffer.zero TEXT) catAndDog, 0⟩ := by
  have lines : ∀ q ∈ catAndDog, FitsWord q := by
    simp only [FitsWord]
    decide
  refine answered_or_waiting lines ?_ (Reachable.initial rfl)
  intro q _ r found
  have marked : ∀ r ∈ exampleTable.records, r.text.str ≠ notFoundText := by decide
  exact marked r (findRecord_mem found)

end Dictionary
