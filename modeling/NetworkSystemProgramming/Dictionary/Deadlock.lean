import NetworkSystemProgramming.Dictionary.Segmentation

/-!
# Client and child waiting for each other

The client waits for a reply to whatever it sent, and a send of no bytes delivers
nothing. While no send is empty the client is owed something, however the stream splits
the messages.
-/

namespace Dictionary

open ByteBuffers StepSystems StepSystem

/-- The client is blocked in the `recv` of `lookup`, the child in the one of its loop, and
nothing is under way. -/
def Deadlocked (c : Connection) : Prop :=
  c.client.pc = .recv ∧ (∃ child, c.child = some child ∧ child.pc = .recv) ∧
    c.toServer.flatten = [] ∧ c.toClient.flatten = []

/-- No `send` is for zero bytes. -/
def NonemptySend (act : Act) (c : Connection) : Prop :=
  match act with
  | .client => c.client.pc = .send → c.client.tryit.word.str ≠ []
  | .server => ∀ child ∈ c.child, child.pc = .send → child.tryit.text.str ≠ []
  | _ => True

instance (act : Act) (c : Connection) : Decidable (NonemptySend act c) := by
  unfold NonemptySend
  split <;> infer_instance

/-- The child has a request at hand, or has ended so that the client's `recv` returns. -/
def Busy (child : Child) : Prop := child.pc = .lookup ∨ child.pc = .send ∨ child.pc = .exited

/-- A client that waits is owed something. -/
def Owed (c : Connection) : Prop :=
  c.client.pc = .recv → c.toServer.flatten ≠ [] ∨ c.toClient.flatten ≠ [] ∨
    ∃ child, c.child = some child ∧ Busy child

section
variable {resource : Option (List Byte)} {serverTryit : Dictrec} {queries : List (List Byte)}

theorem Owed.not_deadlocked {c : Connection} (owed : Owed c) : ¬ Deadlocked c := by
  rintro ⟨waits, ⟨child, here, pc⟩, toServer, toClient⟩
  rcases owed waits with underway | underway | ⟨busy, runs, lookup | send | exited⟩
  · exact underway toServer
  · exact underway toClient
  all_goals
    obtain rfl : child = busy := Option.some.inj (here.symm.trans runs)
    simp_all

theorem deliver_flatten (channel : List (List Byte)) (block : List Byte) :
    (deliver channel block).flatten = channel.flatten ++ block := by
  rw [deliver]
  split
  · rename_i empty
    rw [empty, List.append_nil]
  · simp

/-- Only its `send` takes the client to its `recv`. -/
theorem clientStep_waits {c c' : Client} {toServer toServer' : List (List Byte)}
    (h : clientStep c toServer = some (c', toServer')) (waits : c'.pc = .recv) :
    c.pc = .send ∧ toServer' = deliver toServer c.tryit.word.str := by
  cases pc : c.pc with
  | send =>
    simp only [clientStep, pc, Option.some.injEq, Prod.mk.injEq] at h
    exact ⟨rfl, h.2.symm⟩
  | gets =>
    simp only [clientStep, pc] at h
    split at h
    · cases h
      cases waits
    · obtain ⟨word, -, same⟩ := Option.map_eq_some_iff.mp h
      cases same
      revert waits
      cases c.firstTime <;> exact fun waits => by cases waits
  | recv | finished => simp [clientStep, pc] at h
  | connect | compare | clear =>
    simp only [clientStep, pc, Option.some.injEq, Prod.mk.injEq] at h
    obtain ⟨rfl, -⟩ := h
    cases waits

theorem lookup5_status {statics statics' : Lookup5} {sought found : Dictrec} {status : Int}
    (h : lookup5 statics resource sought = .ok (status, found, statics')) :
    status = FOUND ∨ status = NOTFOUND := by
  simp only [lookup5] at h
  split at h
  · cases h
  · split at h
    · cases h
    · split at h
      · cases h
        exact Or.inl rfl
      · cases h
    · cases h
      exact Or.inr rfl

theorem answer_busy {child child' : Child} {status : Int}
    (produced : status = FOUND ∨ status = NOTFOUND) (h : answer child status = some child') :
    child'.pc = .send := by
  rcases produced with rfl | rfl
  · cases h
    rfl
  · have other : NOTFOUND ≠ FOUND := by decide
    simp only [answer, other, if_false, if_true, Option.map_eq_some_iff] at h
    obtain ⟨text, -, rfl⟩ := h
    rfl

/-- A busy child stays busy until it sends. -/
theorem childStep_busy {child child' : Child} {toClient toClient' : List (List Byte)}
    (busy : Busy child) (h : childStep resource child toClient = some (child', toClient')) :
    Busy child' ∨ child.pc = .send ∧ toClient' = deliver toClient child.tryit.text.str := by
  rcases busy with pc | pc | pc
  · left
    simp only [childStep, pc] at h
    split at h
    · rename_i called
      obtain ⟨_, answered, same⟩ := Option.map_eq_some_iff.mp h
      cases same
      exact Or.inr (Or.inl (answer_busy (lookup5_status called) answered))
    · cases h
      exact Or.inr (Or.inr rfl)
    · cases h
  · simp only [childStep, pc, Option.some.injEq, Prod.mk.injEq] at h
    exact Or.inr ⟨pc, h.2.symm⟩
  · simp [childStep, pc] at h

/-- A statement of the child takes nothing off the stream to the client. -/
theorem childStep_keeps {child child' : Child} {toClient toClient' : List (List Byte)}
    (h : childStep resource child toClient = some (child', toClient'))
    (underway : toClient.flatten ≠ []) : toClient'.flatten ≠ [] := by
  simp only [childStep] at h
  split at h
  · cases h
  · split at h
    · obtain ⟨_, -, same⟩ := Option.map_eq_some_iff.mp h
      cases same
      exact underway
    · cases h
      exact underway
    · cases h
  · cases h
    rw [deliver_flatten]
    simp [underway]
  · cases h
    exact underway
  · cases h

/-- Step lemma: a send that is not empty leaves the client owed something. -/
theorem Owed.step {c c' : Connection} {act : Act} (owed : Owed c) (nonempty : NonemptySend act c)
    (h : next resource serverTryit act c = some c') : Owed c' := by
  obtain ⟨client, child, toServer, toClient⟩ := c
  cases next_move h with
  | client client' toServer' step =>
    intro waits
    obtain ⟨sends, rfl⟩ := clientStep_waits step waits
    left
    rw [deliver_flatten]
    simp [nonempty sends]
  | clientRecv | clientSigpipe => exact fun waits => by cases waits
  | accept fresh =>
    obtain rfl : child = none := fresh
    intro waits
    rcases owed waits with underway | underway | ⟨_, ⟨⟩, -⟩
    · exact Or.inl underway
    · exact Or.inr (Or.inl underway)
  | server child child' toClient' runs step =>
    cases runs
    intro waits
    rcases owed waits with underway | underway | ⟨_, ⟨⟩, busy⟩
    · exact Or.inl underway
    · exact Or.inr (Or.inl (childStep_keeps step underway))
    · rcases childStep_busy busy step with busy' | ⟨sends, rfl⟩
      · exact Or.inr (Or.inr ⟨child', rfl, busy'⟩)
      · right; left
        rw [deliver_flatten]
        simp [nonempty child rfl sends]
  | serverRecv => exact fun _ => Or.inr (Or.inr ⟨_, rfl, Or.inl rfl⟩)
  | serverSigpipe => exact fun _ => Or.inr (Or.inr ⟨_, rfl, Or.inr (Or.inr rfl)⟩)

/-- Without an empty send the two sides never wait for each other, whatever the file holds
and however the stream splits the messages. -/
theorem nonempty_sends_no_deadlock (resource : Option (List Byte)) (serverTryit : Dictrec)
    (queries : List (List Byte)) {c : Connection}
    (reach : ((dialogue resource Dictrec.zero serverTryit queries).restrict
      NonemptySend).Reachable c) : ¬ Deadlocked c := by
  have owed : Owed c := by
    refine reach.invariant (I := Owed) ?_ ?_
    · rintro c rfl waits
      cases waits
    · rintro act c c' owed ⟨nonempty, h⟩
      exact owed.step nonempty h
  exact owed.not_deadlocked

end

section
variable {records : List Dictrec} {queries : List (List Byte)} {serverTryit : Dictrec}

/-- What either side has ready to send is not empty. -/
structure Speaks (records : List Dictrec) (queries : List (List Byte)) (c : Connection) :
    Prop where
  stdin : ∀ q ∈ c.client.stdin, q ∈ queries
  word : c.client.pc = .connect ∨ c.client.pc = .send → c.client.tryit.word.str ≠ []
  statics : ∀ child ∈ c.child, child.statics.Ready (outFile records)
  text : ∀ child ∈ c.child, child.pc = .send → child.tryit.text.str ≠ []

theorem Speaks.nonemptySend {c : Connection} (speaks : Speaks records queries c) (act : Act) :
    NonemptySend act c := by
  cases act with
  | client => exact fun sends => speaks.word (Or.inr sends)
  | server => exact speaks.text
  | _ => trivial

theorem put_str {n : Nat} {b b' : Buffer n} {q : List Byte} (h : b.put (q ++ [0]) = some b') :
    b'.str = cstr q := by
  simp only [Buffer.put] at h
  split at h
  · cases h
    simp only [Buffer.str, overwrite, List.append_assoc]
    exact cstr_append_nul q _
  · cases h

theorem Speaks.client {c c' : Client} {child : Option Child}
    {toServer toServer' toClient : List (List Byte)} (words : ∀ q ∈ queries, cstr q ≠ [])
    (speaks : Speaks records queries ⟨c, child, toServer, toClient⟩)
    (h : clientStep c toServer = some (c', toServer')) :
    Speaks records queries ⟨c', child, toServer', toClient⟩ := by
  obtain ⟨stdin, word, statics, text⟩ := speaks
  cases pc : c.pc with
  | gets =>
    simp only [clientStep, pc] at h
    split at h
    · cases h
      exact ⟨stdin, by simp, statics, text⟩
    · rename_i q rest lines
      obtain ⟨buffer, put, same⟩ := Option.map_eq_some_iff.mp h
      cases same
      refine ⟨fun l member => stdin l (by simp [lines, member]), fun _ => ?_, statics, text⟩
      change buffer.str ≠ []
      rw [put_str put]
      exact words q (stdin q (by simp [lines]))
  | connect =>
    simp only [clientStep, pc, Option.some.injEq, Prod.mk.injEq] at h
    obtain ⟨rfl, rfl⟩ := h
    exact ⟨stdin, fun _ => word (Or.inl pc), statics, text⟩
  | recv | finished => simp [clientStep, pc] at h
  | send | compare | clear =>
    simp only [clientStep, pc, Option.some.injEq, Prod.mk.injEq] at h
    obtain ⟨rfl, -⟩ := h
    exact ⟨stdin, by simp, statics, text⟩

/-- The lookup prepares a text of the table or the marker. -/
theorem Speaks.server {c : Client} {child child' : Child}
    {toServer toClient toClient' : List (List Byte)}
    (readable : Readable records) (texts : ∀ r ∈ records, r.text.str ≠ [])
    (speaks : Speaks records queries ⟨c, some child, toServer, toClient⟩)
    (h : childStep (some (outFile records)) child toClient = some (child', toClient')) :
    Speaks records queries ⟨c, some child', toServer, toClient'⟩ := by
  obtain ⟨stdin, word, statics, text⟩ := speaks
  have ready := statics child rfl
  obtain ⟨pc, tryit, st⟩ := child
  cases pc with
  | lookup =>
    obtain ⟨tryit', st', call, ready', same⟩ := lookup_answers readable rfl ready toClient
    rw [call] at h
    cases h
    refine ⟨stdin, word, by rintro _ ⟨⟩; exact ready', ?_⟩
    rintro _ ⟨⟩ -
    change tryit'.text.str ≠ []
    rw [same, reply]
    cases search : findRecord records tryit.word.str with
    | none => decide
    | some r => exact texts r (findRecord_mem search)
  | recv | exited => cases h
  | send | clear =>
    cases h
    exact ⟨stdin, word, by rintro _ ⟨⟩; exact ready, by rintro _ ⟨⟩ sends; cases sends⟩

theorem Speaks.step {c c' : Connection} {act : Act}
    (readable : Readable records) (texts : ∀ r ∈ records, r.text.str ≠ [])
    (words : ∀ q ∈ queries, cstr q ≠ []) (speaks : Speaks records queries c)
    (h : next (some (outFile records)) serverTryit act c = some c') :
    Speaks records queries c' := by
  obtain ⟨client, child, toServer, toClient⟩ := c
  cases next_move h with
  | client client' toServer' step => exact speaks.client words step
  | server child child' toClient' runs step =>
    cases runs
    exact speaks.server readable texts step
  | clientRecv | clientSigpipe => exact ⟨speaks.stdin, by simp, speaks.statics, speaks.text⟩
  | accept =>
    refine ⟨speaks.stdin, speaks.word, ?_, ?_⟩
    · rintro _ ⟨⟩
      exact Lookup5.initial_ready _
    · rintro _ ⟨⟩ sends
      cases sends
  | serverRecv count child block rest runs | serverSigpipe child runs =>
    cases runs
    refine ⟨speaks.stdin, speaks.word, ?_, ?_⟩
    · rintro _ ⟨⟩
      exact speaks.statics child rfl
    · rintro _ ⟨⟩ sends
      cases sends

/-- With a table whose texts are not empty, words that are not empty never lead to a
deadlock. -/
theorem nonempty_words_no_deadlock (readable : Readable records)
    (texts : ∀ r ∈ records, r.text.str ≠ []) (words : ∀ q ∈ queries, cstr q ≠ [])
    {c : Connection} (reach : (recordDialogue records serverTryit queries).Reachable c) :
    ¬ Deadlocked c := by
  have speaks : Speaks records queries c ∧ Owed c := by
    refine reach.invariant (I := fun c => Speaks records queries c ∧ Owed c) ?_ ?_
    · rintro c rfl
      refine ⟨⟨fun q member => member, by simp [Connection.initial], ?_, ?_⟩, ?_⟩
      · rintro _ ⟨⟩
      · rintro _ ⟨⟩
      · rintro ⟨⟩
    · rintro act c c' ⟨speaks, owed⟩ h
      exact ⟨speaks.step readable texts words h, owed.step (speaks.nonemptySend act) h⟩
  exact speaks.2.not_deadlocked

end

/-- The client has sent "cat" and both sides wait, but the word is under way. -/
theorem word_under_way_no_deadlock :
    ∃ c : Connection, c.client.pc = .recv ∧ c.child.map Child.pc = some .recv ∧
      ¬ Deadlocked c := by
  have run : (follow (guarded NonemptySend (next none Dictrec.zero))
      [.client, .client, .client, .accept]
      (Connection.initial Dictrec.zero [[99, 97, 116]])).map
        (fun c => (c.client.pc, c.child.map Child.pc)) = some (.recv, some .recv) := by
    decide +kernel
  obtain ⟨c, followed, pcs⟩ := Option.map_eq_some_iff.mp run
  have start : ((dialogue none Dictrec.zero Dictrec.zero [[99, 97, 116]]).restrict
      NonemptySend).Reachable (Connection.initial Dictrec.zero [[99, 97, 116]]) :=
    Reachable.initial rfl
  exact ⟨c, congrArg Prod.fst pcs, congrArg Prod.snd pcs,
    nonempty_sends_no_deadlock none Dictrec.zero _ (start.run (follow_guarded_run followed))⟩

/-- An empty line is asked for. -/
theorem empty_word_deadlocks :
    ¬ ∀ (resource : Option (List Byte)) (serverTryit : Dictrec) (queries : List (List Byte)),
      serverTryit = Dictrec.zero → (∀ q ∈ queries, q.length < WORD) →
      ∀ c, (dialogue resource Dictrec.zero serverTryit queries).Reachable c → ¬ Deadlocked c := by
  intro claim
  have run : (follow (next none Dictrec.zero) [.client, .client, .client, .accept]
      (Connection.initial Dictrec.zero [[]])).map
        (fun c => (c.client.pc, c.child.map Child.pc, c.toServer, c.toClient)) =
          some (.recv, some .recv, [], []) := by
    decide +kernel
  obtain ⟨c, followed, facts⟩ := Option.map_eq_some_iff.mp run
  simp only [Prod.mk.injEq, Option.map_eq_some_iff] at facts
  obtain ⟨waits, ⟨child, here, pc⟩, toServer, toClient⟩ := facts
  have start : (dialogue none Dictrec.zero Dictrec.zero [[]]).Reachable
      (Connection.initial Dictrec.zero [[]]) := Reachable.initial rfl
  refine claim none Dictrec.zero [[]] rfl (by decide) c (start.run (follow_run followed)) ?_
  exact ⟨waits, ⟨child, here, pc⟩, by rw [toServer]; rfl, by rw [toClient]; rfl⟩

end Dictionary
