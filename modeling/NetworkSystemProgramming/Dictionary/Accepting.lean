import NetworkSystemProgramming.ChildProcesses
import NetworkSystemProgramming.DescriptorTables

/-!
# The accept loop of the socket servers

The main loop of `usock_server.c` and of `isock_server.c`, which is the same, with the
descriptors of the parent and of the children. The connections are numbered as they are
accepted. What the dialogue of a child does stands elsewhere; here it ends at any time. The
parent does not wait for its children.
-/

namespace Dictionary

open StepSystems StepSystem DescriptorTables ChildProcesses

variable {E : Type}

/-- What a descriptor of the server refers to. -/
inductive Sock (E : Type) where
  | entry (e : E)
  | rendezvous
  | connection (k : Nat)
  deriving DecidableEq, Repr

inductive ListenerPc where
  | accepting
  | forking (k cd : Nat)
  | closing (k cd : Nat)
  | exited
  deriving DecidableEq, Repr

inductive DialoguePc where
  /-- Before `close (sd)`. -/
  | starting
  | dialogue
  | exited (status : Nat)
  deriving DecidableEq, Repr

structure Dialogue (E : Type) where
  pc : DialoguePc
  fds : Table (Sock E)

structure Listener (E : Type) where
  pc : ListenerPc
  sd : Nat
  fds : Table (Sock E)
  accepted : Nat
  children : Nat → Option (Dialogue E)
  family : Family Nat Nat

inductive ListenerAct where
  | accept
  | acceptFails
  | fork
  | forkFails
  | close
  | childCloses (k : Nat)
  | childEnds (k status : Nat)
  deriving DecidableEq, Repr

/-- One statement of the parent or of a child. An exit closes all descriptors. -/
def listenerNext : ListenerAct → Listener E → Option (Listener E)
  | .accept, s =>
    if s.pc = .accepting then
      let cd := lowest s.fds
      some { s with
        pc := .forking s.accepted cd
        fds := assign s.fds cd (.connection s.accepted)
        accepted := s.accepted + 1 }
    else none
  | .acceptFails, s =>
    if s.pc = .accepting then some { s with pc := .exited, fds := [] } else none
  | .fork, s =>
    match s.pc with
    | .forking k cd =>
      some { s with
        pc := .closing k cd
        children := Function.update s.children k (some ⟨.starting, s.fds⟩)
        family := s.family.fork k }
    | _ => none
  | .forkFails, s =>
    match s.pc with
    | .forking _ _ => some { s with pc := .exited, fds := [] }
    | _ => none
  | .close, s =>
    match s.pc with
    | .closing _ cd => some { s with pc := .accepting, fds := close s.fds cd }
    | _ => none
  | .childCloses k, s =>
    match s.children k with
    | some ⟨.starting, fds⟩ =>
      some { s with
        children := Function.update s.children k (some ⟨.dialogue, close fds s.sd⟩) }
    | _ => none
  | .childEnds k status, s =>
    match s.children k with
    | some ⟨.exited _, _⟩ | none => none
    | some ⟨_, _⟩ =>
      some { s with
        children := Function.update s.children k (some ⟨.exited status, []⟩)
        family := if s.pc = .exited then s.family else (s.family.ends k status).getD s.family }

/-- The table in front of the loop: what was open at entry, and the rendezvous socket. -/
def listeningTable (entries : Table E) : Table (Sock E) :=
  assign (entries.map (Option.map .entry)) (lowest (entries.map (Option.map Sock.entry)))
    .rendezvous

def Listener.initial (entries : Table E) : Listener E where
  pc := .accepting
  sd := lowest (entries.map (Option.map Sock.entry))
  fds := listeningTable entries
  accepted := 0
  children := fun _ => none
  family := .empty

def acceptLoop (entries : Table E) : StepSystem (Listener E) ListenerAct :=
  ofNext (· = Listener.initial entries) listenerNext

/-! ## The table in front of the loop -/

theorem listeningTable_sd (entries : Table E) :
    lookup (listeningTable entries) (Listener.initial entries).sd = some .rendezvous := by
  rw [listeningTable, lookup_assign, Listener.initial, Function.update_self]

theorem listeningTable_connection (entries : Table E) (k : Nat) :
    ¬ Holds (listeningTable entries) (.connection k) := by
  rintro ⟨fd, held⟩
  rw [listeningTable, lookup_assign] at held
  rcases holds_of_update ⟨fd, held⟩ with new | ⟨i, old⟩
  · cases new
  · rw [lookup_map] at old
    obtain ⟨e, -, same⟩ := Option.map_eq_some_iff.mp old
    cases same

/-- The descriptor of every connection in the parent. -/
def connectionFd (entries : Table E) : Nat := lowest (listeningTable entries)

theorem connectionFd_ne_sd (entries : Table E) :
    connectionFd entries ≠ (Listener.initial entries).sd := by
  intro same
  have free := lookup_lowest (listeningTable entries)
  rw [connectionFd] at same
  rw [same, listeningTable_sd] at free
  cases free

/-- The table with a connection, as a function of the descriptor. -/
def withConnection (entries : Table E) (k : Nat) : Nat → Option (Sock E) :=
  Function.update (lookup (listeningTable entries)) (connectionFd entries) (some (.connection k))

theorem withConnection_holds (entries : Table E) (k j : Nat) :
    (∃ fd, withConnection entries k fd = some (.connection j)) ↔ j = k := by
  constructor
  · intro held
    rcases holds_of_update held with new | old
    · cases new
      rfl
    · exact absurd old (listeningTable_connection entries j)
  · rintro rfl
    exact ⟨connectionFd entries, Function.update_self ..⟩

theorem withConnection_close (entries : Table E) (k : Nat) :
    Function.update (withConnection entries k) (connectionFd entries) none =
      lookup (listeningTable entries) := by
  rw [withConnection, Function.update_idem, Function.update_eq_self_iff]
  exact (lookup_lowest _).symm

/-- Only one descriptor refers to the rendezvous socket. -/
theorem rendezvous_only {entries : Table E} {k fd : Nat}
    (held : withConnection entries k fd = some .rendezvous) :
    fd = (Listener.initial entries).sd := by
  by_contra other
  by_cases connection : fd = connectionFd entries
  · rw [connection, withConnection, Function.update_self] at held
    cases held
  · rw [withConnection, Function.update_of_ne connection, listeningTable, lookup_assign] at held
    change Function.update _ (Listener.initial entries).sd _ fd = _ at held
    rw [Function.update_of_ne other, lookup_map] at held
    obtain ⟨e, -, same⟩ := Option.map_eq_some_iff.mp held
    cases same

/-! ## Parent and children -/

def Listener.Alive (s : Listener E) (k : Nat) : Prop :=
  ∃ child, s.children k = some child ∧ ∀ status, child.pc ≠ .exited status

def Listener.Ended (s : Listener E) (k status : Nat) : Prop :=
  ∃ child, s.children k = some child ∧ child.pc = .exited status

/-- What the parent has open, by its place in the loop. -/
def Listener.ParentFacts (entries : Table E) (s : Listener E) : ListenerPc → Prop
  | .accepting => lookup s.fds = lookup (listeningTable entries)
  | .forking k cd => k + 1 = s.accepted ∧ cd = connectionFd entries ∧
      lookup s.fds = withConnection entries k ∧ s.children k = none
  | .closing k cd => k + 1 = s.accepted ∧ cd = connectionFd entries ∧
      lookup s.fds = withConnection entries k
  | .exited => s.fds = []

def Dialogue.Facts (entries : Table E) (k : Nat) (child : Dialogue E) : Prop :=
  match child.pc with
  | .starting => lookup child.fds = withConnection entries k
  | .dialogue => lookup child.fds =
      Function.update (withConnection entries k) (Listener.initial entries).sd none
  | .exited _ => child.fds = []

structure Listener.Sound (entries : Table E) (s : Listener E) : Prop where
  sd : s.sd = (Listener.initial entries).sd
  parent : s.ParentFacts entries s.pc
  children : ∀ k child, s.children k = some child → k < s.accepted ∧ child.Facts entries k
  born : ∀ k, k < s.accepted → s.children k = none →
    (∃ cd, s.pc = .forking k cd) ∨ s.pc = .exited
  tracks : s.pc ≠ .exited → s.family.Tracks s.Alive s.Ended
  uncollected : s.pc ≠ .exited → ∀ k status, s.Ended k status → (k, status) ∈ s.family.zombies

theorem Listener.Sound.start (entries : Table E) : (Listener.initial entries).Sound entries where
  sd := rfl
  parent := rfl
  children _ _ here := by cases here
  born _ less := absurd less (Nat.not_lt_zero _)
  tracks _ := by
    refine Family.Tracks.empty ?_ ?_
    · rintro k ⟨_, ⟨⟩, -⟩
    · rintro k status ⟨_, ⟨⟩, -⟩
  uncollected _ k status := by rintro ⟨_, ⟨⟩, -⟩

section
variable {entries : Table E} {s t : Listener E} {k : Nat} {child child' : Dialogue E}

/-- A step of the parent that leaves the children and the record as they are. -/
theorem Listener.Sound.parent_moves (sound : s.Sound entries) (sd : t.sd = s.sd)
    (children : t.children = s.children) (family : t.family = s.family)
    (accepted : s.accepted ≤ t.accepted) (parent : t.ParentFacts entries t.pc)
    (stays : s.pc = .exited → t.pc = .exited)
    (born : ∀ k, k < t.accepted → s.children k = none →
      (∃ cd, t.pc = .forking k cd) ∨ t.pc = .exited) : t.Sound entries where
  sd := sd.trans sound.sd
  parent := parent
  children k child here := by
    obtain ⟨less, facts⟩ := sound.children k child (children ▸ here)
    exact ⟨Nat.lt_of_lt_of_le less accepted, facts⟩
  born k less childless := born k less (children ▸ childless)
  tracks runs := by
    rw [family]
    refine (sound.tracks fun out => runs (stays out)).congr ?_ ?_
    · intro k
      simp only [Listener.Alive, children]
    · intro k status
      simp only [Listener.Ended, children]
  uncollected runs k status := by
    have uncollected := sound.uncollected (fun out => runs (stays out)) k status
    simpa only [Listener.Ended, children, family] using uncollected

theorem Listener.alive_update (children : t.children = Function.update s.children k (some child'))
    (j : Nat) :
    t.Alive j ↔ j = k ∧ (∀ status, child'.pc ≠ .exited status) ∨ j ≠ k ∧ s.Alive j := by
  rw [Listener.Alive, children]
  by_cases same : j = k
  · subst j
    simp
  · simp [same, Listener.Alive]

theorem Listener.ended_update (children : t.children = Function.update s.children k (some child'))
    (j status : Nat) :
    t.Ended j status ↔ j = k ∧ child'.pc = .exited status ∨ j ≠ k ∧ s.Ended j status := by
  rw [Listener.Ended, children]
  by_cases same : j = k
  · subst j
    simp
  · simp [same, Listener.Ended]

/-- A step of a child: the parent stays where it is. -/
theorem Listener.Sound.child_moves (sound : s.Sound entries) (here : s.children k = some child)
    (pc : t.pc = s.pc) (sd : t.sd = s.sd) (fds : t.fds = s.fds) (accepted : t.accepted = s.accepted)
    (children : t.children = Function.update s.children k (some child'))
    (facts : child'.Facts entries k)
    (tracks : t.pc ≠ .exited → t.family.Tracks t.Alive t.Ended)
    (uncollected : t.pc ≠ .exited → ∀ j status, t.Ended j status → (j, status) ∈ t.family.zombies) :
    t.Sound entries where
  sd := sd.trans sound.sd
  parent := by
    have parent := sound.parent
    rw [pc]
    cases place : s.pc with
    | forking j cd =>
      rw [place] at parent
      obtain ⟨number, descriptor, table, childless⟩ := parent
      have ne : j ≠ k := by
        rintro rfl
        rw [here] at childless
        cases childless
      exact ⟨number.trans accepted.symm, descriptor, by rw [fds, table],
        by rw [children, Function.update_of_ne ne, childless]⟩
    | accepting | closing | exited =>
      rw [place] at parent
      simpa only [Listener.ParentFacts, fds, accepted] using parent
  children j child₀ there := by
    rw [accepted]
    rw [children] at there
    by_cases same : j = k
    · subst j
      rw [Function.update_self] at there
      cases there
      exact ⟨(sound.children _ child here).1, facts⟩
    · rw [Function.update_of_ne same] at there
      exact sound.children j child₀ there
  born j less childless := by
    rw [accepted] at less
    rw [pc]
    rw [children] at childless
    by_cases same : j = k
    · subst j
      simp at childless
    · rw [Function.update_of_ne same] at childless
      exact sound.born j less childless
  tracks := tracks
  uncollected := uncollected

theorem Listener.Sound.fork {cd : Nat} (sound : s.Sound entries) (place : s.pc = .forking k cd) :
    Listener.Sound entries { s with
      pc := .closing k cd
      children := Function.update s.children k (some ⟨.starting, s.fds⟩)
      family := s.family.fork k } := by
  have parent := sound.parent
  rw [place] at parent
  obtain ⟨number, descriptor, table, fresh⟩ := parent
  have running : s.pc ≠ .exited := by simp [place]
  have unborn : ¬ s.Alive k := by
    rintro ⟨_, here, -⟩
    rw [fresh] at here
    cases here
  have never : ∀ status, ¬ s.Ended k status := by
    rintro status ⟨_, here, -⟩
    rw [fresh] at here
    cases here
  constructor
  · exact sound.sd
  · exact ⟨number, descriptor, table⟩
  · intro j child there
    by_cases same : j = k
    · subst j
      simp only [Function.update_self, Option.some.injEq] at there
      subst there
      exact ⟨by change k < s.accepted; omega, table⟩
    · simp only [ne_eq, same, not_false_eq_true, Function.update_of_ne] at there
      exact sound.children j child there
  · intro j less childless
    by_cases same : j = k
    · subst j
      simp at childless
    · simp only [ne_eq, same, not_false_eq_true, Function.update_of_ne] at childless
      rcases sound.born j less childless with ⟨cd', forking⟩ | out
      · rw [place] at forking
        cases forking
        exact absurd rfl same
      · exact absurd out running
  · intro _
    refine ((sound.tracks running).fork unborn never).congr ?_ ?_
    · intro j
      rw [Listener.alive_update rfl]
      by_cases same : j = k
      · simp [same]
      · simp [same]
    · intro j status
      rw [Listener.ended_update rfl]
      by_cases same : j = k
      · subst j
        simp [never]
      · simp [same]
  · intro _ j status ended
    rcases (Listener.ended_update rfl j status).mp ended with ⟨rfl, ⟨⟩⟩ | ⟨-, before⟩
    exact sound.uncollected running j status before

theorem Listener.Sound.childCloses {fds : Table (Sock E)} (sound : s.Sound entries)
    (here : s.children k = some ⟨.starting, fds⟩) :
    Listener.Sound entries { s with
      children := Function.update s.children k (some ⟨.dialogue, close fds s.sd⟩) } := by
  have table : lookup fds = withConnection entries k := (sound.children k _ here).2
  have alive : s.Alive k := ⟨_, here, by rintro status ⟨⟩⟩
  refine sound.child_moves here rfl rfl rfl rfl rfl ?_ ?_ ?_
  · change lookup (close fds s.sd) = _
    rw [lookup_close, table, sound.sd]
  · intro running
    have tracks := sound.tracks running
    refine tracks.congr ?_ ?_
    · intro j
      rw [Listener.alive_update rfl]
      by_cases same : j = k
      · subst j
        simp [alive]
      · simp [same]
    · intro j status
      rw [Listener.ended_update rfl]
      by_cases same : j = k
      · subst j
        simpa using fun ended => tracks.apart _ status ended alive
      · simp [same]
  · intro running j status ended
    rcases (Listener.ended_update rfl j status).mp ended with ⟨rfl, ⟨⟩⟩ | ⟨-, before⟩
    exact sound.uncollected running j status before

theorem Listener.Sound.childEnds {status : Nat} (sound : s.Sound entries)
    (here : s.children k = some child) (runs : ∀ status, child.pc ≠ .exited status) :
    Listener.Sound entries { s with
      children := Function.update s.children k (some ⟨.exited status, []⟩)
      family := if s.pc = .exited then s.family
        else (s.family.ends k status).getD s.family } := by
  have alive : s.Alive k := ⟨child, here, runs⟩
  have recorded : s.pc ≠ .exited → ∃ g, (if s.pc = .exited then s.family
      else (s.family.ends k status).getD s.family) = g ∧
      g.zombies = s.family.zombies ++ [(k, status)] ∧
      g.Tracks (fun q => s.Alive q ∧ q ≠ k) (fun q st => s.Ended q st ∨ q = k ∧ st = status) := by
    intro running
    obtain ⟨g, ended, zombies, tracks⟩ := (sound.tracks running).ends alive status
    exact ⟨g, by rw [if_neg running, ended, Option.getD_some], zombies, tracks⟩
  refine sound.child_moves here rfl rfl rfl rfl rfl rfl ?_ ?_
  · intro running
    obtain ⟨g, same, -, tracks⟩ := recorded running
    simp only [same]
    refine tracks.congr ?_ ?_
    · intro j
      rw [Listener.alive_update rfl]
      simp [and_comm]
    · intro j st
      rw [Listener.ended_update rfl]
      by_cases same : j = k
      · subst j
        have never : ¬ s.Ended _ st :=
          fun ended => (sound.tracks running).apart _ st ended alive
        simp [never, eq_comm]
      · simp [same]
  · intro running j st ended
    obtain ⟨g, same, zombies, -⟩ := recorded running
    simp only [same, zombies, List.mem_append, List.mem_singleton, Prod.mk.injEq]
    rcases (Listener.ended_update rfl j st).mp ended with ⟨rfl, last⟩ | ⟨-, before⟩
    · exact Or.inr ⟨rfl, (DialoguePc.exited.inj last).symm⟩
    · exact Or.inl (sound.uncollected running j st before)

theorem Listener.Sound.step {act : ListenerAct} (sound : s.Sound entries)
    (step : listenerNext act s = some t) : t.Sound entries := by
  have parent := sound.parent
  cases act with
  | accept =>
    obtain ⟨place, same⟩ := Option.ite_none_right_eq_some.mp step
    rw [place] at parent
    cases same
    have descriptor : lowest s.fds = connectionFd entries := lowest_congr parent
    have unborn : s.children s.accepted = none := by
      cases here : s.children s.accepted with
      | none => rfl
      | some child => exact absurd (sound.children _ child here).1 (Nat.lt_irrefl _)
    refine sound.parent_moves rfl rfl rfl (Nat.le_succ _) ⟨rfl, descriptor, ?_, unborn⟩
      (fun out => by rw [place] at out; cases out) ?_
    · change lookup (assign s.fds (lowest s.fds) _) = _
      rw [lookup_assign, descriptor, parent, withConnection]
    · intro j less childless
      rcases Nat.lt_succ_iff_lt_or_eq.mp less with before | rfl
      · rcases sound.born j before childless with ⟨cd, forking⟩ | out
        · rw [place] at forking
          cases forking
        · rw [place] at out
          cases out
      · exact Or.inl ⟨_, rfl⟩
  | acceptFails =>
    obtain ⟨place, same⟩ := Option.ite_none_right_eq_some.mp step
    cases same
    exact sound.parent_moves rfl rfl rfl (Nat.le_refl _) rfl (fun _ => rfl)
      fun _ _ _ => Or.inr rfl
  | fork =>
    simp only [listenerNext] at step
    split at step
    · rename_i k cd place
      cases step
      exact sound.fork place
    · cases step
  | forkFails =>
    simp only [listenerNext] at step
    split at step
    · cases step
      exact sound.parent_moves rfl rfl rfl (Nat.le_refl _) rfl (fun _ => rfl)
        fun _ _ _ => Or.inr rfl
    · cases step
  | close =>
    simp only [listenerNext] at step
    split at step
    · rename_i k cd place
      cases step
      rw [place] at parent
      obtain ⟨number, descriptor, table⟩ := parent
      refine sound.parent_moves rfl rfl rfl (Nat.le_refl _) ?_
        (fun out => by rw [place] at out; cases out) ?_
      · change lookup (close s.fds cd) = _
        rw [lookup_close, table, descriptor, withConnection_close]
      · intro j less childless
        rcases sound.born j less childless with ⟨cd', forking⟩ | out
        · rw [place] at forking
          cases forking
        · rw [place] at out
          cases out
    · cases step
  | childCloses k =>
    simp only [listenerNext] at step
    split at step
    · rename_i fds here
      cases step
      exact sound.childCloses here
    · cases step
  | childEnds k status =>
    simp only [listenerNext] at step
    split at step
    · cases step
    · cases step
    · rename_i pc fds notExited here
      cases step
      exact sound.childEnds here notExited

end

theorem reachable_sound {entries : Table E} {s : Listener E}
    (reach : (acceptLoop entries).Reachable s) : s.Sound entries := by
  refine reach.invariant ?_ ?_
  · rintro r rfl
    exact .start entries
  · intro act r t sound step
    exact sound.step step

/-! ## Who holds a connection -/

/-- At every `accept` the parent has open what it had at the first one. Each connection is
open in its own child until that exits, in the parent until `close(cd)`, and nowhere
else. -/
theorem connection_held_by_own_child {entries : Table E} {s : Listener E}
    (reach : (acceptLoop entries).Reachable s) :
    (s.pc = .accepting → lookup s.fds = lookup (listeningTable entries)) ∧
    (∀ k, Holds s.fds (.connection k) ↔ ∃ cd, s.pc = .forking k cd ∨ s.pc = .closing k cd) ∧
    (∀ j child, s.children j = some child →
      (∀ k, Holds child.fds (.connection k) ↔ k = j ∧ ∀ status, child.pc ≠ .exited status) ∧
      (child.pc = .dialogue → ¬ Holds child.fds .rendezvous)) := by
  have sound := reachable_sound reach
  have parent := sound.parent
  refine ⟨?_, ?_, ?_⟩
  · intro place
    rwa [place] at parent
  · intro k
    cases place : s.pc with
    | accepting =>
      rw [place] at parent
      rw [Holds, parent]
      exact iff_of_false (listeningTable_connection entries k) (by simp)
    | forking j cd =>
      rw [place] at parent
      rw [Holds, parent.2.2.1, withConnection_holds]
      simp [eq_comm]
    | closing j cd =>
      rw [place] at parent
      rw [Holds, parent.2.2, withConnection_holds]
      simp [eq_comm]
    | exited =>
      rw [place] at parent
      have closed : s.fds = [] := parent
      simp [Holds, closed, lookup]
  · intro j child here
    have facts := (sound.children j child here).2
    rw [Dialogue.Facts] at facts
    cases place : child.pc with
    | starting =>
      rw [place] at facts
      refine ⟨fun k => ?_, by rintro ⟨⟩⟩
      rw [Holds, facts, withConnection_holds]
      simp
    | dialogue =>
      rw [place] at facts
      simp only [] at facts
      refine ⟨fun k => ?_, fun _ => ?_⟩
      · rw [Holds, facts]
        constructor
        · intro held
          rcases holds_of_update held with new | old
          · cases new
          · exact ⟨(withConnection_holds entries j k).mp old, by simp⟩
        · rintro ⟨rfl, -⟩
          refine ⟨connectionFd entries, ?_⟩
          rw [Function.update_of_ne (connectionFd_ne_sd entries), withConnection,
            Function.update_self]
      · rintro ⟨fd, held⟩
        rw [facts] at held
        by_cases same : fd = (Listener.initial entries).sd
        · rw [same, Function.update_self] at held
          cases held
        · rw [Function.update_of_ne same] at held
          exact same (rendezvous_only held)
    | exited status =>
      rw [place] at facts
      have closed : child.fds = [] := facts
      simp [Holds, closed, lookup]

/-- Two clients come, and the first child exits with status 1. -/
def twoConnections : List ListenerAct :=
  [.accept, .fork, .childCloses 0, .close, .childEnds 0 1, .accept, .fork]

theorem second_connection_open_twice :
    ∃ s : Listener String, s.pc = .closing 1 4 ∧
      (∃ cd, s.pc = .forking 1 cd ∨ s.pc = .closing 1 cd) ∧ Holds s.fds (.connection 1) := by
  have run : ∃ s, follow listenerNext twoConnections
      (Listener.initial [some "in", some "out", some "err"]) = some s ∧ s.pc = .closing 1 4 :=
    ⟨_, rfl, rfl⟩
  obtain ⟨s, run, place⟩ := run
  have reach : (acceptLoop [some "in", some "out", some "err"]).Reachable s :=
    (Reachable.initial rfl).run (follow_run run)
  have held : ∃ cd, s.pc = .forking 1 cd ∨ s.pc = .closing 1 cd := ⟨4, Or.inr place⟩
  exact ⟨s, place, held, ((connection_held_by_own_child reach).2.1 1).mpr held⟩

/-- The children forked so far. -/
def Listener.forked (s : Listener E) : Nat :=
  match s.pc with
  | .forking _ _ => s.accepted - 1
  | _ => s.accepted

/-- As long as the server runs, the kernel keeps an entry for every child that it has ever
forked: those that have ended stay zombies with their status. -/
theorem children_never_collected {entries : Table E} {s : Listener E}
    (reach : (acceptLoop entries).Reachable s) (running : s.pc ≠ .exited) :
    s.family.pids.Perm (List.range s.forked) ∧
    (∀ k, k ∈ s.family.running ↔ s.Alive k) ∧
    (∀ k status, (k, status) ∈ s.family.zombies ↔ s.Ended k status) := by
  have sound := reachable_sound reach
  have tracks := sound.tracks running
  have zombies : ∀ k status, (k, status) ∈ s.family.zombies ↔ s.Ended k status :=
    fun k status => ⟨tracks.ended k status, sound.uncollected running k status⟩
  refine ⟨?_, tracks.running, zombies⟩
  rw [List.perm_ext_iff_of_nodup tracks.distinct List.nodup_range]
  intro k
  have member : k ∈ s.family.pids ↔ s.children k ≠ none := by
    rw [Family.pids, List.mem_append, tracks.running]
    constructor
    · rintro (⟨_, here, -⟩ | ended)
      · simp [here]
      · obtain ⟨⟨_, status⟩, among, rfl⟩ := List.mem_map.mp ended
        obtain ⟨_, here, -⟩ := (zombies _ status).mp among
        simp [here]
    · intro born
      obtain ⟨child, here⟩ := Option.ne_none_iff_exists'.mp born
      cases place : child.pc with
      | starting => exact Or.inl ⟨child, here, by simp [place]⟩
      | dialogue => exact Or.inl ⟨child, here, by simp [place]⟩
      | exited status =>
        have zombie := (zombies k status).mpr ⟨child, here, place⟩
        exact Or.inr (List.mem_map.mpr ⟨(k, status), zombie, rfl⟩)
  rw [member, List.mem_range, Listener.forked]
  have parent := sound.parent
  constructor
  · intro born
    obtain ⟨child, here⟩ := Option.ne_none_iff_exists'.mp born
    have less := (sound.children k child here).1
    split
    · rename_i j cd place
      rw [place] at parent
      obtain ⟨number, -, -, fresh⟩ := parent
      have ne : k ≠ j := by
        rintro rfl
        exact born fresh
      omega
    · exact less
  · intro less childless
    split at less
    · rename_i j cd place
      rcases sound.born k (by omega) childless with ⟨cd', forking⟩ | out
      · rw [place] at forking parent
        cases forking
        have number := parent.1
        omega
      · exact running out
    · rename_i other
      rcases sound.born k less childless with ⟨cd', forking⟩ | out
      · exact other _ _ forking
      · exact running out

theorem first_child_stays_zombie :
    ∃ s : Listener String, s.family = ⟨[1], [(0, 1)], true⟩ ∧
      s.family.pids.Perm (List.range s.forked) := by
  have run : ∃ s, follow listenerNext twoConnections
      (Listener.initial [some "in", some "out", some "err"]) = some s ∧ s.pc = .closing 1 4 ∧
      s.family = ⟨[1], [(0, 1)], true⟩ :=
    ⟨_, rfl, rfl, rfl⟩
  obtain ⟨s, run, place, family⟩ := run
  have reach : (acceptLoop [some "in", some "out", some "err"]).Reachable s :=
    (Reachable.initial rfl).run (follow_run run)
  exact ⟨s, family, (children_never_collected reach (by simp [place])).1⟩

end Dictionary
