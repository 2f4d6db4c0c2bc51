import NetworkSystemProgramming.StepSystems

/-!
# Child processes

The children of one process as the kernel keeps them: those that run, those that have
ended and wait to be collected with their status, and whether a SIGCHLD is pending. One
signal at most is pending, however many children have ended.
-/

namespace ChildProcesses

open StepSystems StepSystem

variable {P S : Type}

structure Family (P S : Type) where
  running : List P
  zombies : List (P × S)
  sigchld : Bool

def Family.empty : Family P S := ⟨[], [], false⟩

def Family.fork (f : Family P S) (p : P) : Family P S := { f with running := f.running ++ [p] }

def Family.ends [DecidableEq P] (f : Family P S) (p : P) (status : S) : Option (Family P S) :=
  if p ∈ f.running then some ⟨f.running.erase p, f.zombies ++ [(p, status)], true⟩ else none

/-- The results of `waitpid`: a child with its status, 0, or -1 when there is no child. -/
inductive Waited (P S : Type) where
  | child (p : P) (status : S)
  | nobody
  | echild
  deriving DecidableEq, Repr

/-- `waitpid(-1, &status, WNOHANG)`. The kernel picks one of the children that have
ended. -/
def Family.waitAny (f : Family P S) (pick : Nat) : Option (Waited P S × Family P S) :=
  match f.zombies with
  | [] => some (if f.running = [] then .echild else .nobody, f)
  | z :: zs =>
    (z :: zs)[pick]?.map fun ended =>
      (.child ended.1 ended.2, { f with zombies := (z :: zs).eraseIdx pick })

/-- `waitpid(p, &status, WNOHANG)`; the blocking call waits while this returns 0. -/
def Family.waitFor [DecidableEq P] (f : Family P S) (p : P) : Waited P S × Family P S :=
  match f.zombies.find? (·.1 = p) with
  | some ended => (.child p ended.2, { f with zombies := f.zombies.eraseP (·.1 = p) })
  | none => (if p ∈ f.running then .nobody else .echild, f)

/-- All children that have not been collected. -/
def Family.pids (f : Family P S) : List P := f.running ++ f.zombies.map Prod.fst

/-- `waitAny` collects one child exactly when one has ended. -/
theorem waitAny_cases {f g : Family P S} {pick : Nat} {result : Waited P S}
    (h : f.waitAny pick = some (result, g)) :
    (f.zombies = [] ∧ g = f ∧ (result = .echild ∧ f.running = [] ∨
      result = .nobody ∧ f.running ≠ [])) ∨
    ∃ p status, f.zombies[pick]? = some (p, status) ∧ result = .child p status ∧
      g = { f with zombies := f.zombies.eraseIdx pick } := by
  unfold Family.waitAny at h
  split at h
  · rename_i none_ended
    left
    cases h
    refine ⟨none_ended, rfl, ?_⟩
    by_cases childless : f.running = []
    · exact Or.inl ⟨if_pos childless, childless⟩
    · exact Or.inr ⟨if_neg childless, childless⟩
  · rename_i z zs some_ended
    right
    obtain ⟨⟨p, status⟩, picked, same⟩ := Option.map_eq_some_iff.mp h
    cases same
    exact ⟨p, status, by rw [some_ended]; exact picked, rfl, by rw [some_ended]⟩

/-- The call returns as long as the kernel has a child to pick. -/
theorem waitAny_moves (f : Family P S) : ∃ pick result g, f.waitAny pick = some (result, g) := by
  refine ⟨0, ?_⟩
  cases ended : f.zombies with
  | nil => exact ⟨_, _, by rw [Family.waitAny, ended]⟩
  | cons z zs => exact ⟨_, _, by rw [Family.waitAny, ended]; rfl⟩

section
variable [DecidableEq P]

theorem ends_cases {f g : Family P S} {p : P} {status : S} (h : f.ends p status = some g) :
    p ∈ f.running ∧ g = ⟨f.running.erase p, f.zombies ++ [(p, status)], true⟩ := by
  obtain ⟨runs, same⟩ := Option.ite_none_right_eq_some.mp h
  exact ⟨runs, (Option.some.inj same).symm⟩

/-- A child of distinct children is collected, or runs, or is unknown. -/
theorem waitFor_cases (f : Family P S) (p : P) :
    (∃ status, (p, status) ∈ f.zombies ∧
      f.waitFor p = (.child p status, { f with zombies := f.zombies.eraseP (·.1 = p) })) ∨
    (∀ status, (p, status) ∉ f.zombies) ∧
      f.waitFor p = (if p ∈ f.running then .nobody else .echild, f) := by
  cases found : f.zombies.find? (·.1 = p) with
  | some ended =>
    obtain ⟨q, status⟩ := ended
    have same : q = p := by simpa using List.find?_some found
    subst same
    exact Or.inl ⟨status, List.mem_of_find?_eq_some found, by simp only [Family.waitFor, found]⟩
  | none =>
    refine Or.inr ⟨?_, by simp only [Family.waitFor, found]⟩
    intro status member
    have differs := List.find?_eq_none.mp found _ member
    simp at differs

end

/-! ## What is known of the children -/

/-- The kernel's record beside what is known of the children: which of them are alive, and
with which status the others have ended. -/
structure Family.Tracks (f : Family P S) (alive : P → Prop) (left : P → S → Prop) : Prop where
  running : ∀ p, p ∈ f.running ↔ alive p
  ended : ∀ p status, (p, status) ∈ f.zombies → left p status
  apart : ∀ p status, left p status → ¬ alive p
  distinct : f.pids.Nodup

section
variable {f g : Family P S} {alive alive' : P → Prop} {left left' : P → S → Prop}

theorem Family.Tracks.empty (nobody : ∀ p, ¬ alive p) (never : ∀ p status, ¬ left p status) :
    (Family.empty : Family P S).Tracks alive left where
  running p := iff_of_false List.not_mem_nil (nobody p)
  ended _ _ member := absurd member List.not_mem_nil
  apart p status ended := absurd ended (never p status)
  distinct := List.nodup_nil

theorem Family.Tracks.congr (tracks : f.Tracks alive left) (runs : ∀ p, alive' p ↔ alive p)
    (ends : ∀ p status, left' p status ↔ left p status) : f.Tracks alive' left' where
  running p := (tracks.running p).trans (runs p).symm
  ended p status member := (ends p status).mpr (tracks.ended p status member)
  apart p status ended := by
    rw [runs]
    exact tracks.apart p status ((ends p status).mp ended)
  distinct := tracks.distinct

theorem Family.Tracks.fork (tracks : f.Tracks alive left) {p : P} (fresh : ¬ alive p)
    (never : ∀ status, ¬ left p status) :
    (f.fork p).Tracks (fun q => alive q ∨ q = p) left where
  running q := by
    rw [Family.fork, List.mem_append, tracks.running, List.mem_singleton]
  ended := tracks.ended
  apart q status ended := by
    rintro (runs | rfl)
    · exact tracks.apart q status ended runs
    · exact never status ended
  distinct := by
    have unknown : p ∉ f.pids := by
      intro member
      rcases List.mem_append.mp member with runs | ended
      · exact fresh ((tracks.running p).mp runs)
      · obtain ⟨⟨q, status⟩, among, rfl⟩ := List.mem_map.mp ended
        exact never status (tracks.ended q status among)
    have moved : (f.fork p).pids.Perm (p :: f.pids) := by
      simp only [Family.pids, Family.fork, List.append_assoc, List.singleton_append]
      exact List.perm_middle
    exact moved.nodup_iff.mpr (List.nodup_cons.mpr ⟨unknown, tracks.distinct⟩)

/-- A child that is alive can end, and is then found with its status. -/
theorem Family.Tracks.ends [DecidableEq P] (tracks : f.Tracks alive left) {p : P}
    (runs : alive p) (status : S) :
    ∃ g, f.ends p status = some g ∧ g.zombies = f.zombies ++ [(p, status)] ∧
      g.Tracks (fun q => alive q ∧ q ≠ p) (fun q st => left q st ∨ q = p ∧ st = status) := by
  have member : p ∈ f.running := (tracks.running p).mpr runs
  refine ⟨_, if_pos member, rfl, ?_⟩
  obtain ⟨distinct, -, -⟩ := List.nodup_append.mp tracks.distinct
  constructor
  · intro q
    rw [distinct.mem_erase_iff, tracks.running, and_comm]
  · intro q st among
    rcases List.mem_append.mp among with before | new
    · exact Or.inl (tracks.ended q st before)
    · exact Or.inr (Prod.mk.inj (List.mem_singleton.mp new))
  · rintro q st (before | ⟨rfl, -⟩) ⟨alive_, other⟩
    · exact tracks.apart q st before alive_
    · exact other rfl
  · have moved : (f.running.erase p ++ (f.zombies ++ [(p, status)]).map Prod.fst).Perm f.pids := by
      have split := (List.perm_cons_erase member).append_right (f.zombies.map Prod.fst)
      rw [List.map_append, ← List.append_assoc]
      exact (List.perm_append_singleton _ _).trans split.symm
    exact moved.nodup_iff.mpr tracks.distinct

theorem Family.Tracks.of_sublist (tracks : f.Tracks alive left)
    (running : g.running = f.running) (zombies : g.zombies.Sublist f.zombies) :
    g.Tracks alive left where
  running p := by rw [running, tracks.running]
  ended p status member := tracks.ended p status (zombies.subset member)
  apart := tracks.apart
  distinct := by
    rw [Family.pids, running]
    exact ((List.Sublist.refl _).append (zombies.map _)).nodup tracks.distinct

theorem Family.Tracks.waitAny (tracks : f.Tracks alive left) {pick : Nat} {result : Waited P S}
    (waited : f.waitAny pick = some (result, g)) : g.Tracks alive left := by
  rcases waitAny_cases waited with ⟨-, rfl, -⟩ | ⟨p, status, -, -, rfl⟩
  · exact tracks
  · exact tracks.of_sublist rfl (List.eraseIdx_sublist ..)

end

theorem mem_eraseP_key [DecidableEq P] {l : List (P × S)} (distinct : (l.map Prod.fst).Nodup)
    (p : P) (z : P × S) : z ∈ l.eraseP (·.1 = p) ↔ z ∈ l ∧ z.1 ≠ p := by
  induction l with
  | nil => simp
  | cons y l ih =>
    obtain ⟨fresh, distinct⟩ := List.nodup_cons.mp distinct
    by_cases same : y.1 = p
    · rw [List.eraseP_cons_of_pos (by simpa using same), List.mem_cons]
      constructor
      · intro member
        refine ⟨Or.inr member, ?_⟩
        rintro rfl
        exact fresh (same ▸ List.mem_map_of_mem member)
      · rintro ⟨rfl | member, other⟩
        · exact absurd same other
        · exact member
    · rw [List.eraseP_cons_of_neg (by simpa using same), List.mem_cons, List.mem_cons, ih distinct]
      constructor
      · rintro (rfl | ⟨member, other⟩)
        · exact ⟨Or.inl rfl, same⟩
        · exact ⟨Or.inr member, other⟩
      · rintro ⟨rfl | member, other⟩
        · exact Or.inl rfl
        · exact Or.inr ⟨member, other⟩

/-- `waitpid` for one child of known children: it is collected with the status it has left,
or still runs; an unknown child is an error. -/
theorem Family.Tracks.waitFor [DecidableEq P] {f : Family P S} {alive : P → Prop}
    {left : P → S → Prop} (tracks : f.Tracks alive left) (p : P) :
    (∃ status g, f.waitFor p = (.child p status, g) ∧ left p status ∧
      (p, status) ∈ f.zombies ∧ (∀ z, z ∈ g.zombies ↔ z ∈ f.zombies ∧ z.1 ≠ p) ∧
      g.Tracks alive fun q st => left q st ∧ q ≠ p) ∨
    (∀ status, (p, status) ∉ f.zombies) ∧
      (alive p ∧ f.waitFor p = (.nobody, f) ∨ ¬ alive p ∧ f.waitFor p = (.echild, f)) := by
  rcases waitFor_cases f p with ⟨status, member, waited⟩ | ⟨absent, waited⟩
  · have distinct := (List.nodup_append.mp tracks.distinct).2.1
    have zombies := mem_eraseP_key distinct p
    refine Or.inl ⟨status, _, waited, tracks.ended p status member, member, zombies, ?_⟩
    have sub := tracks.of_sublist (g := { f with zombies := f.zombies.eraseP (·.1 = p) }) rfl
      List.eraseP_sublist
    refine ⟨sub.running, ?_, fun q st ended => tracks.apart q st ended.1, sub.distinct⟩
    intro q st among
    obtain ⟨before, other⟩ := (zombies (q, st)).mp among
    exact ⟨tracks.ended q st before, other⟩
  · refine Or.inr ⟨absent, ?_⟩
    rw [waited]
    by_cases runs : alive p
    · exact Or.inl ⟨runs, by rw [if_pos ((tracks.running p).mpr runs)]⟩
    · exact Or.inr ⟨runs, by rw [if_neg fun member => runs ((tracks.running p).mp member)]⟩

/-! ## Collecting from a handler -/

/-- A process whose handler for SIGCHLD calls `waitpid` in a loop. -/
structure Collector (P S : Type) where
  family : Family P S
  inHandler : Bool

inductive Act (P S : Type) where
  | fork (p : P)
  | ends (p : P) (status : S)
  | deliver
  | wait (pick : Nat)
  deriving DecidableEq

inductive Moves [DecidableEq P] : Act P S → Collector P S → Collector P S → Prop
  | fork {p f h} : Moves (.fork p) ⟨f, h⟩ ⟨f.fork p, h⟩
  | ends {p status f g h} (ended : f.ends p status = some g) :
      Moves (.ends p status) ⟨f, h⟩ ⟨g, h⟩
  | deliver {f} (pending : f.sigchld = true) :
      Moves .deliver ⟨f, false⟩ ⟨{ f with sigchld := false }, true⟩
  | collected {pick p status f g} (waited : f.waitAny pick = some (.child p status, g)) :
      Moves (.wait pick) ⟨f, true⟩ ⟨g, true⟩
  | left {pick result f g} (waited : f.waitAny pick = some (result, g))
      (last : result = .nobody ∨ result = .echild) : Moves (.wait pick) ⟨f, true⟩ ⟨g, false⟩

def collecting [DecidableEq P] : StepSystem (Collector P S) (Act P S) where
  start s := s = ⟨Family.empty, false⟩
  step := Moves

/-- The steps of the process itself, not of its children. -/
def Own (act : Act P S) (_ : Collector P S) : Prop := act = .deliver ∨ ∃ pick, act = .wait pick

section
variable [DecidableEq P]

/-- A child that has ended is announced, or the handler is at work. -/
theorem collecting_announced {s : Collector P S} (reach : collecting.Reachable s) :
    s.family.zombies ≠ [] → s.family.sigchld = true ∨ s.inHandler = true := by
  refine reach.invariant
    (I := fun s => s.family.zombies ≠ [] → s.family.sigchld = true ∨ s.inHandler = true) ?_ ?_
  · rintro s rfl ended
    exact absurd rfl ended
  · intro act s t announced step
    cases step with
    | fork => exact announced
    | ends ended =>
      obtain ⟨-, rfl⟩ := ends_cases ended
      exact fun _ => Or.inl rfl
    | deliver => exact fun _ => Or.inr rfl
    | collected => exact fun _ => Or.inr rfl
    | left waited last =>
      intro ended
      rcases waitAny_cases waited with ⟨none_ended, rfl, -⟩ | ⟨p, status, -, rfl, -⟩
      · exact absurd none_ended ended
      · rcases last with last | last <;> cases last

/-- What is left for the handler to do. -/
def Collector.work (s : Collector P S) : Nat :=
  s.family.zombies.length + (if s.family.sigchld then 2 else 0) + (if s.inHandler then 1 else 0)

theorem Moves.work_lt {act : Act P S} {s t : Collector P S} (own : Own act s)
    (step : Moves act s t) : t.work < s.work := by
  cases step with
  | fork => rcases own with own | ⟨_, own⟩ <;> cases own
  | ends => rcases own with own | ⟨_, own⟩ <;> cases own
  | deliver pending => simp [Collector.work, pending]
  | collected waited =>
    rcases waitAny_cases waited with ⟨-, -, ⟨same, -⟩ | ⟨same, -⟩⟩ | ⟨p, status, picked, -, rfl⟩
    · cases same
    · cases same
    · obtain ⟨bound, -⟩ := List.getElem?_eq_some_iff.mp picked
      simp only [Collector.work, List.length_eraseIdx, bound, if_true]
      omega
  | left waited last =>
    rcases waitAny_cases waited with ⟨-, rfl, -⟩ | ⟨p, status, -, rfl, -⟩
    · simp [Collector.work]
    · rcases last with last | last <;> cases last

end

end ChildProcesses
