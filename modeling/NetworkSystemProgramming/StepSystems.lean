import Mathlib.Logic.Function.Basic
import Mathlib.Logic.Relation

/-!
# Labelled step systems

Start states, a labelled step relation and the rules for whole runs: an
inductive invariant, restriction to runs whose steps meet a condition,
simulation of one system by another, and systems that run side by side.
The states and the labels are arbitrary types.
-/

namespace StepSystems

universe u v u' v'

/-- Start states and labelled steps. -/
structure StepSystem (S : Type u) (L : Type v) where
  start : S → Prop
  step : L → S → S → Prop

namespace StepSystem
variable {S : Type u} {L : Type v} {S' : Type u'} {L' : Type v'}

/-- One step under some label. -/
def Step (T : StepSystem S L) (s t : S) : Prop := ∃ l, T.step l s t

/-- Finitely many steps. -/
def Run (T : StepSystem S L) : S → S → Prop := Relation.ReflTransGen T.Step

def Reachable (T : StepSystem S L) (s : S) : Prop := ∃ r, T.start r ∧ T.Run r s

theorem Run.refl {T : StepSystem S L} (s : S) : T.Run s s := Relation.ReflTransGen.refl

theorem Run.snoc {T : StepSystem S L} {r s t : S} {l : L} (run : T.Run r s)
    (step : T.step l s t) : T.Run r t :=
  Relation.ReflTransGen.tail run ⟨l, step⟩

theorem Run.cons {T : StepSystem S L} {r s t : S} {l : L} (step : T.step l r s)
    (run : T.Run s t) : T.Run r t :=
  Relation.ReflTransGen.head ⟨l, step⟩ run

theorem Run.trans {T : StepSystem S L} {r s t : S} (first : T.Run r s)
    (second : T.Run s t) : T.Run r t :=
  Relation.ReflTransGen.trans first second

theorem Reachable.initial {T : StepSystem S L} {s : S} (h : T.start s) : T.Reachable s :=
  ⟨s, h, Run.refl s⟩

theorem Reachable.next {T : StepSystem S L} {s t : S} {l : L} (h : T.Reachable s)
    (step : T.step l s t) : T.Reachable t := by
  obtain ⟨r, hr, run⟩ := h
  exact ⟨r, hr, run.snoc step⟩

theorem Reachable.run {T : StepSystem S L} {s t : S} (h : T.Reachable s)
    (run : T.Run s t) : T.Reachable t := by
  obtain ⟨r, hr, first⟩ := h
  exact ⟨r, hr, first.trans run⟩

/-- A predicate of the start states that every step keeps holds in every
reachable state. -/
theorem Reachable.invariant {T : StepSystem S L} {I : S → Prop} {s : S}
    (reach : T.Reachable s) (base : ∀ r, T.start r → I r)
    (keep : ∀ l r t, I r → T.step l r t → I t) : I s := by
  obtain ⟨r, hr, run⟩ := reach
  induction run with
  | refl => exact base r hr
  | tail _ step ih =>
    obtain ⟨l, hl⟩ := step
    exact keep l _ _ ih hl

/-- An invariant whose steps need what is known of reachable states. -/
theorem Reachable.invariant_of {T : StepSystem S L} {I J : S → Prop} {s : S}
    (reach : T.Reachable s) (known : ∀ r, T.Reachable r → J r) (base : ∀ r, T.start r → I r)
    (keep : ∀ l r t, J r → I r → T.step l r t → I t) : I s := by
  have both : T.Reachable s ∧ I s := by
    refine reach.invariant (I := fun r => T.Reachable r ∧ I r) ?_ ?_
    · intro r start
      exact ⟨Reachable.initial start, base r start⟩
    · rintro l r t ⟨reached, h⟩ step
      exact ⟨reached.next step, keep l r t (known r reached) h step⟩
  exact both.2

/-- The runs all of whose steps meet a condition on the label and on the state
before the step. -/
def restrict (T : StepSystem S L) (allowed : L → S → Prop) : StepSystem S L where
  start := T.start
  step l s t := allowed l s ∧ T.step l s t

theorem restrict_run {T : StepSystem S L} {allowed : L → S → Prop} {s t : S}
    (run : (T.restrict allowed).Run s t) : T.Run s t := by
  induction run with
  | refl => exact Run.refl s
  | tail _ step ih =>
    obtain ⟨l, -, hl⟩ := step
    exact ih.snoc hl

theorem restrict_reachable {T : StepSystem S L} {allowed : L → S → Prop} {s : S}
    (reach : (T.restrict allowed).Reachable s) : T.Reachable s := by
  obtain ⟨r, hr, run⟩ := reach
  exact ⟨r, hr, restrict_run run⟩

/-- A system with the record of what its steps show. -/
def logged {O : Type v'} (T : StepSystem S L) (observe : L → S → List O) :
    StepSystem (S × List O) L where
  start s := T.start s.1 ∧ s.2 = []
  step l s t := T.step l s.1 t.1 ∧ t.2 = s.2 ++ observe l s.1

/-- What is recorded does not change what can happen. -/
theorem logged_run {O : Type v'} {T : StepSystem S L} {observe : L → S → List O} {s t : S}
    (run : T.Run s t) (log : List O) :
    ∃ more, (T.logged observe).Run (s, log) (t, log ++ more) := by
  induction run with
  | refl => exact ⟨[], by simpa using Run.refl (s, log)⟩
  | @tail r t _ step ih =>
    obtain ⟨more, run⟩ := ih
    obtain ⟨l, hl⟩ := step
    refine ⟨more ++ observe l r, ?_⟩
    rw [← List.append_assoc]
    exact run.snoc (l := l) ⟨hl, rfl⟩

/-- The system of an executable step function; `none` means that the label is not
enabled. Choices of the environment are part of the label. -/
def ofNext (start : S → Prop) (next : L → S → Option S) : StepSystem S L where
  start := start
  step l s t := next l s = some t

/-- Execute a schedule, one label after the other. -/
def follow (next : L → S → Option S) : List L → S → Option S
  | [], s => some s
  | l :: rest, s => (next l s).bind (follow next rest)

/-- A schedule is a run of every system that has the executed steps. -/
theorem follow_sound {T : StepSystem S L} {next : L → S → Option S}
    (sound : ∀ l s t, next l s = some t → T.step l s t) {schedule : List L} {s t : S}
    (h : follow next schedule s = some t) : T.Run s t := by
  induction schedule generalizing s with
  | nil =>
    have same : s = t := Option.some.inj h
    exact same ▸ Run.refl s
  | cons l rest ih =>
    obtain ⟨r, hr, ht⟩ := Option.bind_eq_some_iff.mp h
    exact Run.cons (sound l s r hr) (ih ht)

theorem follow_run {start : S → Prop} {next : L → S → Option S} {schedule : List L} {s t : S}
    (h : follow next schedule s = some t) : (ofNext start next).Run s t :=
  follow_sound (fun _ _ _ step => step) h

/-- The step function with the record of what the steps show. -/
def recording {O : Type v'} (next : L → S → Option S) (observe : L → S → List O) (l : L)
    (s : S × List O) : Option (S × List O) :=
  (next l s.1).map (·, s.2 ++ observe l s.1)

theorem follow_recording_run {O : Type v'} {T : StepSystem S L} {next : L → S → Option S}
    {observe : L → S → List O} (sound : ∀ l s t, next l s = some t → T.step l s t)
    {schedule : List L} {s t : S × List O}
    (h : follow (recording next observe) schedule s = some t) : (T.logged observe).Run s t := by
  refine follow_sound ?_ h
  intro l r u recorded
  obtain ⟨t, step, same⟩ := Option.map_eq_some_iff.mp recorded
  exact same ▸ ⟨sound l r.1 t step, rfl⟩

theorem restrict_restrict (T : StepSystem S L) (a b : L → S → Prop) :
    (T.restrict a).restrict b = T.restrict (fun l s => b l s ∧ a l s) := by
  simp only [restrict, and_assoc]

/-- The step function of the runs whose steps meet a condition. -/
def guarded (allowed : L → S → Prop) [∀ l s, Decidable (allowed l s)] (next : L → S → Option S)
    (l : L) (s : S) : Option S :=
  if allowed l s then next l s else none

theorem follow_guarded_run {start : S → Prop} {next : L → S → Option S} {allowed : L → S → Prop}
    [∀ l s, Decidable (allowed l s)] {schedule : List L} {s t : S}
    (h : follow (guarded allowed next) schedule s = some t) :
    ((ofNext start next).restrict allowed).Run s t :=
  follow_sound (fun _ _ _ step => Option.ite_none_right_eq_some.mp step) h

/-- No step of any party is possible. -/
def Stuck (T : StepSystem S L) (s : S) : Prop := ∀ l t, ¬ T.step l s t

/-- Every run that goes on as long as it can comes to a state where `P` holds. -/
inductive Inevitable (T : StepSystem S L) (P : S → Prop) : S → Prop
  | now {s : S} (h : P s) : Inevitable T P s
  | later {s : S} (moves : ∃ l t, T.step l s t) (all : ∀ l t, T.step l s t → Inevitable T P t) :
      Inevitable T P s

/-- While an invariant holds and `P` does not, some step is possible, and every step
takes a measure down. -/
theorem Inevitable.of_measure {T : StepSystem S L} {P : S → Prop} (Inv : S → Prop) {α : Type v'}
    {below : α → α → Prop} (wf : WellFounded below) (measure : S → α)
    (moves : ∀ s, Inv s → ¬ P s → ∃ l t, T.step l s t)
    (down : ∀ l s t, Inv s → T.step l s t → Inv t ∧ below (measure t) (measure s)) :
    ∀ s, Inv s → Inevitable T P s := by
  intro s
  induction s using (InvImage.wf measure wf).induction with
  | _ s ih =>
    intro inv
    by_cases done : P s
    · exact .now done
    · refine .later (moves s inv done) ?_
      intro l t step
      obtain ⟨inv', less⟩ := down l s t inv step
      exact ih t less inv'

/-- The same with a measure that comes with the invariant. -/
theorem Inevitable.of_variant {T : StepSystem S L} {P : S → Prop} {α : Type v'}
    {below : α → α → Prop} (wf : WellFounded below) (V : α → S → Prop)
    (moves : ∀ a s, V a s → ¬ P s → ∃ l t, T.step l s t)
    (down : ∀ l s t a, V a s → T.step l s t → ∃ b, V b t ∧ below b a) :
    ∀ a s, V a s → Inevitable T P s := by
  intro a
  induction a using wf.induction with
  | _ a ih =>
    intro s inv
    by_cases done : P s
    · exact .now done
    · refine .later (moves a s inv done) ?_
      intro l t step
      obtain ⟨b, inv', less⟩ := down l s t a inv step
      exact ih b less t inv'

theorem Inevitable.mono {T : StepSystem S L} {P Q : S → Prop} {s : S} (h : Inevitable T P s)
    (implies : ∀ t, T.Run s t → P t → Q t) : Inevitable T Q s := by
  induction h with
  | @now s h => exact .now (implies s (Run.refl s) h)
  | later moves _ ih =>
    refine .later moves ?_
    intro l t step
    exact ih l t step (fun u run => implies u (Run.cons step run))

/-- What is inevitable happens in some run. -/
theorem Inevitable.run {T : StepSystem S L} {P : S → Prop} {s : S} (h : Inevitable T P s) :
    ∃ t, T.Run s t ∧ P t := by
  induction h with
  | @now s h => exact ⟨s, Run.refl s, h⟩
  | later moves _ ih =>
    obtain ⟨l, t, step⟩ := moves
    obtain ⟨u, run, h⟩ := ih l t step
    exact ⟨u, Run.cons step run, h⟩

/-- Forward simulation: a concrete step is matched by a run of the abstract system,
possibly an empty one. -/
structure Simulates (A : StepSystem S L) (B : StepSystem S' L') (R : S → S' → Prop) :
    Prop where
  start : ∀ s, A.start s → ∃ a, B.start a ∧ R s a
  step : ∀ l s t a, R s a → A.step l s t → ∃ b, B.Run a b ∧ R t b

theorem Simulates.reachable {A : StepSystem S L} {B : StepSystem S' L'}
    {R : S → S' → Prop} (sim : Simulates A B R) {s : S} (h : A.Reachable s) :
    ∃ a, B.Reachable a ∧ R s a := by
  refine h.invariant (I := fun s => ∃ a, B.Reachable a ∧ R s a) ?_ ?_
  · intro r hr
    obtain ⟨a, ha, rel⟩ := sim.start r hr
    exact ⟨a, Reachable.initial ha, rel⟩
  · rintro l r t ⟨a, ha, rel⟩ step
    obtain ⟨b, run, rel'⟩ := sim.step l r t a rel step
    exact ⟨b, ha.run run, rel'⟩

section Interleaving
variable {I : Type u'} [DecidableEq I]

/-- Any number of systems side by side, one step of one of them at a time. -/
def interleaved (T : I → StepSystem S L) : StepSystem (I → S) (I × L) where
  start s := ∀ i, (T i).start (s i)
  step l s t := ∃ u, (T l.1).step l.2 (s l.1) u ∧ t = Function.update s l.1 u

/-- Every component of a reachable state is reachable in its own system. -/
theorem interleaved_reachable {T : I → StepSystem S L} {s : I → S}
    (reach : (interleaved T).Reachable s) (i : I) : (T i).Reachable (s i) := by
  refine reach.invariant (I := fun s => ∀ i, (T i).Reachable (s i)) ?_ ?_ i
  · intro r hr j
    exact Reachable.initial (hr j)
  · rintro ⟨j, l⟩ r t hr ⟨u, step, rfl⟩ k
    by_cases moved : k = j
    · subst moved
      simpa using (hr k).next step
    · simpa [moved] using hr k

/-- The other components do not hold a run of one component up. -/
theorem interleaved_run {T : I → StepSystem S L} (s : I → S) (i : I) {u : S}
    (run : (T i).Run (s i) u) : (interleaved T).Run s (Function.update s i u) := by
  induction run with
  | refl =>
    rw [Function.update_eq_self]
    exact Run.refl s
  | @tail v w _ step ih =>
    obtain ⟨l, hl⟩ := step
    have moved : (interleaved T).step (i, l) (Function.update s i v) (Function.update s i w) :=
      ⟨w, by simpa using hl, by simp⟩
    exact ih.snoc moved

end Interleaving

end StepSystem
end StepSystems
