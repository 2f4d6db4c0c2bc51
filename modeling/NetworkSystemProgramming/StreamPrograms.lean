import Mathlib.Tactic.Common

/-!
# Stream programs

A program as a machine that reads an input, writes an output and exits, and what it computes
when it is by itself. Bytes and programs are of arbitrary types.
-/

namespace StreamPrograms

universe u v

variable {B : Type u} {P : Type v}

/-- What a program does next. A `read` gives `none` at the end of the input. -/
inductive Operation (B : Type u) (P : Type v) where
  | read (got : Option B → P)
  | write (b : B) (next : P)
  | exit

/-- With `input` still to be read the program writes `output` and exits, after `n` turns. -/
inductive Computes (turn : P → Operation B P) : Nat → P → List B → List B → Prop
  | exit {p input} (next : turn p = .exit) : Computes turn 0 p input []
  | write {p b q input output n} (next : turn p = .write b q)
      (later : Computes turn n q input output) : Computes turn (n + 1) p input (b :: output)
  | read {p got b input output n} (next : turn p = .read got)
      (later : Computes turn n (got (some b)) input output) :
      Computes turn (n + 1) p (b :: input) output
  | endOfFile {p got output n} (next : turn p = .read got)
      (later : Computes turn n (got none) [] output) : Computes turn (n + 1) p [] output

section
variable {turn : P → Operation B P} {n : Nat} {p q : P} {b : B} {got : Option B → P}
  {input output : List B}

theorem Computes.at_exit (h : Computes turn n p input output) (next : turn p = .exit) :
    output = [] := by
  cases h with
  | exit => rfl
  | write other | read other | endOfFile other =>
    rw [next] at other
    cases other

theorem Computes.at_write (h : Computes turn n p input output) (next : turn p = .write b q) :
    ∃ m later, n = m + 1 ∧ output = b :: later ∧ Computes turn m q input later := by
  cases h with
  | write own later =>
    rw [next] at own
    cases own
    exact ⟨_, _, rfl, rfl, later⟩
  | exit other | read other | endOfFile other =>
    rw [next] at other
    cases other

theorem Computes.at_read (h : Computes turn n p (b :: input) output) (next : turn p = .read got) :
    ∃ m, n = m + 1 ∧ Computes turn m (got (some b)) input output := by
  cases h with
  | read own later =>
    rw [next] at own
    cases own
    exact ⟨_, rfl, later⟩
  | exit other | write other =>
    rw [next] at other
    cases other

theorem Computes.at_end (h : Computes turn n p [] output) (next : turn p = .read got) :
    ∃ m, n = m + 1 ∧ Computes turn m (got none) [] output := by
  cases h with
  | endOfFile own later =>
    rw [next] at own
    cases own
    exact ⟨_, rfl, later⟩
  | exit other | write other =>
    rw [next] at other
    cases other

end

/-- A program that reads its whole input before it writes a function of it. -/
inductive Batch (B : Type u) where
  | reading (f : List B → List B) (got : List B)
  | writing (rest : List B)

def Batch.turn : Batch B → Operation B (Batch B)
  | .reading f got => .read fun
    | some b => .reading f (got ++ [b])
    | none => .writing (f got)
  | .writing (b :: rest) => .write b (.writing rest)
  | .writing [] => .exit

theorem Batch.writes (input rest : List B) :
    Computes Batch.turn rest.length (.writing rest) input rest := by
  induction rest with
  | nil => exact .exit rfl
  | cons b rest ih => exact .write rfl ih

theorem Batch.computes (f : List B → List B) (got input : List B) :
    ∃ n, Computes Batch.turn n (.reading f got) input (f (got ++ input)) := by
  induction input generalizing got with
  | nil =>
    rw [List.append_nil]
    exact ⟨_, .endOfFile rfl (Batch.writes [] (f got))⟩
  | cons b input ih =>
    obtain ⟨n, later⟩ := ih (got ++ [b])
    rw [List.append_assoc, List.singleton_append] at later
    exact ⟨n + 1, .read rfl later⟩

end StreamPrograms
