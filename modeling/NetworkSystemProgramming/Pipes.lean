import NetworkSystemProgramming.DescriptorTables

/-!
# Pipe ends in descriptor tables

What descriptors refer to when processes share pipes, and whether an end of a pipe is
still open in some process.
-/

namespace Pipes

open DescriptorTables

variable {E : Type}

/-- Something that was open at entry, or an end of a pipe. -/
inductive End (E : Type) where
  | entry (e : E)
  | read (pipe : Nat)
  | write (pipe : Nat)
  deriving DecidableEq, Repr

/-- One of the first `n` processes holds the end. -/
def Held (tables : Nat → Table (End E)) (n : Nat) (x : End E) : Prop :=
  ∃ pid < n, Holds (tables pid) x

instance [DecidableEq E] (tables : Nat → Table (End E)) (n : Nat) (x : End E) :
    Decidable (Held tables n x) :=
  inferInstanceAs (Decidable (∃ pid < n, Holds (tables pid) x))

end Pipes
