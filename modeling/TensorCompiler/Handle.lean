/-!
# Handles

Variables and operators of a graph are addressed by their position in the graph's arena. The two
kinds of handle are separate types, so neither can stand in for the other.
-/

namespace TensorCompiler

/-- A variable of a graph. -/
structure VarId where
  index : Nat
  deriving DecidableEq, Repr

/-- An operator of a graph. -/
structure OpId where
  index : Nat
  deriving DecidableEq, Repr

def VarId.text (v : VarId) : String := s!"v{v.index}"

def OpId.text (o : OpId) : String := s!"op{o.index}"

/-- Entries of a table of variables, by ascending handle. -/
def sortByVar {β : Type} (entries : List (VarId × β)) : List (VarId × β) :=
  entries.mergeSort fun x y => decide (x.1.index ≤ y.1.index)

end TensorCompiler
