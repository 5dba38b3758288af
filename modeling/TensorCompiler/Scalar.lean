/-!
# Scalars

The operations that tensors are computed with, as a class: the graph layer is written once for any
scalars, and kernels are generated for those that can be written down as a literal. Nothing is
assumed of the operations, so whatever is shown for all instances holds of floating point too.
-/

namespace TensorCompiler

/-- Arithmetic and comparison of tensor elements. -/
class Scalar (α : Type) where
  zero : α
  one : α
  negOne : α
  add : α → α → α
  mul : α → α → α
  /-- Strictly greater. -/
  greater : α → α → Bool
  greaterEqual : α → α → Bool
  /-- Equality of numbers, which need not be reflexive. -/
  eqv : α → α → Bool

namespace Scalar

variable {α : Type} [Scalar α]

/-- One for true and zero for false. -/
def ofBool (b : Bool) : α := if b then one else zero

/-- The condition of a selection: everything but zero holds. -/
def holds (x : α) : Bool := !eqv x zero

end Scalar

/-- Scalars that kernels can contain as a literal. -/
class ScalarText (α : Type) where
  isFinite : α → Bool
  /-- The literal of a finite scalar, or the name of a value without one. -/
  text : α → String

end TensorCompiler
