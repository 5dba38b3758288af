import TensorCompiler.Error
import TensorCompiler.Scalar
/-!
# Operators

A pure operator with its parameters. Pointwise operators compute each output element from the
input elements at the same coordinate, after broadcasting; the others only move data. Per-axis
parameters follow the axis sequence of the input.
-/

namespace TensorCompiler

/-- An operator on single elements. -/
inductive Pointwise (α : Type) where
  | add
  | mul
  | greater
  | greaterEqual
  /-- The map `x * scale + bias`. -/
  | affine (scale bias : α)
  /-- The second operand where the first one holds, the third elsewhere. -/
  | select

namespace Pointwise

variable {α : Type}

def kind : Pointwise α → OpKind
  | add => .add
  | mul => .mul
  | greater => .greater
  | greaterEqual => .greaterEqual
  | affine .. => .scalarAffine
  | select => .select

/-- The value on these operands, or `none` if one that is needed is not there. -/
def eval? [Scalar α] (f : Pointwise α) (xs : List α) : Option α :=
  match f with
  | add => do return Scalar.add (← xs[0]?) (← xs[1]?)
  | mul => do return Scalar.mul (← xs[0]?) (← xs[1]?)
  | greater => do return Scalar.ofBool (Scalar.greater (← xs[0]?) (← xs[1]?))
  | greaterEqual => do return Scalar.ofBool (Scalar.greaterEqual (← xs[0]?) (← xs[1]?))
  | affine scale bias => do return Scalar.add (Scalar.mul (← xs[0]?) scale) bias
  | select => do
    let c ← xs[0]?
    if Scalar.holds c then xs[1]? else xs[2]?

end Pointwise

/-- A graph operator. -/
inductive Operator (α : Type) where
  | pointwise (f : Pointwise α)
  /-- Repeats the input along each axis. -/
  | tile (multiplier : List Nat)
  /-- The half-open ranges from `start` to `stop`, walked by `step`. -/
  | slice (start stop step : List Nat)
  /-- Renames the axes without touching the data. -/
  | reinterpret (source target : Order)
  /-- Nearest-neighbour resize of two axes. -/
  | resize (axis1 : Axis) (size1 : Nat) (axis2 : Axis) (size2 : Nat)

namespace Operator

variable {α : Type}

def kind : Operator α → OpKind
  | pointwise f => f.kind
  | tile _ => .tile
  | slice .. => .slice
  | reinterpret .. => .reinterpretAxis
  | resize .. => .resize2d

/-- Substitutes the axes among the parameters. -/
def mapAxes (f : Axis → Axis) : Operator α → Except GraphError (Operator α)
  | reinterpret source target => do return reinterpret (← source.map f) (← target.map f)
  | resize a m b n => .ok (resize (f a) m (f b) n)
  | op => .ok op

/-- Equality of operators, with scalar parameters compared as numbers. -/
def eqv [Scalar α] : Operator α → Operator α → Bool
  | pointwise (.affine s b), pointwise (.affine t c) => Scalar.eqv s t && Scalar.eqv b c
  | pointwise f, pointwise g => f.kind == g.kind
  | tile m, tile n => m == n
  | slice a b c, slice x y z => a == x && b == y && c == z
  | reinterpret s t, reinterpret u v => s == u && t == v
  | resize a m b n, resize c k d l => a == c && m == k && b == d && n == l
  | _, _ => false

end Operator

end TensorCompiler
