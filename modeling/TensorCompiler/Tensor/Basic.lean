import TensorCompiler.Error
/-!
# Tensors

A tensor of a graph is its type, a list of marks, and for a constant its data in row-major order.
Elements are of any type `α`; nothing in this module computes with them.
-/

namespace TensorCompiler

/-- What is known of a tensor besides its type. -/
inductive Mark where
  /-- Fed by the runtime. -/
  | input
  /-- Read back by the runtime. -/
  | output
  /-- Computed independently along this axis. -/
  | tensorwise (axis : Axis)
  deriving DecidableEq, Repr

namespace Mark

/-- The mark concerns the runtime and not how the tensor is computed. -/
def isRuntime : Mark → Bool
  | input | output => true
  | tensorwise _ => false

/-- Adds a mark at the end, unless it is there already. -/
def insert (m : Mark) (marks : List Mark) : List Mark :=
  if m ∈ marks then marks else marks ++ [m]

/-- Removes a mark. -/
def erase (m : Mark) (marks : List Mark) : List Mark := marks.filter (· ≠ m)

/-- Adds the runtime marks among `other`. -/
def inherit (other marks : List Mark) : List Mark :=
  (other.filter isRuntime).foldl (fun ms m => insert m ms) marks

end Mark

namespace TensorType

/-- The type with this shape and order. The rank must match, and neither a dimension nor the
number of elements may overflow. -/
def make (shape : List Dim) (order : Order) : GraphM TensorType :=
  if h : shape.length = order.rank then do
    let size ← Dim.product shape
    match (shape ++ [size]).find? Dim.overflowed with
    | some d => throw (.overflow d)
    | none => return ⟨shape, order, h⟩
  else
    throw (.rank order shape.length)

/-- The value of a dimension that has to be known. -/
def knownDim (d : Dim) : Except GraphError Nat :=
  match d.known? with
  | some n => .ok n
  | none => .error (.unresolved d)

/-- The shape as integers; the first symbolic dimension is an error. -/
def concreteShape (t : TensorType) : Except GraphError (List Nat) := t.shape.mapM knownDim

/-- The number of elements as an integer. -/
def concreteSize (t : TensorType) : Except GraphError Nat := do
  return (← t.concreteShape).foldl (· * ·) 1

end TensorType

/-- A tensor of a graph. -/
structure Tensor (α : Type) where
  type : TensorType
  marks : List Mark := []
  /-- The elements of a constant. -/
  data : Option (Array α) := none

namespace Tensor

variable {α : Type}

def isConstant (t : Tensor α) : Bool := t.data.isSome

/-- Attaches constant data, which must have one element for each coordinate. -/
def withData (t : Tensor α) (data : Array α) : Except GraphError (Tensor α) := do
  let expected ← t.type.concreteSize
  if data.size = expected then
    return { t with data := some data }
  else
    throw (.dataLength expected data.size)

def mark (t : Tensor α) (m : Mark) : Tensor α := { t with marks := m.insert t.marks }

/-- The constant that replaces this tensor once its value is known. Type and runtime marks stay. -/
def fold (t : Tensor α) (data : Array α) : Except GraphError (Tensor α) :=
  withData { type := t.type, marks := Mark.inherit t.marks [] } data

end Tensor

end TensorCompiler
