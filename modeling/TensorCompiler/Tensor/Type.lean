import TensorCompiler.Axis
import TensorCompiler.Dim
/-!
# Tensor types

The type of a tensor is its shape together with the order of its axes. Shape inference, loop
nests and the interpreter look at types only; the data of a tensor plays no part in them.
-/

namespace TensorCompiler

/-- A shape whose dimensions are named by an axis order. -/
structure TensorType where
  shape : List Dim
  order : Order
  /-- Every dimension has its axis. -/
  rank_eq : shape.length = order.rank

namespace TensorType

def rank (t : TensorType) : Nat := t.shape.length

/-- Dimensions paired with their axes, outermost first. -/
def dims (t : TensorType) : List (Axis × Dim) := t.order.axes.zip t.shape

def text (t : TensorType) : String :=
  "[" ++ ", ".intercalate (t.shape.map Dim.text) ++ "]@" ++ t.order.text

/-- Number of elements, multiplied up from the outermost dimension. -/
def size (t : TensorType) : FreshM Dim := Dim.product t.shape

/-- Row-major strides of a shape: the innermost is one, every other the product of the stride and
the dimension next to it on the inside. -/
def stridesOf : List Dim → FreshM (List Dim)
  | [] => pure []
  | [_] => pure [.known 1]
  | _ :: d :: ds => do
    let inner ← stridesOf (d :: ds)
    let outer ← Dim.combine .mul (inner.headD (.known 1)) d
    return outer :: inner

/-- Row-major strides over the axis sequence. -/
def strides (t : TensorType) : FreshM (List Dim) := stridesOf t.shape

/-- The dimension along an axis. -/
def dimOf? (t : TensorType) (a : Axis) : Option Dim := t.dims.lookup a

/-- The stride along an axis, computed afresh. -/
def strideOf? (t : TensorType) (a : Axis) : FreshM (Option Dim) :=
  match t.order.indexOf? a with
  | some i => do return (← t.strides)[i]?
  | none => pure none

/-- Every dimension is a known integer. -/
def isConcrete (t : TensorType) : Bool := t.shape.all Dim.isKnown

/-- The same shape under another order of the same rank. -/
def withOrder (t : TensorType) (o : Order) (h : o.rank = t.order.rank) : TensorType :=
  ⟨t.shape, o, t.rank_eq.trans h.symm⟩

/-- The same shape with its axes substituted, unless two of them collapse into one. -/
def rename? (f : Axis → Axis) (t : TensorType) : Option TensorType :=
  match h : t.order.map? f with
  | some o => some (t.withOrder o (by
      have := Order.ofList?_eq_some_iff.1 h
      simp [Order.rank, this]))
  | none => none

end TensorType

end TensorCompiler
