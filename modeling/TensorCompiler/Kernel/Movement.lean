import TensorCompiler.Operator.Basic
/-!
# Data movement in kernels

Tiles, slices, resizes and reinterpretations copy one input element to each output element. Their
kernels differ in one expression: the input coordinate along an axis, in terms of the output
coordinate `c` and of tables with an entry for each axis.
-/

namespace TensorCompiler

/-- The input coordinate along an axis. -/
inductive CoordinateRule where
  /-- The output coordinate itself. -/
  | same
  /-- The remainder by the size of the input. -/
  | wrap
  /-- The element that a strided range reaches. -/
  | range
  /-- The output coordinate scaled by the sizes of input and output, rounded down. -/
  | scale
  deriving DecidableEq, Repr

namespace CoordinateRule

/-- The rule as an expression; `entry` writes out the entry of a table. -/
def text (entry : String → String) : CoordinateRule → String
  | same => "c"
  | wrap => "c % " ++ entry "x_shape"
  | range => entry "slice_begin" ++ " + c * " ++ entry "slice_step"
  | scale => "c * " ++ entry "x_shape" ++ " / " ++ entry "y_shape"

end CoordinateRule

namespace Operator

variable {α : Type}

/-- The coordinate rule of an operator's kernel. -/
def coordinateRule : Operator α → CoordinateRule
  | pointwise _ => .same
  | tile _ => .wrap
  | slice .. => .range
  | reinterpret .. => .same
  | resize .. => .scale

/-- The tables that the rule reads, besides the output shape. -/
def movementTables (op : Operator α) (x : TensorType) : List (String × List Dim) :=
  match op with
  | tile _ => [("x_shape", x.shape)]
  | slice start _ step =>
    [("slice_begin", start.map .known), ("slice_step", step.map .known)]
  | resize .. => [("x_shape", x.shape)]
  | pointwise _ => []
  | reinterpret .. => []

/-- The names of these tables. -/
def movementNames : Operator α → List String
  | tile _ => ["x_shape"]
  | slice .. => ["slice_begin", "slice_step"]
  | resize .. => ["x_shape"]
  | pointwise _ => []
  | reinterpret .. => []

theorem map_fst_movementTables (op : Operator α) (x : TensorType) :
    (op.movementTables x).map (·.1) = op.movementNames := by
  cases op <;> rfl

end Operator

end TensorCompiler
