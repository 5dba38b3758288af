import TensorCompiler.Operator.Basic
import TensorCompiler.Tensor.Basic
/-!
# Shape inference

`Operator.infer` checks the types of the inputs against the contract of an operator and gives the
type of its output. `Operator.tensorwiseAxes` lists the output axes along which the operator works
slice by slice.
-/

namespace TensorCompiler

namespace TensorType

/-- Inputs of higher rank first; inputs of one rank keep their places. -/
def byRank (inputs : List TensorType) : List TensorType :=
  inputs.mergeSort fun x y => decide (y.rank ≤ x.rank)

/-- Adds one dimension of an input to the dimensions gathered so far. A size of one gives way to
any other size; two different sizes are the error `clash`. -/
def broadcastDim (clash : Axis → GraphError) (dims : List (Axis × Dim)) (entry : Axis × Dim) :
    Except GraphError (List (Axis × Dim)) :=
  let (axis, size) := entry
  match dims.lookup axis with
  | none => .ok (dims ++ [entry])
  | some present =>
    if present == size || size.is 1 then .ok dims
    else if present.is 1 then .ok (dims.map fun d => if d.1 = axis then entry else d)
    else .error (clash axis)

/-- The dimensions of all inputs, gathered by decreasing rank. -/
def broadcastDims (clash : Axis → GraphError) (inputs : List TensorType) :
    Except GraphError (List (Axis × Dim)) :=
  ((byRank inputs).flatMap dims).foldlM (broadcastDim clash) []

end TensorType

namespace Operator

variable {α : Type}

/-- The only input of an operator that takes one. -/
def soleInput {β : Type} (kind : OpKind) (inputs : List β) : Except GraphError β :=
  match inputs with
  | [x] => .ok x
  | _ => .error (.arity kind 1 inputs.length)

/-- The extents of a slice: for each axis the number of steps between its two ends. -/
def sliceExtents (fault : Mismatch → GraphError) :
    Nat → List (Dim × Nat × Nat × Nat) → Except GraphError (List Dim)
  | _, [] => .ok []
  | i, (size, start, stop, step) :: rest => do
    if step = 0 ∨ stop ≤ start then throw (fault (.emptyRange i))
    if (size.known?.map fun n => decide (n < stop)) == some true then
      throw (fault (.rangeOutOfBound i))
    return .known ((stop - start + (step - 1)) / step) :: (← sliceExtents fault (i + 1) rest)

/-- The type of the output on inputs of these types. -/
def infer (op : Operator α) (inputs : List TensorType) : GraphM TensorType := do
  let fault (reason : Mismatch) : GraphError := .mismatch op.kind reason inputs
  match op with
  | pointwise f =>
    if inputs.length ≠ f.kind.arity then
      throw (.arity f.kind f.kind.arity inputs.length)
    let dims ← TensorType.broadcastDims (fun a => fault (.sizesDisagree a)) inputs
    TensorType.make (dims.map (·.2)) (← Order.ofList (dims.map (·.1)))
  | tile multiplier =>
    let x ← soleInput op.kind inputs
    if multiplier.length ≠ x.rank then throw (fault .tileRank)
    if 0 ∈ multiplier then throw (fault .tileZero)
    let shape ← (x.shape.zip multiplier).mapM fun (size, m) => Dim.combine .mul size (.known m)
    TensorType.make shape x.order
  | slice start stop step =>
    let x ← soleInput op.kind inputs
    if start.length ≠ x.rank ∨ stop.length ≠ x.rank ∨ step.length ≠ x.rank then
      throw (fault .sliceRank)
    let shape ← sliceExtents fault 0 (x.shape.zip (start.zip (stop.zip step)))
    TensorType.make shape x.order
  | reinterpret source target =>
    let x ← soleInput op.kind inputs
    if source.rank ≠ target.rank then throw (fault .reinterpretRank)
    if x.order ≠ source then throw (fault (.reinterpretOrder source))
    TensorType.make x.shape target
  | resize axis1 size1 axis2 size2 =>
    let x ← soleInput op.kind inputs
    if axis1 = axis2 then throw (fault .resizeSameAxis)
    if size1 = 0 ∨ size2 = 0 then throw (fault .resizeZero)
    match x.order.indexOf? axis1, x.order.indexOf? axis2 with
    | some i, some j =>
      TensorType.make ((x.shape.set i (.known size1)).set j (.known size2)) x.order
    | _, _ => throw (fault (.resizeMissing axis1 axis2))

/-- The axes of the output along which each slice depends only on the same slice of the inputs. -/
def tensorwiseAxes (op : Operator α) (output : TensorType) : List Axis :=
  match op with
  | pointwise _ => output.order.axes
  | resize axis1 _ axis2 _ => output.order.axes.filter fun a => a ≠ axis1 && a ≠ axis2
  | _ => []

/-- The output tensor on inputs of these types, marked with its tensorwise axes. -/
def inferTensor (op : Operator α) (inputs : List TensorType) : GraphM (Tensor α) := do
  let type ← op.infer inputs
  return { type, marks := (op.tensorwiseAxes type).map .tensorwise }

/-- The operator can be replaced by its value once all inputs are constants. -/
def canFold (_op : Operator α) (output : TensorType) : Bool := output.isConcrete

end Operator

end TensorCompiler
