import TensorCompiler.Operator.Basic
import TensorCompiler.Tensor.Basic
/-!
# Evaluation

The reference semantics of operators on concrete data. Every output element is found by walking
the output coordinates in row-major order and reading the inputs at coordinates computed from
them. Index arithmetic is that of 64-bit words and fails instead of wrapping around.
-/

namespace TensorCompiler

/-- The coordinates of the element at a row-major position. -/
def unravel : List Nat → Nat → List Nat
  | [], _ => []
  | n :: shape, i => i / shape.foldr (· * ·) 1 % n :: unravel shape i

/-- Row-major strides in 64-bit words. -/
def wordStrides : List Nat → Option (List Nat)
  | [] => some []
  | [_] => some [1]
  | _ :: n :: shape => do
    let inner ← wordStrides (n :: shape)
    let outer ← Arith.mul.apply (inner.headD 1) n
    return outer :: inner

/-- One axis of an input, as an output coordinate is sent to it. -/
structure SourceAxis where
  axis : Axis
  /-- Position of the axis in the input's order. -/
  position : Nat
  size : Nat
  stride : Nat

/-- Where an output coordinate reads along one input axis. -/
abbrev CoordinateMap := SourceAxis → (coordinate extent : Nat) → Option Nat

namespace CoordinateMap

/-- Reads the same coordinate, wrapping around at the input's size. -/
def wrap : CoordinateMap := fun s c _ => Arith.rem.apply c s.size

/-- Reads the element that a strided range reaches at the coordinate. -/
def range (start step : List Nat) : CoordinateMap := fun s c _ => do
  let first ← start[s.position]?
  let stride ← step[s.position]?
  Arith.add.apply first (← Arith.mul.apply c stride)

/-- Reads the nearest element at or before the coordinate, along the two resized axes. -/
def scale (axis1 axis2 : Axis) : CoordinateMap := fun s c extent =>
  if s.axis = axis1 ∨ s.axis = axis2 then do
    Arith.div.apply (← Arith.mul.apply c s.size) extent
  else
    some c

end CoordinateMap

/-- The input position read at an output coordinate. Output axes that the input lacks contribute
nothing. -/
def sourceIndex (map : CoordinateMap) (sources : List SourceAxis) :
    (walk : List (Axis × Nat × Nat)) → Option Nat :=
  List.foldlM (fun index (axis, coordinate, extent) =>
    match sources.find? (·.axis = axis) with
    | none => some index
    | some s => do
      let c ← map s coordinate extent
      Arith.add.apply index (← Arith.mul.apply c s.stride)) 0

/-- Reads an input at the mapped coordinate for every element of the output. -/
def gather {α : Type} (map : CoordinateMap) (shape : List Nat) (order : Order)
    (input : TensorType × Array α) : Except GraphError (Array α) := do
  let (type, data) := input
  let sizes ← type.concreteShape
  let size := sizes.foldl (· * ·) 1
  if data.size ≠ size then throw (.dataLength size data.size)
  let some strides := wordStrides sizes | throw .indexFault
  let sources := (type.order.axes.zipIdx.zip (sizes.zip strides)).map
    fun ((axis, position), size, stride) => SourceAxis.mk axis position size stride
  let read (i : Nat) : Except GraphError α :=
    match sourceIndex map sources (order.axes.zip ((unravel shape i).zip shape)) with
    | none => throw .indexFault
    | some index =>
      match data[index]? with
      | some x => .ok x
      | none => throw (.dataLength (index + 1) data.size)
  (Array.range (shape.foldl (· * ·) 1)).mapM read

/-- Combines the elements at each position of equally long columns. -/
def Pointwise.combine {α : Type} [Scalar α] (f : Pointwise α) (size : Nat)
    (columns : List (Array α)) : Except GraphError (Array α) :=
  (Array.range size).mapM fun i =>
    match (columns.mapM (·[i]?)).bind f.eval? with
    | some y => .ok y
    | none => throw .indexFault

namespace Operator

variable {α : Type}

/-- The first input; without one there is nothing to read. -/
def firstInput {β : Type} (inputs : List β) : Except GraphError β :=
  match inputs with
  | x :: _ => .ok x
  | [] => throw .indexFault

/-- The output data on concrete inputs. -/
def evaluate [Scalar α] (op : Operator α) (inputs : List (TensorType × Array α))
    (output : TensorType) : Except GraphError (Array α) := do
  let shape ← output.concreteShape
  match op with
  | pointwise f =>
    let columns ← inputs.mapM (gather .wrap shape output.order)
    f.combine (shape.foldl (· * ·) 1) columns
  | tile _ => gather .wrap shape output.order (← firstInput inputs)
  | slice start _ step => gather (.range start step) shape output.order (← firstInput inputs)
  | reinterpret .. => return (← firstInput inputs).2
  | resize axis1 _ axis2 _ =>
    gather (.scale axis1 axis2) shape output.order (← firstInput inputs)

end Operator

end TensorCompiler
