import TensorCompiler.Kernel.Error
import TensorCompiler.Operator.Infer
/-!
# Iteration orders

One loop walks an output and its operands, whose axes may come in different orders. The unified
axes are those of the output followed by those found in operands only, and every operand has a
stride along each of them, which is zero where the operand is broadcast.
-/

namespace TensorCompiler

/-- An axis sequence shared by an output and its operands. -/
structure IterationOrder where
  /-- The unified axes; padding has none. -/
  axes : List (Option Axis)
  /-- The extent of the loop along each axis. -/
  shape : List Dim
  /-- For the output and then each operand, the stride along each axis. -/
  strides : List (List Dim)

/-- Fails if a rank is beyond the ceiling. -/
def checkRank (rank ceiling : Nat) : Except GenerateError Unit :=
  if rank ≤ ceiling then .ok () else .error (.iterationRank rank ceiling)

/-- Fills a table up with a neutral entry. -/
def padTable (values : List Dim) (ceiling neutral : Nat) : Except GenerateError (List Dim) := do
  checkRank values.length ceiling
  return values ++ List.replicate (ceiling - values.length) (.known neutral)

namespace IterationOrder

def rank (order : IterationOrder) : Nat := order.axes.length

/-- The number of iterations. -/
def size (order : IterationOrder) : FreshM Dim := Dim.product order.shape

/-- The dimensions of an output, and behind them those along other axes of its operands. Each
axis has the extent it is first found with, in operands of higher rank before others. -/
def unifiedDims (output : TensorType) (inputs : List TensorType) : List (Axis × Dim) :=
  ((TensorType.byRank inputs).flatMap TensorType.dims).foldl
    (fun dims entry => if (dims.lookup entry.1).isSome then dims else dims ++ [entry]) output.dims

/-- The stride of an operand along one unified axis. -/
def strideAlong (x : TensorType) (entry : Axis × Dim) : FreshM Dim :=
  match x.dimOf? entry.1 with
  | some size =>
    if size.is 1 && !entry.2.is 1 then pure (.known 0)
    else return (← x.strideOf? entry.1).getD (.known 0)
  | none => pure (.known 0)

/-- The order that merges an output with its operands. -/
def unify (output : TensorType) (inputs : List TensorType) : FreshM IterationOrder := do
  let dims := unifiedDims output inputs
  let strides ← (output :: inputs).mapM fun x => dims.mapM (strideAlong x)
  return { axes := dims.map (some ·.1), shape := dims.map (·.2), strides }

/-- Pads every table with ones up to the ceiling. -/
def pad (order : IterationOrder) (ceiling : Nat) : Except GenerateError IterationOrder := do
  checkRank order.rank ceiling
  return {
    axes := order.axes ++ List.replicate (ceiling - order.rank) none
    shape := ← padTable order.shape ceiling 1
    strides := ← order.strides.mapM fun s => padTable s ceiling 1 }

end IterationOrder

end TensorCompiler
