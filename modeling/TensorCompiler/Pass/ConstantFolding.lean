import TensorCompiler.Pass.Basic
import TensorCompiler.Operator.Evaluate
/-!
# Constant folding

An operator whose inputs are all constants is evaluated at once and its output becomes a
constant. Operators are visited in topological order, so one pass folds whole chains.
-/

namespace TensorCompiler

/-- Types and data of tensors that are all constants. -/
def constantArguments? {α : Type} (tensors : List (Tensor α)) :
    Option (List (TensorType × Array α)) :=
  tensors.mapM fun t => t.data.map (t.type, ·)

namespace PassM

/-- Folds an operator on constants into a constant. -/
def foldConstant {α : Type} [Scalar α] (o : OpId) : PassM α Bool := do
  let g ← graph
  let node ← g.operator o
  let inputs ← g.inputsOf o
  let some arguments := constantArguments? (← g.tensors inputs) | return false
  let output ← g.tensor node.output
  if !node.op.canFold output.type then return false
  let data ← node.op.evaluate arguments output.type
  let folded ← output.fold data
  removeOperator o
  let v ← addVariable folded
  replaceVariable node.output v
  return true

end PassM

/-- Folds every operator on constants. -/
def foldConstants {α : Type} [Scalar α] : Pass (PassM α) where
  name := "constant_folding"
  run := PassM.sweep PassM.foldConstant

end TensorCompiler
