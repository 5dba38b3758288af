import TensorCompiler.Pass.Basic
/-!
# Selections as arithmetic

A selection between `a` and `b` by the outcome of a comparison is `c * a + (1 - c) * b`, because
a comparison yields zeros and ones. The exchange is made only where the arithmetic form has the
same shape and order as the selection.
-/

namespace TensorCompiler

namespace Operator

variable {α : Type}

/-- Turns zeros into ones and ones into zeros. -/
def invert [Scalar α] : Operator α := pointwise (.affine Scalar.negOne Scalar.one)

/-- The operator yields zeros and ones only. -/
def isComparison : Operator α → Bool
  | pointwise .greater | pointwise .greaterEqual => true
  | _ => false

/-- The type of the arithmetic form of a selection. -/
def inferSelectArithmetic [Scalar α] (cond a b : TensorType) : GraphM TensorType := do
  let chosen ← (pointwise .mul : Operator α).infer [cond, a]
  let inverse ← (invert : Operator α).infer [cond]
  let other ← (pointwise .mul : Operator α).infer [inverse, b]
  (pointwise .add : Operator α).infer [chosen, other]

end Operator

namespace PassM

/-- Expands one selection by the outcome of a comparison. -/
def expandSelect {α : Type} [Scalar α] (o : OpId) : PassM α Bool := do
  let g ← graph
  let node ← g.operator o
  let .pointwise .select := node.op | return false
  let [cond, a, b] ← g.inputsOf o | return false
  let some producer := g.producer cond | return false
  if !(← g.operator producer).op.isComparison then return false
  let form ← Operator.inferSelectArithmetic (α := α)
    (← g.tensor cond).type (← g.tensor a).type (← g.tensor b).type
  let current := (← g.tensor node.output).type
  if form.order ≠ current.order || form.shape != current.shape then return false
  removeOperator o
  let chosen ← addOp (.pointwise .mul) [cond, a]
  let inverse ← addOp .invert [cond]
  let other ← addOp (.pointwise .mul) [inverse, b]
  let sum ← addOp (.pointwise .add) [chosen, other]
  replaceVariable node.output sum
  return true

end PassM

/-- Expands every selection by the outcome of a comparison. -/
def expandSelects {α : Type} [Scalar α] : Pass (PassM α) where
  name := "replace_select"
  run := PassM.sweep PassM.expandSelect

end TensorCompiler
