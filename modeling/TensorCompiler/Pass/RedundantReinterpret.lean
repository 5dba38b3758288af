import TensorCompiler.Pass.Basic
/-!
# Redundant reinterpretations

A reinterpretation whose two orders coincide computes its input. Axis unification leaves such
operators behind when it merges the two orders.
-/

namespace TensorCompiler

namespace PassM

/-- Drops an operator that reinterprets an order as itself, in favour of its input. -/
def dropReinterpret {α : Type} (o : OpId) : PassM α Bool := do
  let g ← graph
  let node ← g.operator o
  let .reinterpret source target := node.op | return false
  if source ≠ target then return false
  let [input] ← g.inputsOf o | return false
  removeOperator o
  replaceVariable node.output input
  return true

end PassM

/-- Drops every operator that reinterprets an order as itself. -/
def dropReinterprets {α : Type} : Pass (PassM α) where
  name := "remove_redundant_reinterpret"
  run := PassM.sweep PassM.dropReinterpret

end TensorCompiler
