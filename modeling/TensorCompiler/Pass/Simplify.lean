import TensorCompiler.Config
import TensorCompiler.Pass.AxisUnification
import TensorCompiler.Pass.ConstantFolding
import TensorCompiler.Pass.RedundantReinterpret
import TensorCompiler.Pass.SelectArithmetic
/-!
# The simplification pipeline

The passes that every graph goes through before kernels are generated, repeated until the graph
settles.
-/

namespace TensorCompiler

/-- The passes of one round, in their order. -/
def simplifyPasses {α : Type} [Scalar α] (config : Config) : List (Pass (PassM α)) :=
  [unifyAxes config.axisHints config.batchFirst, dropReinterprets, foldConstants,
    expandSelects]

/-- Repeats the passes until the graph settles. -/
def simplify {α : Type} [Scalar α] (config : Config) : Pass (PassM α) :=
  Pass.group "simplify" (simplifyPasses config) (some config.maxIterations)

end TensorCompiler
