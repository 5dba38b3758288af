import TensorCompiler.Kernel.CLike
import TensorCompiler.Kernel.Glsl
import TensorCompiler.Kernel.Wgsl
import TensorCompiler.Pass.Simplify
/-!
# Compilation

`Graph.generate` emits the kernels of a graph for one backend. `Graph.compile` simplifies and
validates a graph once and then generates for several backends, each of which may fail on its own.
-/

namespace TensorCompiler

/-- Why no backend can be served. -/
inductive CompileError where
  /-- The graph has a circle, or is invalid after simplification. -/
  | graph (error : GraphError)
  /-- Simplification failed. -/
  | pass (error : PassError)

def CompileError.message : CompileError → String
  | graph e => e.message
  | pass e => e.message

/-- Compilation, which may create symbols. -/
abbrev CompileM := ExceptT CompileError FreshM

namespace Graph

variable {α : Type}

/-- The kernels of a graph for one backend. -/
def generate [Scalar α] [ScalarText α] (g : Graph α) (kind : BackendKind) (config : Config) :
    GenerateM (Descriptor α) :=
  match kind with
  | .webAssembly => CLike.backend.generate CLike.handlers g config
  | .webGpu => Wgsl.backend.generate Wgsl.handlers g config
  | .webGl => Glsl.backend.generate Glsl.handlers g config

/-- The simplified form of a graph, checked for circles before and for free axes after. -/
def prepare [Scalar α] (g : Graph α) (config : Config) : CompileM (Graph α) :=
  ExceptT.mk do
    match g.topologicalOrder with
    | .error e => return .error (.graph e)
    | .ok _ =>
      let (result, g) ← (simplify config).run.run.run g
      match result with
      | .error e => return .error (.pass e)
      | .ok _ => return (g.validate.map fun _ => g).mapError .graph

/-- Compiles a graph for each of the backends. -/
def compile [Scalar α] [ScalarText α] (g : Graph α) (backends : List BackendKind)
    (config : Config) : CompileM (List (BackendKind × Except GenerateError (Descriptor α))) := do
  let g ← g.prepare config
  backends.mapM fun kind => do return (kind, ← ExceptT.lift (g.generate kind config).run)

end Graph

end TensorCompiler
