import TensorCompiler.Pass.Basic
import TensorCompiler.Template.Error
/-!
# Backends and the errors of kernel generation
-/

namespace TensorCompiler

/-- The targets that kernels are generated for. -/
inductive BackendKind where
  | webAssembly | webGpu | webGl
  deriving DecidableEq, Repr

def BackendKind.text : BackendKind → String
  | webAssembly => "webassembly"
  | webGpu => "webgpu"
  | webGl => "webgl"

inductive GenerateError where
  | unsupportedOperator (backend : BackendKind) (kind : OpKind)
  | iterationRank (rank ceiling : Nat)
  | textureLimit (var : VarId) (fault : TextureFault)
  | duplicateKernelName (name : String)
  | unplaced (var : VarId)
  | graph (error : GraphError)
  | pass (error : PassError)
  | template (error : TemplateError)

namespace GenerateError

def message : GenerateError → String
  | unsupportedOperator backend kind =>
    backend.text ++ " has no handler for operator " ++ kind.text
  | iterationRank rank ceiling =>
    s!"resource limit exceeded: iteration rank {rank} exceeds the ceiling of {ceiling}"
  | textureLimit v fault => "resource limit exceeded: " ++ v.text ++ ": " ++ fault.text
  | duplicateKernelName name => "kernel name " ++ name ++ " is not unique"
  | unplaced v => "variable " ++ v.text ++ " has no placement"
  | graph e => e.message
  | pass e => e.message
  | template e => e.message

/-- A failed check of the graph is a fault of generation; a texture beyond the limit counts as a
limit of the backend. -/
def ofPass : PassError → GenerateError
  | .textureLimit v fault => textureLimit v fault
  | e => pass e

/-- A failed injection is a fault of the template, except that index arithmetic cannot compute an
address beyond 64 bits. -/
def ofAddressing : TemplateError → GenerateError
  | .overflow value =>
    if value < wordLimit then template (.overflow value) else graph .indexFault
  | e => template e

end GenerateError

/-- Kernel generation, which may create symbols. -/
abbrev GenerateM := ExceptT GenerateError FreshM

namespace GenerateM

variable {β : Type}

instance : MonadLift GraphM GenerateM :=
  ⟨fun x => ExceptT.mk do return (← x.run).mapError .graph⟩

instance : MonadLift (Except GraphError) GenerateM :=
  ⟨fun x => ExceptT.mk (pure (x.mapError .graph))⟩

instance : MonadLift (Except TemplateError) GenerateM :=
  ⟨fun x => ExceptT.mk (pure (x.mapError .template))⟩

instance : MonadLift (Except PassError) GenerateM :=
  ⟨fun x => ExceptT.mk (pure (x.mapError .ofPass))⟩

instance : MonadLift (Except GenerateError) GenerateM := ⟨fun x => ExceptT.mk (pure x)⟩

end GenerateM

end TensorCompiler
