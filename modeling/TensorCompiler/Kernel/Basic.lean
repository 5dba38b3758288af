import TensorCompiler.Kernel.Error
import TensorCompiler.Layout.Memory
import TensorCompiler.Layout.Texture
import TensorCompiler.Template.Inject
/-!
# Kernels and their generation

A backend prepares a layout for a graph and then has one handler for each operator kind, which
turns an operator into kernels. `Backend.generate` emits the kernels of all operators that the
outputs depend on in topological order, with distinct names, and together with the layout and the
constants.
-/

namespace TensorCompiler

/-- How a kernel is started. -/
inductive Launch where
  /-- Called once on one thread. -/
  | serial
  /-- A dispatch of workgroups whose threads stride over the output. -/
  | compute (workgroups workgroupSize : Nat)
  /-- A pass over the texels of the output. -/
  | fragment (output : VarId) (shape : TextureShape)
  deriving DecidableEq, Repr

/-- A piece of source with all that is needed to run it. -/
structure Kernel (α : Type) where
  name : String
  kind : OpKind
  source : String
  table : MetaTable := {}
  bindings : List (KernelBinding α) := []
  patches : List Patch := []
  /-- Elements of the dynamic space. -/
  dynamicSize : Dim := .known 0
  launch : Launch := .serial

/-- The placement of all variables. -/
inductive Layout where
  | memory (layout : MemoryLayout)
  | texture (layout : TextureLayout)

/-- All that a backend emits for a graph. -/
structure Descriptor (α : Type) where
  backend : BackendKind
  /-- In topological order of their operators. -/
  kernels : List (Kernel α)
  layout : Layout
  /-- The data of the constants, where the layout has them. -/
  constants : Array α

/-- A target of kernel generation, with what it prepares for a graph. -/
structure Backend (α τ : Type) where
  kind : BackendKind
  /-- Checks the limits of the platform and lays the graph out. -/
  prepare : Graph α → Config → GenerateM τ
  layout : τ → Layout
  constants : τ → Graph α → Except GraphError (Array α)

/-- An operand of a kernel. -/
structure Operand where
  var : VarId
  type : TensorType

/-- What a handler sees of an operator. -/
structure KernelContext (α τ : Type) where
  target : τ
  graph : Graph α
  config : Config
  id : OpId
  node : Node α

namespace KernelContext

variable {α τ : Type}

/-- The name that the kernels of the operator are named after. -/
def name (c : KernelContext α τ) : String := c.node.op.kind.text ++ s!"_{c.id.index}"

/-- A variable with its type. -/
def operand (c : KernelContext α τ) (v : VarId) : Except GraphError Operand := do
  return ⟨v, (← c.graph.tensor v).type⟩

def inputs (c : KernelContext α τ) : Except GraphError (List Operand) := do
  (← c.graph.inputsOf c.id).mapM c.operand

def output (c : KernelContext α τ) : Except GraphError Operand := do
  c.operand (← c.graph.resolve c.node.output)

end KernelContext

/-- Turns an operator into kernels. -/
abbrev Handler (α τ : Type) := KernelContext α τ → GenerateM (List (Kernel α))

/-- The handlers of a backend by operator kind. -/
abbrev Handlers (α τ : Type) := OpKind → Option (Handler α τ)

namespace Handlers

variable {α τ : Type}

/-- No handlers at all. -/
def empty : Handlers α τ := fun _ => none

/-- Registers a handler, in place of an earlier one. -/
def insert (hs : Handlers α τ) (kind : OpKind) (h : Handler α τ) : Handlers α τ :=
  fun k => if k = kind then some h else hs k

end Handlers

/-- The first name that occurs a second time. -/
def firstRepeated? : (seen : List String) → List String → Option String
  | _, [] => none
  | seen, name :: names =>
    if name ∈ seen then some name else firstRepeated? (name :: seen) names

namespace Backend

variable {α τ : Type}

/-- The handler of every operator; the first operator without one is an error. -/
def assignHandlers (backend : Backend α τ) (handlers : Handlers α τ) (g : Graph α)
    (ops : List OpId) : GenerateM (List (OpId × Node α × Handler α τ)) :=
  ops.mapM fun o => do
    let node ← g.operator o
    match handlers node.op.kind with
    | some h => return (o, node, h)
    | none => throw (.unsupportedOperator backend.kind node.op.kind)

/-- Lays a graph out and emits its kernels. -/
def generate (backend : Backend α τ) (handlers : Handlers α τ) (g : Graph α) (config : Config) :
    GenerateM (Descriptor α) := do
  let target ← backend.prepare g config
  let work ← backend.assignHandlers handlers g (← g.topologicalOrder)
  let kernels ← work.mapM fun (id, node, h) => h { target, graph := g, config, id, node }
  let kernels := kernels.flatten
  if let some name := firstRepeated? [] (kernels.map (·.name)) then
    throw (.duplicateKernelName name)
  return {
    backend := backend.kind
    kernels
    layout := backend.layout target
    constants := ← backend.constants target g }

end Backend

end TensorCompiler
