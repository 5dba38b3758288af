import TensorCompiler.Kernel.Basic
import TensorCompiler.Kernel.Iteration
import TensorCompiler.Kernel.Movement
/-!
# Kernels over linear memory

What the backends that address memory by offsets have in common: the bindings of their kernels.
They differ in the templates and in the dialect.
-/

namespace TensorCompiler

namespace MemoryLayout

/-- The place of a variable. -/
def placement (layout : MemoryLayout) (v : VarId) : Except GenerateError Allocation :=
  match layout.get? v with
  | some a => .ok a
  | none => .error (.unplaced v)

end MemoryLayout

/-- The name of an operand's stride table. -/
def strideName (name : String) : String := name ++ "_stride"

/-- The bindings of the scalar parameters of a pointwise operator. -/
def Pointwise.parameterBindings {α : Type} : Pointwise α → List (String × Binding α)
  | affine scale bias => [("scale", .float scale), ("bias", .float bias)]
  | _ => []

/-- The only input of a data movement. -/
def KernelContext.soleOperand {α τ : Type} (c : KernelContext α τ) : Except GraphError Operand := do
  Operator.soleInput c.node.op.kind (← c.inputs)

namespace Linear

variable {α τ : Type}

/-- The bindings of a pointwise kernel: the loop, and for each operand its place and strides. -/
def pointwiseBindings (layout : MemoryLayout) (c : KernelContext α τ) (f : Pointwise α) :
    GenerateM (List (String × Binding α)) := do
  let y ← c.output
  let inputs ← c.inputs
  let order ← IterationOrder.unify y.type (inputs.map (·.type))
  let output ← layout.placement y.var
  let size ← order.size
  let operands ← (f.kind.inputNames.zip (inputs.zip order.strides.tail)).mapM
    fun (name, x, strides) => do
      let place ← layout.placement x.var
      return [(name, .buffer place), (strideName name, .ints strides)]
  return [
    ("y", .buffer output),
    ("y_stride", .ints (order.strides.headD [])),
    ("shape", .ints order.shape),
    ("size", .int size),
    ("rank", .int (.known order.rank))] ++ operands.flatten ++ f.parameterBindings

/-- The bindings of a data movement: the loop over the output, the places of both operands, the
strides of the input and the tables of the coordinate rule. -/
def movementBindings (layout : MemoryLayout) (c : KernelContext α τ) :
    GenerateM (List (String × Binding α)) := do
  let y ← c.output
  let x ← c.soleOperand
  let output ← layout.placement y.var
  let input ← layout.placement x.var
  return [
    ("y", .buffer output),
    ("x", .buffer input),
    ("y_shape", .ints y.type.shape),
    ("x_stride", .ints (← x.type.strides)),
    ("size", .int (← y.type.size)),
    ("rank", .int (.known y.type.rank))] ++
    (c.node.op.movementTables x.type).map fun (name, values) => (name, .ints values)

end Linear

/-- The lines, or an empty line if there are none. -/
def orBlankLine (lines : List Line) : List Line :=
  if lines.isEmpty then [[]] else lines

end TensorCompiler
