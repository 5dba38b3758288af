import TensorCompiler.Kernel.Linear
/-!
# C-like kernels

A kernel is a function `void name(const int *meta_buffer)` that also sees the pointers
`static_buffer` and `dynamic_buffer` of the runtime. It walks all elements on one thread.
-/

namespace TensorCompiler.CLike

open Request

variable {α : Type}

/-- The value of a pointwise operator on the operands `v0`, `v1` and `v2`. -/
def expression : Pointwise α → Line
  | .add => ["v0 + v1"]
  | .mul => ["v0 * v1"]
  | .greater => ["(v0 > v1) ? 1.0f : 0.0f"]
  | .greaterEqual => ["(v0 >= v1) ? 1.0f : 0.0f"]
  | .affine .. => ["v0 * ", loadBuffer "scale", " + ", loadBuffer "bias"]
  | .select => ["(v0 != 0.0f) ? v1 : v2"]

/-- The first lines of every kernel. -/
def header : List Line :=
  [["void ", funcName, "(const int *meta_buffer)"], ["\x7b"]]

/-- Declares a table of integers. -/
def declareTable (name : String) : Line :=
  [s!"    const int *{name} = ", loadBuffer name, ";"]

/-- Declares an integer. -/
def declareInt (name : String) : Line :=
  [s!"    const int {name} = ", loadBuffer name, ";"]

/-- Walks the unified axes and accumulates an index for each operand. -/
def pointwiseTemplate (f : Pointwise α) : Template :=
  let names := f.kind.inputNames
  let declare (x : String) : List Line :=
    [[s!"    const float *{x} = ", loadBuffer x, ";"], declareTable (strideName x)]
  let indices := ", ".intercalate (("y" :: names).map fun x => s!"{x}_index = 0")
  let advance (x : String) : Line := [s!"            {x}_index += c * {x}_stride[d];"]
  let read (operand : String × Nat) : Line :=
    let (x, i) := operand
    [s!"        const float v{i} = {x}[{x}_index];"]
  .ofBlocks [
    header,
    [["    float *y = ", loadBuffer "y", ";"]],
    names.flatMap declare,
    [declareTable "y_stride",
      declareTable "shape",
      declareInt "size",
      declareInt "rank",
      [],
      ["    for (int i = 0; i < size; i++) \x7b"],
      ["        int rem = i;"],
      [s!"        int {indices};"],
      ["        for (int d = rank - 1; d >= 0; d--) \x7b"],
      ["            const int c = rem % shape[d];"],
      ["            rem /= shape[d];"]],
    ("y" :: names).map advance,
    [["        \x7d"]],
    names.zipIdx.map read,
    [.text "        y[y_index] = " :: expression f ++ [.text ";"],
      ["    \x7d"],
      ["\x7d"]]]

/-- Walks the output in its own order and looks every element up in the input. -/
def movementTemplate (op : Operator α) : Template :=
  let coordinate := op.coordinateRule.text fun name => s!"{name}[d]"
  .ofBlocks [
    header,
    [["    float *y = ", loadBuffer "y", ";"],
      ["    const float *x = ", loadBuffer "x", ";"],
      declareTable "y_shape",
      declareTable "x_stride"],
    orBlankLine (op.movementNames.map declareTable),
    [declareInt "size",
      declareInt "rank",
      [],
      ["    for (int i = 0; i < size; i++) \x7b"],
      ["        int rem = i;"],
      ["        int x_index = 0;"],
      ["        for (int d = rank - 1; d >= 0; d--) \x7b"],
      ["            const int c = rem % y_shape[d];"],
      ["            rem /= y_shape[d];"],
      [s!"            x_index += ({coordinate}) * x_stride[d];"],
      ["        \x7d"],
      ["        y[i] = x[x_index];"],
      ["    \x7d"],
      ["\x7d"]]]

/-- Fills the template of a kernel. -/
def kernel [ScalarText α] (c : KernelContext α MemoryLayout) (template : Template)
    (bindings : List (String × Binding α)) : Except TemplateError (Kernel α) := do
  let injector : Injector α :=
    { dialect := .c, name := c.name, bindings := Bindings.ofList bindings }
  let injected ← injector.inject template
  return {
    name := c.name
    kind := c.node.op.kind
    source := injected.source
    table := injected.table
    bindings := injected.bindings
    patches := injected.patches
    dynamicSize := c.target.dynamicSize
    launch := .serial }

/-- One kernel for any operator. -/
def handler [ScalarText α] : Handler α MemoryLayout := fun c => do
  match c.node.op with
  | .pointwise f =>
    let bindings ← Linear.pointwiseBindings c.target c f
    return [← kernel c (pointwiseTemplate f) bindings]
  | op =>
    let bindings ← Linear.movementBindings c.target c
    return [← kernel c (movementTemplate op) bindings]

/-- The backend that emits C-like kernels. -/
def backend [Scalar α] : Backend α MemoryLayout where
  kind := .webAssembly
  prepare g _ := MemoryLayout.allocate g
  layout := .memory
  constants := MemoryLayout.constants

/-- The same handler for all kinds. -/
def handlers [ScalarText α] : Handlers α MemoryLayout := fun _ => some handler

end TensorCompiler.CLike
