import TensorCompiler.Kernel.Linear
/-!
# Compute shaders

A kernel is a compute shader in WGSL. Binding 0 is `data_buffer`, the static space followed by
the dynamic space, and binding 1 is `meta_buffer`. The threads stride over the output, so any
number of workgroups covers it.
-/

namespace TensorCompiler.Wgsl

open Request

variable {α : Type}

/-- The workgroups of a dispatch. -/
def workgroups : Nat := 8

/-- What is prepared for a graph. -/
structure Target where
  layout : MemoryLayout
  workgroupSize : Nat

/-- The value of a pointwise operator on the operands `v0`, `v1` and `v2`. -/
def expression : Pointwise α → Line
  | .add => ["v0 + v1"]
  | .mul => ["v0 * v1"]
  | .greater => ["select(0.0, 1.0, v0 > v1)"]
  | .greaterEqual => ["select(0.0, 1.0, v0 >= v1)"]
  | .affine .. => ["v0 * (", loadBuffer "scale", ") + (", loadBuffer "bias", ")"]
  | .select => ["select(v2, v1, v0 != 0.0)"]

/-- The first lines of every kernel. -/
def header : List Line :=
  [["@group(0) @binding(0) var<storage, read_write> data_buffer: array<f32>;"],
    ["@group(0) @binding(1) var<storage, read> meta_buffer: array<i32>;"],
    [],
    ["@compute @workgroup_size(", loadBuffer "workgroup_size", ")"],
    ["fn ", funcName, "(@builtin(global_invocation_id) invocation: vec3<u32>, ",
      "@builtin(num_workgroups) groups: vec3<u32>) \x7b"],
    ["    let grid = i32(groups.x) * ", loadBuffer "workgroup_size", ";"]]

/-- Names the value of a binding. -/
def declare (name : String) : Line := [s!"    let {name} = ", loadBuffer name, ";"]

/-- The head of the loop over the elements of a thread. -/
def loop : Line := ["    for (var i = i32(invocation.x); i < size; i += grid) \x7b"]

/-- Walks the unified axes and accumulates an index for each operand. -/
def pointwiseTemplate (f : Pointwise α) : Template :=
  let names := f.kind.inputNames
  let operands := "y" :: names
  let start (x : String) : Line := [s!"        var {x}_index = 0;"]
  let advance (x : String) : Line :=
    [s!"            {x}_index += c * meta_buffer[{x}_stride + d];"]
  let read (operand : String × Nat) : Line :=
    let (x, i) := operand
    [s!"        let v{i} = data_buffer[{x} + {x}_index];"]
  .ofBlocks [
    header,
    operands.flatMap fun x => [declare x, declare (strideName x)],
    [declare "shape",
      declare "size",
      declare "rank",
      [],
      loop,
      ["        var rem = i;"]],
    operands.map start,
    [["        for (var d = rank - 1; d >= 0; d--) \x7b"],
      ["            let c = rem % meta_buffer[shape + d];"],
      ["            rem = rem / meta_buffer[shape + d];"]],
    operands.map advance,
    [["        \x7d"]],
    names.zipIdx.map read,
    [.text "        data_buffer[y + y_index] = " :: expression f ++ [.text ";"],
      ["    \x7d"],
      ["\x7d"]]]

/-- Walks the output in its own order and looks every element up in the input. -/
def movementTemplate (op : Operator α) : Template :=
  let coordinate := op.coordinateRule.text fun name => s!"meta_buffer[{name} + d]"
  .ofBlocks [
    header,
    [declare "y",
      declare "x",
      declare "y_shape",
      declare "x_stride"],
    orBlankLine (op.movementNames.map declare),
    [declare "size",
      declare "rank",
      [],
      loop,
      ["        var rem = i;"],
      ["        var x_index = 0;"],
      ["        for (var d = rank - 1; d >= 0; d--) \x7b"],
      ["            let c = rem % meta_buffer[y_shape + d];"],
      ["            rem = rem / meta_buffer[y_shape + d];"],
      [s!"            x_index += ({coordinate}) * meta_buffer[x_stride + d];"],
      ["        \x7d"],
      ["        data_buffer[y + i] = data_buffer[x + x_index];"],
      ["    \x7d"],
      ["\x7d"]]]

/-- Fills the template of a kernel, which addresses both spaces in one buffer. -/
def kernel [ScalarText α] (c : KernelContext α Target) (template : Template)
    (bindings : List (String × Binding α)) : Except GenerateError (Kernel α) := do
  let injector : Injector α := {
    dialect := .wgsl c.target.layout.staticSize
    name := c.name
    bindings := Bindings.ofList
      (("workgroup_size", .int (.known c.target.workgroupSize)) :: bindings) }
  let injected ← (injector.inject template).mapError .ofAddressing
  return {
    name := c.name
    kind := c.node.op.kind
    source := injected.source
    table := injected.table
    bindings := injected.bindings
    patches := injected.patches
    dynamicSize := c.target.layout.dynamicSize
    launch := .compute workgroups c.target.workgroupSize }

/-- One kernel for any operator. -/
def handler [ScalarText α] : Handler α Target := fun c => do
  match c.node.op with
  | .pointwise f =>
    let bindings ← Linear.pointwiseBindings c.target.layout c f
    return [← kernel c (pointwiseTemplate f) bindings]
  | op =>
    let bindings ← Linear.movementBindings c.target.layout c
    return [← kernel c (movementTemplate op) bindings]

/-- The backend that emits compute shaders. -/
def backend [Scalar α] : Backend α Target where
  kind := .webGpu
  prepare g config := do
    return { layout := ← MemoryLayout.allocate g, workgroupSize := Nat.max config.workgroupSize 1 }
  layout t := .memory t.layout
  constants t g := t.layout.constants g

/-- The same handler for all kinds. -/
def handlers [ScalarText α] : Handlers α Target := fun _ => some handler

end TensorCompiler.Wgsl
