import TensorCompiler.Kernel.Linear
import TensorCompiler.Pass.TextureLimit
/-!
# Fragment shaders

A kernel is a fragment shader in GLSL ES 3.00. Every variable is a texture, filled row by row, and
a kernel renders the texture of its output: each fragment computes the scalars of its texel. The
tables of a kernel are uniforms of four components, which limits the rank of the loop.
-/

namespace TensorCompiler.Glsl

open Request

variable {α : Type}

/-- The highest rank that a kernel can iterate. -/
def maxRank : Nat := 4

/-- What is prepared for a graph. -/
structure Target where
  layout : TextureLayout
  /-- Scalars in a texel. -/
  channels : Nat

/-- The texture of a variable. -/
def Target.texture (t : Target) (v : VarId) : Except GenerateError TextureAllocation :=
  match t.layout.get? v with
  | some a => .ok a
  | none => .error (.unplaced v)

/-- The value of a pointwise operator on the operands `v0`, `v1` and `v2`. -/
def expression : Pointwise α → Line
  | .add => ["v0 + v1"]
  | .mul => ["v0 * v1"]
  | .greater => ["(v0 > v1) ? 1.0 : 0.0"]
  | .greaterEqual => ["(v0 >= v1) ? 1.0 : 0.0"]
  | .affine .. => ["v0 * (", loadBuffer "scale", ") + (", loadBuffer "bias", ")"]
  | .select => ["(v0 != 0.0) ? v1 : v2"]

/-- The name of the uniform with the extent of an operand's texture. -/
def textureName (name : String) : String := name ++ "_texture"

/-- The first lines of every kernel. -/
def header : List Line :=
  [["#version 300 es"],
    ["precision highp float;"],
    ["precision highp int;"],
    ["// ", funcName]]

/-- The uniforms of an operand that is read. -/
def sampled (name : String) : List Line :=
  [[uniform "sampler2D" name], [uniform "ivec2" (textureName name)]]

/-- A table with an entry for each axis. -/
def axisTable (name : String) : Line := [uniform "ivec4" name]

/-- Reads a scalar of a texture. -/
def fetch : List Line :=
  [[],
    ["out vec4 fragment;"],
    [],
    ["const int CHANNELS = ", loadBuffer "channels", ";"],
    [],
    ["float fetch(sampler2D tex, ivec2 size, int index) \x7b"],
    ["    int texel = index / CHANNELS;"],
    ["    vec4 value = texelFetch(tex, ivec2(texel % size.x, texel / size.x), 0);"],
    ["    return value[index % CHANNELS];"],
    ["\x7d"]]

/-- Begins the main function, up to the loop over the scalars of a texel. Each round computes
`result[k]` from the scalar index `i`. -/
def mainBegin : List Line :=
  [[],
    ["void main() \x7b"],
    ["    ivec2 pixel = ivec2(gl_FragCoord.xy);"],
    ["    int texel = pixel.y * y_texture.x + pixel.x;"],
    ["    vec4 result = vec4(0.0);"],
    ["    for (int k = 0; k < CHANNELS; k++) \x7b"],
    ["        int i = texel * CHANNELS + k;"],
    ["        if (i >= y_size) \x7b"],
    ["            break;"],
    ["        \x7d"]]

/-- Ends the main function. -/
def mainEnd : List Line :=
  [["    \x7d"],
    ["    fragment = result;"],
    ["\x7d"]]

/-- The head of the loop over the axes, innermost first. -/
def axisLoop : Line := [s!"        for (int d = {maxRank - 1}; d >= 0; d--) \x7b"]

/-- The uniforms that every kernel has, under the name of the table with the loop's extents. -/
def outputUniforms (extents : String) : List Line :=
  [[uniform "ivec2" "y_texture"], axisTable extents, [uniform "int" "y_size"]]

/-- Walks the unified axes and accumulates an index for each operand. -/
def pointwiseTemplate (f : Pointwise α) : Template :=
  let names := f.kind.inputNames
  let start (x : String) : Line := [s!"        int {x}_index = 0;"]
  let advance (x : String) : Line := [s!"            {x}_index += c * {x}_stride[d];"]
  let read (operand : String × Nat) : Line :=
    let (x, i) := operand
    [s!"        float v{i} = fetch({x}, {x}_texture, {x}_index);"]
  .ofBlocks [
    header,
    names.flatMap fun x => sampled x ++ [axisTable (strideName x)],
    outputUniforms "shape",
    fetch,
    mainBegin,
    [["        int rem = i;"]],
    names.map start,
    [axisLoop,
      ["            int c = rem % shape[d];"],
      ["            rem /= shape[d];"]],
    names.map advance,
    [["        \x7d"]],
    names.zipIdx.map read,
    [.text "        result[k] = " :: expression f ++ [.text ";"]],
    mainEnd]

/-- Walks the output in its own order and looks every element up in the input. -/
def movementTemplate (op : Operator α) : Template :=
  let coordinate := op.coordinateRule.text fun name => s!"{name}[d]"
  .ofBlocks [
    header,
    sampled "x",
    [axisTable "x_stride"],
    op.movementNames.map axisTable,
    outputUniforms "y_shape",
    fetch,
    mainBegin,
    [["        int rem = i;"],
      ["        int x_index = 0;"],
      axisLoop,
      ["            int c = rem % y_shape[d];"],
      ["            rem /= y_shape[d];"],
      [s!"            x_index += ({coordinate}) * x_stride[d];"],
      ["        \x7d"],
      ["        result[k] = fetch(x, x_texture, x_index);"]],
    mainEnd]

/-- The extent of a texture as a table. -/
def extentBinding (a : TextureAllocation) : Binding α :=
  .ints [.known a.shape.width, .known a.shape.height]

/-- The bindings of an operand that is read. -/
def sampledBindings (t : Target) (name : String) (v : VarId) :
    Except GenerateError (List (String × Binding α)) := do
  return [(name, .sampler v), (textureName name, extentBinding (← t.texture v))]

/-- The bindings that every kernel has. -/
def outputBindings (c : KernelContext α Target) (y : Operand) :
    GenerateM (List (String × Binding α)) := do
  let size ← y.type.size
  return [
    ("channels", .int (.known c.target.channels)),
    ("y_texture", extentBinding (← c.target.texture y.var)),
    ("y_size", .int size)]

/-- The bindings of a pointwise kernel. -/
def pointwiseBindings (c : KernelContext α Target) (f : Pointwise α) :
    GenerateM (List (String × Binding α)) := do
  let y ← c.output
  let inputs ← c.inputs
  let order ← (← IterationOrder.unify y.type (inputs.map (·.type))).pad maxRank
  let output ← outputBindings c y
  let operands ← (f.kind.inputNames.zip (inputs.zip order.strides.tail)).mapM
    fun (name, x, strides) => do
      return (← sampledBindings c.target name x.var) ++ [(strideName name, .ints strides)]
  return output ++ [("shape", .ints order.shape)] ++ operands.flatten ++ f.parameterBindings

/-- The entry that fills up a table of a data movement. -/
def neutralEntry (table : String) : Nat := if table = "slice_begin" then 0 else 1

/-- The bindings of a data movement. -/
def movementBindings (c : KernelContext α Target) : GenerateM (List (String × Binding α)) := do
  let y ← c.output
  let x ← c.soleOperand
  let output ← outputBindings c y
  let shape ← padTable y.type.shape maxRank 1
  let strides ← padTable (← x.type.strides) maxRank 1
  let input ← sampledBindings c.target "x" x.var
  let tables ← (c.node.op.movementTables x.type).mapM fun (name, values) => do
    return (name, Binding.ints (← padTable values maxRank (neutralEntry name)))
  return output ++ [("y_shape", .ints shape), ("x_stride", .ints strides)] ++ input ++ tables

/-- Fills the template of a kernel. -/
def kernel [ScalarText α] (c : KernelContext α Target) (template : Template)
    (bindings : List (String × Binding α)) : GenerateM (Kernel α) := do
  let y ← c.output
  let texture ← c.target.texture y.var
  let injector : Injector α :=
    { dialect := .glsl, name := c.name, bindings := Bindings.ofList bindings }
  let injected ← injector.inject template
  return {
    name := c.name
    kind := c.node.op.kind
    source := injected.source
    bindings := injected.bindings
    patches := injected.patches
    launch := .fragment y.var texture.shape }

/-- One kernel for any operator. -/
def handler [ScalarText α] : Handler α Target := fun c => do
  match c.node.op with
  | .pointwise f => return [← kernel c (pointwiseTemplate f) (← pointwiseBindings c f)]
  | op => return [← kernel c (movementTemplate op) (← movementBindings c)]

/-- The backend that emits fragment shaders. -/
def backend : Backend α Target where
  kind := .webGl
  prepare g config := do
    g.checkTextures config.maxTextureSize config.channelMode config.textureShapes
    return { layout := ← TextureLayout.allocate g config, channels := config.channelMode.channels }
  layout t := .texture t.layout
  constants t g := t.layout.constants g

/-- The same handler for all kinds. -/
def handlers [ScalarText α] : Handlers α Target := fun _ => some handler

end TensorCompiler.Glsl
