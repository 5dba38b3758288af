import TensorCompiler.Compile
import TensorCompiler.Proofs.Buffers
/-!
# Execution of kernels

The source of a kernel spells out a loop over values that are bound to names. This module executes
the loop from what a loader sees: the bindings and the launch of every kernel, and the layout. The
memory of a linear backend is one array, the static space before the dynamic one; the other backend
keeps a texture for each variable. Whatever a kernel would read or write outside its bounds, and
every division by zero, makes the execution fail.

* `Kernel.element?`: the element that one round of the loop computes.
* `Kernel.RunsInMemory`: a kernel of a linear backend runs, in any order of its threads.
* `Kernel.render?`: a fragment kernel draws the texture of its output.
* `Descriptor.Executes`: all kernels run one after the other on the constants and the feeds.
-/

namespace TensorCompiler

/-! ## Values bound to names -/

namespace BoundValue

variable {α : Type}

/-- The integers of a value: written out, in the meta table, or in a uniform. -/
def ints? (table : MetaTable) : BoundValue α → Option (List Nat)
  | .literal n => some [n]
  | .table offset length =>
    if offset + length ≤ table.entries.length then
      some ((table.entries.drop offset).take length)
    else none
  | .uniform _ (.ints ns) => some ns
  | _ => none

def float? : BoundValue α → Option α
  | .float x => some x
  | .uniform _ (.floats [x]) => some x
  | _ => none

def buffer? : BoundValue α → Option Allocation
  | .buffer a => some a
  | _ => none

def sampler? : BoundValue α → Option VarId
  | .sampler v _ => some v
  | _ => none

end BoundValue

namespace Kernel

variable {α : Type}

/-- What the loader provides under a name. -/
def value? (k : Kernel α) (name : String) : Option (BoundValue α) :=
  (k.bindings.find? (·.name = name)).map (·.value)

def ints? (k : Kernel α) (name : String) : Option (List Nat) := do
  (← k.value? name).ints? k.table

def int? (k : Kernel α) (name : String) : Option Nat :=
  match k.ints? name with
  | some [n] => some n
  | _ => none

def float? (k : Kernel α) (name : String) : Option α := do (← k.value? name).float?

def buffer? (k : Kernel α) (name : String) : Option Allocation := do (← k.value? name).buffer?

def sampler? (k : Kernel α) (name : String) : Option VarId := do (← k.value? name).sampler?

end Kernel

/-! ## The loop over the axes -/

/-- The index of an operand at position `rem` of the loop: from the innermost axis outwards, the
coordinate is the remainder by the extent, and `part` says what it adds. -/
def axisWalk (shape : List Nat) (part : (axis coordinate : Nat) → Option Nat) :
    (axes : Nat) → (rem index : Nat) → Option Nat
  | 0, _, index => some index
  | d + 1, rem, index => do
    let n ← shape[d]?
    if n = 0 then none
    else axisWalk shape part d (rem / n) (index + (← part d (rem % n)))

/-- A coordinate adds its multiple of the stride. -/
def along (strides : List Nat) (d c : Nat) : Option Nat := do return c * (← strides[d]?)

/-- The coordinate rule of a kernel. -/
def CoordinateRule.ofKind : OpKind → CoordinateRule
  | .tile => wrap
  | .slice => range
  | .resize2d => scale
  | _ => same

/-- The value of a rule, as its text spells it out. -/
def CoordinateRule.coordinate? (entry : String → Option Nat) (c : Nat) :
    CoordinateRule → Option Nat
  | same => some c
  | wrap => do Arith.rem.apply c (← entry "x_shape")
  | range => do return (← entry "slice_begin") + c * (← entry "slice_step")
  | scale => do Arith.div.apply (c * (← entry "x_shape")) (← entry "y_shape")

namespace Kernel

variable {α : Type}

/-- The operator on single elements, with its bound parameters. -/
def pointwise? (k : Kernel α) : Option (Pointwise α) :=
  match k.kind with
  | .add => some .add
  | .mul => some .mul
  | .greater => some .greater
  | .greaterEqual => some .greaterEqual
  | .scalarAffine => do return .affine (← k.float? "scale") (← k.float? "bias")
  | .select => some .select
  | _ => none

/-- What a data movement adds to the index of its input along an axis. -/
def movementPart (k : Kernel α) (strides : List Nat) (d c : Nat) : Option Nat := do
  let entry (name : String) : Option Nat := do (← k.ints? name)[d]?
  return (← (CoordinateRule.ofKind k.kind).coordinate? entry c) * (← strides[d]?)

/-- The index at which an operand is read at position `i` of the loop. -/
def readIndex? (k : Kernel α) (rank : Nat) (x : String) (i : Nat) : Option Nat :=
  if k.kind.isElementwise then do
    axisWalk (← k.ints? "shape") (along (← k.ints? (strideName x))) rank i 0
  else do
    axisWalk (← k.ints? "y_shape") (k.movementPart (← k.ints? "x_stride")) rank i 0

/-- The index at which a kernel over linear memory writes. -/
def writeIndex? (k : Kernel α) (rank i : Nat) : Option Nat :=
  if k.kind.isElementwise then do
    axisWalk (← k.ints? "shape") (along (← k.ints? "y_stride")) rank i 0
  else some i

/-- The element computed at position `i` of the loop, where `read` reads an operand. -/
def element? [Scalar α] (k : Kernel α) (rank : Nat) (read : String → Nat → Option α) (i : Nat) :
    Option α := do
  let values ← k.kind.inputNames.mapM fun x => do read x (← k.readIndex? rank x i)
  if k.kind.isElementwise then (← k.pointwise?).eval? values else values.head?

end Kernel

/-! ## Linear memory -/

/-- Where a region begins in memory. -/
def Allocation.address? (staticSize : Nat) (a : Allocation) : Option Nat :=
  a.offset.known?.map (a.space.base staticSize + ·)

/-- An order in which all steps of some threads are taken, each thread in its own order. -/
inductive Interleaves {β : Type} : List (List β) → List β → Prop
  | done {threads} : (∀ t ∈ threads, t = []) → Interleaves threads []
  | step {pre x rest post order} : Interleaves (pre ++ rest :: post) order →
      Interleaves (pre ++ (x :: rest) :: post) (x :: order)

namespace Kernel

variable {α : Type}

/-- The positions that a loop visits from `i` on, in steps of `step` up to `size`. -/
def visits (step size i : Nat) : List Nat :=
  if 0 < step ∧ i < size then i :: visits step size (i + step) else []
termination_by size - i

/-- The positions that each thread visits. On a dispatch, a thread strides over the output by the
number of all threads. -/
def threads (k : Kernel α) (size : Nat) : Option (List (List Nat)) :=
  match k.launch with
  | .serial => some [List.range size]
  | .compute workgroups workgroupSize => do
    let grid := workgroups * (← k.int? "workgroup_size")
    return (List.range (workgroups * workgroupSize)).map (visits grid size)
  | .fragment .. => none

/-- One round of the loop of a kernel over linear memory. -/
def round? [Scalar α] (k : Kernel α) (staticSize : Nat) (cells : Array α) (i : Nat) :
    Option (Array α) := do
  let rank ← k.int? "rank"
  let read (x : String) (index : Nat) : Option α := do
    cells[(← (← k.buffer? x).address? staticSize) + index]?
  let value ← k.element? rank read i
  let index ← k.writeIndex? rank i
  store? cells ((← (← k.buffer? "y").address? staticSize) + index) #[value]

/-- A kernel runs on memory, in some order of its threads. -/
def RunsInMemory [Scalar α] (k : Kernel α) (staticSize : Nat) (cells cells' : Array α) : Prop :=
  ∃ size threads order, k.int? "size" = some size ∧ k.threads size = some threads ∧
    Interleaves threads order ∧ order.foldlM (k.round? staticSize) cells = some cells'

end Kernel

namespace MemoryLayout

variable {α : Type}

/-- Writes the data of a variable to its place. -/
def storeAt? (layout : MemoryLayout) (cells : Array α) (entry : VarId × Array α) :
    Option (Array α) := do
  store? cells (← (← layout.get? entry.1).address? layout.staticSize) entry.2

/-- Memory before the first kernel: zeros, but for the constants and the feeds. -/
def preset? [Scalar α] (layout : MemoryLayout) (constants : Array α)
    (feeds : List (VarId × Array α)) : Option (Array α) := do
  let extent ← layout.dynamicSize.known?
  let cells ← store? (Array.replicate (layout.staticSize + extent) Scalar.zero) 0 constants
  feeds.foldlM layout.storeAt? cells

/-- The data at the place of a variable. -/
def contents? (layout : MemoryLayout) (cells : Array α) (v : VarId) : Option (Array α) := do
  let a ← layout.get? v
  load? cells (← a.address? layout.staticSize) (← a.size.known?)

end MemoryLayout

/-! ## Textures -/

/-- The texture of a variable: its scalars row by row, those of a texel together. -/
structure Texture (α : Type) where
  shape : TextureShape
  channels : Nat
  scalars : Array α

/-- The textures of the variables. -/
abbrev Textures (α : Type) := VarId → Option (Texture α)

/-- The textures with another one for a variable. -/
def Textures.set {α : Type} (textures : Textures α) (v : VarId) (t : Texture α) : Textures α :=
  fun w => if w = v then some t else textures w

/-- A scalar of the texel at a pixel. -/
def Texture.scalar? {α : Type} (t : Texture α) (x y channel : Nat) : Option α :=
  if x < t.shape.width ∧ y < t.shape.height ∧ channel < t.channels then
    t.scalars[(y * t.shape.width + x) * t.channels + channel]?
  else none

namespace Kernel

variable {α : Type}

/-- The width that a kernel takes a texture to have. -/
def textureWidth? (k : Kernel α) (name : String) : Option Nat := do
  (← k.ints? (Glsl.textureName name))[0]?

/-- The function `fetch` of a fragment kernel. -/
def fetch? (k : Kernel α) (textures : Textures α) (name : String) (index : Nat) : Option α := do
  let channels ← k.int? "channels"
  let width ← k.textureWidth? name
  if channels = 0 ∨ width = 0 then none
  else
    let texel := index / channels
    (← textures (← k.sampler? name)).scalar? (texel % width) (texel / width) (index % channels)

/-- One channel of the fragment at a pixel. Channels behind the last element stay zero. -/
def fragment? [Scalar α] (k : Kernel α) (textures : Textures α) (x y channel : Nat) :
    Option α := do
  let channels ← k.int? "channels"
  let width ← k.textureWidth? "y"
  let size ← k.int? "y_size"
  let i := (y * width + x) * channels + channel
  if channel < channels ∧ i < size then k.element? Glsl.maxRank (k.fetch? textures) i
  else some Scalar.zero

/-- The texture of the output as a fragment kernel draws it. -/
def draw? [Scalar α] (k : Kernel α) (textures : Textures α) (shape : TextureShape)
    (channels : Nat) : Option (Array α) := do
  let scalars ← (List.range (shape.texels * channels)).mapM fun p =>
    let texel := p / channels
    k.fragment? textures (texel % shape.width) (texel / shape.width) (p % channels)
  return scalars.toArray

/-- A fragment kernel runs on textures. -/
def render? [Scalar α] (k : Kernel α) (textures : Textures α) : Option (Textures α) :=
  match k.launch with
  | .fragment output shape => do
    let t ← textures output
    if t.shape = shape then
      return textures.set output { t with scalars := ← k.draw? textures shape t.channels }
    else none
  | _ => none

end Kernel

namespace TextureLayout

variable {α : Type}

/-- The texture of a variable before the feeds: zeros, but for the data of a constant. -/
def blank [Scalar α] (layout : TextureLayout) (constants : Array α) : Textures α := fun v => do
  let a ← layout.get? v
  let channels := a.channelMode.channels
  let zeros := Array.replicate (a.shape.texels * channels) Scalar.zero
  let data := match a.constantOffset with
    | some offset => constants.extract offset (offset + a.size)
    | none => #[]
  return ⟨a.shape, channels, ← store? zeros 0 data⟩

/-- Writes data to the texture of a variable. -/
def storeAt? (textures : Textures α) (entry : VarId × Array α) : Option (Textures α) := do
  let t ← textures entry.1
  return textures.set entry.1 { t with scalars := ← store? t.scalars 0 entry.2 }

/-- Textures before the first kernel. -/
def preset? [Scalar α] (layout : TextureLayout) (constants : Array α)
    (feeds : List (VarId × Array α)) : Option (Textures α) :=
  feeds.foldlM storeAt? (layout.blank constants)

/-- The data in the texture of a variable. -/
def contents? (layout : TextureLayout) (textures : Textures α) (v : VarId) :
    Option (Array α) := do
  load? (← textures v).scalars 0 (← layout.get? v).size

end TextureLayout

/-! ## Descriptors -/

/-- Steps taken one after the other. -/
def RunsEach {κ σ : Type} (step : κ → σ → σ → Prop) : List κ → σ → σ → Prop
  | [], a, b => a = b
  | k :: ks, a, c => ∃ b, step k a b ∧ RunsEach step ks b c

/-- What the kernels of a descriptor work on. -/
inductive Storage (α : Type) where
  | cells (cells : Array α)
  | textures (textures : Textures α)

/-- The data at the place of a variable. -/
def Layout.contents? {α : Type} : Layout → Storage α → VarId → Option (Array α)
  | .memory layout, .cells cells, v => layout.contents? cells v
  | .texture layout, .textures textures, v => layout.contents? textures v
  | _, _, _ => none

/-- The kernels run in order of the list on the constants and these feeds, and leave that
storage. -/
def Descriptor.Executes {α : Type} [Scalar α] (d : Descriptor α) (feeds : List (VarId × Array α))
    (final : Storage α) : Prop :=
  match d.layout with
  | .memory layout => ∃ start cells, layout.preset? d.constants feeds = some start ∧
      RunsEach (fun k => k.RunsInMemory layout.staticSize) d.kernels start cells ∧
      final = .cells cells
  | .texture layout => ∃ start textures, layout.preset? d.constants feeds = some start ∧
      RunsEach (fun k a b => k.render? a = some b) d.kernels start textures ∧
      final = .textures textures

end TensorCompiler
