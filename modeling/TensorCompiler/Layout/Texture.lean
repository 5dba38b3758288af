import TensorCompiler.Config
import TensorCompiler.Graph.Traversal
/-!
# Texture layouts

The texture behind every variable, for the backend that keeps tensors in textures. A texture has
the shape configured for its variable, else one derived from the number of elements. Constants
are shipped by ascending handle, and the texture of each one knows where its data begin.
-/

namespace TensorCompiler

/-- The shape configured for a variable, else the derived one. -/
def TextureShape.choose (overrides : List (VarId × TextureShape)) (mode : ChannelMode) (max : Nat)
    (v : VarId) (size : Nat) : TextureShape :=
  (overrides.lookup v).getD (derive size mode max)

/-- The texture behind one variable. -/
structure TextureAllocation where
  shape : TextureShape
  channelMode : ChannelMode
  /-- The number of elements stored. -/
  size : Nat
  /-- Where the data of a constant begin. -/
  constantOffset : Option Nat
  deriving DecidableEq, Repr

/-- The textures of all variables that the outputs of a graph depend on. -/
structure TextureLayout where
  /-- By ascending handle. -/
  textures : List (VarId × TextureAllocation)

namespace TextureLayout

variable {α : Type}

def get? (layout : TextureLayout) (v : VarId) : Option TextureAllocation :=
  layout.textures.lookup v

/-- The texture of a variable, before the constants have their offsets. -/
def texture (config : Config) (v : VarId) (t : TensorType) :
    Except GraphError TextureAllocation := do
  let size ← t.concreteSize
  let shape :=
    TextureShape.choose config.textureShapes config.channelMode config.maxTextureSize v size
  return { shape, channelMode := config.channelMode, size, constantOffset := none }

/-- Lets the data of the constants follow each other. -/
def placeConstants : (offset : Nat) → List (VarId × TextureAllocation × Option (Array α)) →
    List (VarId × TextureAllocation)
  | _, [] => []
  | offset, (v, a, none) :: rest => (v, a) :: placeConstants offset rest
  | offset, (v, a, some data) :: rest =>
    (v, { a with constantOffset := some offset }) :: placeConstants (offset + data.size) rest

/-- Gives every variable its texture. Limits are not checked. -/
def allocate (g : Graph α) (config : Config) : Except GraphError TextureLayout := do
  let entries ← (← g.reachable).mapM fun v => do
    let t ← g.tensor v
    return (v, ← texture config v t.type, t.data)
  return ⟨placeConstants 0 (sortByVar entries)⟩

/-- The data of all constants by ascending handle. -/
def constants (layout : TextureLayout) (g : Graph α) : Except GraphError (Array α) := do
  let shipped := layout.textures.filter (·.2.constantOffset.isSome)
  let parts ← shipped.mapM fun (v, _) => return (← g.tensor v).data.getD #[]
  return parts.foldl (· ++ ·) #[]

end TextureLayout

end TensorCompiler
