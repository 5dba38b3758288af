import TensorCompiler.Layout.Texture
import TensorCompiler.Pass.Basic
/-!
# The texture limit

A pass that changes nothing and fails if a variable cannot be kept in a texture: its texture is
longer than the limit on one of its sides, or does not hold all elements.
-/

namespace TensorCompiler

/-- The number of scalars that a texture holds, if it fits 64 bits. -/
def TextureShape.capacity? (shape : TextureShape) (mode : ChannelMode) : Option Nat :=
  let scalars := shape.texels * mode.channels
  if scalars < wordLimit then some scalars else none

/-- Fails unless the texture is at most `max` texels long on each side and holds all elements. -/
def TextureShape.check (shape : TextureShape) (mode : ChannelMode) (max : Nat) (v : VarId)
    (t : TensorType) (size : Nat) : Except PassError Unit := do
  if !shape.fits max then throw (.textureLimit v (.tooLarge shape t max))
  let some capacity := shape.capacity? mode | throw (.graph .indexFault)
  if capacity < size then throw (.textureLimit v (.tooSmall shape size t))

/-- Fails at the first variable without a fitting texture of at most `max` texels a side. -/
def Graph.checkTextures {α : Type} (g : Graph α) (max : Nat) (mode : ChannelMode)
    (overrides : List (VarId × TextureShape)) : Except PassError Unit := do
  let vars ← g.reachable.mapError .graph
  vars.forM fun v => do
    let t ← g.tensor v |>.mapError .graph
    let size ← t.type.concreteSize.mapError .graph
    (TextureShape.choose overrides mode max v size).check mode max v t.type size

/-- The check as a pass. -/
def checkTextureLimit {α : Type} (max : Nat) (mode : ChannelMode)
    (overrides : List (VarId × TextureShape)) : Pass (PassM α) where
  name := "assert_texture_size"
  run := do
    (← PassM.graph).checkTextures max mode overrides
    return false

end TensorCompiler
