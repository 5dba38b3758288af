import TensorCompiler.Tensor.Type
/-!
# Texture shapes

The extent of a texture in texels, and how many scalars a texel packs. A derived shape fills rows
of the greatest width allowed, so it has the fewest rows that hold all scalars.
-/

namespace TensorCompiler

/-- How scalars are packed into texels. -/
inductive ChannelMode where
  /-- One scalar in each texel. -/
  | r
  /-- Four scalars in each texel. -/
  | rgba
  deriving DecidableEq, Repr

namespace ChannelMode

def text : ChannelMode → String
  | r => "r"
  | rgba => "rgba"

def channels : ChannelMode → Nat
  | r => 1
  | rgba => 4

end ChannelMode

structure TextureShape where
  width : Nat
  height : Nat
  deriving DecidableEq, Repr

namespace TextureShape

def text (s : TextureShape) : String := s!"{s.width}x{s.height}"

/-- Rows of at most `max` texels that hold `size` scalars; an empty tensor gets one texel. -/
def derive (size : Nat) (mode : ChannelMode) (max : Nat) : TextureShape :=
  let texels := Nat.max ((size + (mode.channels - 1)) / mode.channels) 1
  let width := Nat.min texels (Nat.max max 1)
  { width, height := (texels + (width - 1)) / width }

def texels (s : TextureShape) : Nat := s.width * s.height

/-- Neither side is longer than `max`. -/
def fits (s : TextureShape) (max : Nat) : Bool := decide (s.width ≤ max ∧ s.height ≤ max)

end TextureShape

/-- Why a texture cannot back a tensor. -/
inductive TextureFault where
  | tooLarge (shape : TextureShape) (tensor : TensorType) (max : Nat)
  | tooSmall (shape : TextureShape) (size : Nat) (tensor : TensorType)

def TextureFault.text : TextureFault → String
  | tooLarge s t max => "texture " ++ s.text ++ " of " ++ t.text ++ s!" exceeds the maximum of {max}"
  | tooSmall s size t => "texture " ++ s.text ++ s!" cannot hold {size} elements of " ++ t.text

end TensorCompiler
