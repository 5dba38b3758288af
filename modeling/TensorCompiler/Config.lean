import TensorCompiler.Handle
import TensorCompiler.Layout.TextureShape
/-!
# Options of a compilation

All options have defaults. Some of them can be set by variables of the environment, whose names
share a stem; values that cannot be read leave the default in place.
-/

namespace TensorCompiler

structure Config where
  /-- The greatest width or height of a texture. -/
  maxTextureSize : Nat := 4096
  channelMode : ChannelMode := .r
  /-- The number of rounds that a repeated group of passes may take. -/
  maxIterations : Nat := 32
  /-- The first axis of every output is the batch axis. -/
  batchFirst : Bool := false
  /-- Pairs of axes known to be the same dimension. -/
  axisHints : List (Axis × Axis) := []
  /-- Texture shapes that take precedence over the derived ones; the first entry of a variable
  counts. -/
  textureShapes : List (VarId × TextureShape) := []
  /-- Threads of a compute workgroup. -/
  workgroupSize : Nat := 64
  /-- Kernels may be generated on several threads. The result is the same either way. -/
  parallel : Bool := true

namespace Config

/-- Sets the texture shape of a variable, over any earlier one. -/
def withTextureShape (c : Config) (v : VarId) (s : TextureShape) : Config :=
  { c with textureShapes := (v, s) :: c.textureShapes }

/-- Reads a 64-bit word: decimal digits behind at most one plus sign. -/
def word? (text : String) : Option Nat :=
  let digits := match text.toList with
    | '+' :: rest => rest
    | all => all
  if digits.isEmpty || digits.any (!·.isDigit) then none
  else
    let value := digits.foldl (fun n c => 10 * n + (c.toNat - '0'.toNat)) 0
    if value < wordLimit then some value else none

/-- Reads a flag. -/
def flag? (text : String) : Option Bool :=
  if text ∈ ["1", "true", "t", "yes", "y"] then some true
  else if text ∈ ["0", "false", "f", "no", "n"] then some false
  else none

/-- The defaults, overridden by the variables `stem_MAX_TEXTURE_SIZE`,
`stem_OPTIMIZER_MAX_ITERATIONS` and `stem_PARALLEL` as far as they hold readable values. -/
def ofVariables (stem : String) (value? : String → Option String) : Config :=
  let defaults : Config := {}
  let read {β : Type} (name : String) (parse : String → Option β) (default : β) : β :=
    ((value? (stem ++ "_" ++ name)).bind parse).getD default
  { defaults with
    maxTextureSize := read "MAX_TEXTURE_SIZE" word? defaults.maxTextureSize
    maxIterations := read "OPTIMIZER_MAX_ITERATIONS" word? defaults.maxIterations
    parallel := read "PARALLEL" flag? defaults.parallel }

end Config

end TensorCompiler
