import TensorCompiler.Scalar
import TensorCompiler.Decimal.Notation
/-!
# Single precision scalars

The elements of tensors as they are computed: 32-bit floating point, each operation rounded once.
-/

namespace TensorCompiler

instance : Scalar Float32 where
  zero := 0.0
  one := 1.0
  negOne := -1.0
  add := (· + ·)
  mul := (· * ·)
  greater x y := decide (x > y)
  greaterEqual x y := decide (x ≥ y)
  eqv x y := x == y

instance : ScalarText Float32 where
  isFinite := Float32.isFinite
  text x := Decimal.singleText x.toBits.toNat

end TensorCompiler
