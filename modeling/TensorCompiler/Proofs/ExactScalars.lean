import Mathlib.Algebra.Order.Ring.Rat
import TensorCompiler.Scalar
/-!
# Exact scalars

Scalars read as rational numbers, with exact arithmetic and the usual comparisons.
-/

namespace TensorCompiler

instance : Scalar ℚ where
  zero := 0
  one := 1
  negOne := -1
  add x y := x + y
  mul x y := x * y
  greater x y := decide (y < x)
  greaterEqual x y := decide (y ≤ x)
  eqv x y := decide (x = y)

/-- A fraction is its own literal. -/
instance : ScalarText ℚ where
  isFinite _ := true
  text x := toString x

/-- Fractions, and one value that is no number and does not equal itself. -/
instance : Scalar (Option ℚ) where
  zero := some 0
  one := some 1
  negOne := some (-1)
  add x y := do return (← x) + (← y)
  mul x y := do return (← x) * (← y)
  greater x y := match x, y with
    | some x, some y => decide (y < x)
    | _, _ => false
  greaterEqual x y := match x, y with
    | some x, some y => decide (y ≤ x)
    | _, _ => false
  eqv x y := match x, y with
    | some x, some y => decide (x = y)
    | _, _ => false

/-- A truth value as a number. -/
def IsTruth (x : ℚ) : Prop := x = 0 ∨ x = 1

theorem isTruth_ofBool (b : Bool) : IsTruth (Scalar.ofBool b) := by
  cases b
  · exact .inl rfl
  · exact .inr rfl

theorem holds_iff {x : ℚ} : Scalar.holds x = true ↔ x ≠ 0 := by
  show (!decide (x = 0)) = true ↔ _
  simp

/-- The arithmetic form of a selection selects exactly if the condition is a truth value. -/
theorem select_arithmetic_iff {c : ℚ} :
    (∀ a b, c * a + (c * -1 + 1) * b = if Scalar.holds c then a else b) ↔ IsTruth c := by
  constructor
  · intro h
    by_cases hc : c = 0
    · exact .inl hc
    · have hone := h 1 0
      rw [if_pos (holds_iff.2 hc)] at hone
      exact .inr (by simpa using hone)
  · rintro (rfl | rfl) a b
    · rw [if_neg (by simp [holds_iff])]
      simp
    · rw [if_pos (by simp [holds_iff])]
      simp

end TensorCompiler
