/-!
# Shortest decimals

A finite binary floating-point value stands for an interval of reals: all those that round to it.
`shortest` picks, among the decimals in that interval, one with the fewest digits, and of those
the one nearest to the value, the upper one if two are equally near. Everything is exact
arithmetic on naturals.
-/

namespace TensorCompiler.Decimal

/-- A finite positive floating-point value, `mantissa * 2 ^ exponent`. -/
structure Binary where
  mantissa : Nat
  exponent : Int
  /-- The gap to the value below is half of the gap to the value above. -/
  narrowBelow : Bool
  deriving Repr, DecidableEq

/-- The value of the low 31 bits of a finite 32-bit pattern: 23 bits of fraction under 8 bits of
biased exponent. -/
def Binary.ofSingleBits (bits : Nat) : Binary :=
  let biased : Nat := bits / 0x800000 % 0x100
  let fraction : Nat := bits % 0x800000
  if biased = 0 then
    ⟨fraction, -149, false⟩
  else
    ⟨0x800000 + fraction, (biased : Int) - 150, fraction == 0 && decide (1 < biased)⟩

/-- The decimal `digits * 10 ^ exponent`. -/
structure Digits where
  digits : Nat
  exponent : Int
  deriving Repr, DecidableEq

/-- Compares `a * 10 ^ i` with `n * 2 ^ j`. -/
def compareScaled (a : Nat) (i : Int) (n : Nat) (j : Int) : Ordering :=
  compare (a * Nat.pow 10 i.toNat * Nat.pow 2 (-j).toNat)
    (n * Nat.pow 2 j.toNat * Nat.pow 10 (-i).toNat)

/-- The decimal rounds to the value: it lies between the midpoints to the two neighbours, ends
included when the mantissa is even. -/
def Binary.readsBack (x : Binary) (d : Digits) : Bool :=
  let low := if x.narrowBelow then 4 * x.mantissa - 1 else 4 * x.mantissa - 2
  let high := 4 * x.mantissa + 2
  let atEnds := x.mantissa % 2 == 0
  let fromLow := compareScaled d.digits d.exponent low (x.exponent - 2)
  let toHigh := compareScaled d.digits d.exponent high (x.exponent - 2)
  (fromLow == .gt || (atEnds && fromLow == .eq)) && (toHigh == .lt || (atEnds && toHigh == .eq))

/-- The number of digits in front of the decimal point, or minus the number of zeros behind it:
the least `k` with `x < 10 ^ k`, searched upwards from below every value of 32 bits. -/
def Binary.scale (x : Binary) : Int :=
  let fits (k : Int) : Bool := compareScaled 1 k x.mantissa x.exponent == .gt
  let candidates := (List.range 86).map fun (n : Nat) => (n : Int) - 45
  (candidates.find? fits).getD 40

/-- The value rounded down to a multiple of `10 ^ e`, in units of it. -/
def Binary.floorAt (x : Binary) (e : Int) : Nat :=
  (x.mantissa * Nat.pow 2 x.exponent.toNat * Nat.pow 10 (-e).toNat) /
    (Nat.pow 2 (-x.exponent).toNat * Nat.pow 10 e.toNat)

/-- The better of the two decimals around the value on the grid of `10 ^ e`, if one of them reads
back. -/
def Binary.onGrid? (x : Binary) (e : Int) : Option Digits :=
  let below : Digits := ⟨x.floorAt e, e⟩
  let above : Digits := ⟨x.floorAt e + 1, e⟩
  match x.readsBack below, x.readsBack above with
  | true, true =>
    -- the midpoint of the grid cell decides; the value on it goes up
    let middle := compareScaled (below.digits + above.digits) e (2 * x.mantissa) x.exponent
    some (if middle == .gt then below else above)
  | true, false => some below
  | false, true => some above
  | false, false => none

/-- The exact decimal form of the value. -/
def Binary.exact (x : Binary) : Digits :=
  ⟨x.mantissa * Nat.pow 2 x.exponent.toNat * Nat.pow 5 (-x.exponent).toNat, min x.exponent 0⟩

/-- A decimal that reads back, with as few digits as possible. -/
def Binary.shortest (x : Binary) : Digits :=
  let k := x.scale
  ((List.range 9).findSome? fun n => x.onGrid? (k - (n + 1 : Nat))).getD x.exact

/-- Moves trailing zeros of the digits into the exponent. -/
def Digits.strip (d : Digits) : Digits :=
  if d.digits = 0 then d
  else if d.digits % 10 = 0 then strip ⟨d.digits / 10, d.exponent + 1⟩
  else d
termination_by d.digits
decreasing_by omega

end TensorCompiler.Decimal
