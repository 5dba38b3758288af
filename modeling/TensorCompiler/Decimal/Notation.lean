import TensorCompiler.Decimal.Shortest
/-!
# Notation of numbers in kernel sources

How the digits of a number are laid out. A leading digit between `10 ^ -4` and `10 ^ 15` is
written positionally, with at least one digit behind the point; all other numbers get an
exponent, and a point only if there is more than one digit.
-/

namespace TensorCompiler.Decimal

/-- `n` zeros. -/
def zeros (n : Nat) : String := "".pushn '0' n

/-- Lays out a positive decimal without trailing zeros. -/
def Digits.layout (d : Digits) : String :=
  let text := toString d.digits
  let lead : Int := d.exponent + text.length - 1
  if -4 ≤ lead ∧ lead ≤ 15 then
    if 0 ≤ d.exponent then
      text ++ zeros d.exponent.toNat ++ ".0"
    else if 0 ≤ lead then
      let whole := lead.toNat + 1
      String.ofList (text.toList.take whole) ++ "." ++ String.ofList (text.toList.drop whole)
    else
      "0." ++ zeros (-lead - 1).toNat ++ text
  else
    let fraction := if text.length = 1 then "" else "." ++ String.ofList (text.toList.drop 1)
    String.ofList (text.toList.take 1) ++ fraction ++ "e" ++ toString lead

/-- The text of a 32-bit floating-point pattern. -/
def singleText (bits : Nat) : String :=
  let negative := decide (0x80000000 ≤ bits)
  let sign := if negative then "-" else ""
  let magnitude := bits % 0x80000000
  if magnitude = 0 then sign ++ "0.0"
  else if magnitude < 0x7f800000 then
    sign ++ (Binary.ofSingleBits magnitude).shortest.strip.layout
  else if magnitude = 0x7f800000 then sign ++ "inf"
  else "NaN"

end TensorCompiler.Decimal
