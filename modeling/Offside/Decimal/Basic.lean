/-!
Decimal numbers and the doubles nearest to them.
-/
namespace Offside

/-- The number `mantissa * 10 ^ exponent`. -/
structure Decimal where
  mantissa : Nat
  exponent : Int
deriving DecidableEq

namespace Decimal

/-- The nearest double, of two the one with the even mantissa, and infinity beyond the largest. -/
def toFloat (d : Decimal) : Float := .ofModel (.ofScientific d.mantissa d.exponent)

end Decimal

/-- Whether the sign bit is set. -/
def signBit (x : Float) : Bool := decide (Nat.pow 2 63 ≤ x.toBits.toNat)

end Offside
