import Offside.Decimal.Shortest

/-!
The text of a double: its sign, then the shortest digits, placed around a point or before an
exponent as a format asks.
-/
namespace Offside

/-- How a decimal is laid out. -/
structure NumberFormat where
  /-- Whole numbers end in `.0`. -/
  pointAlways : Bool
  /-- Which powers of ten the leading digit may have without an exponent. -/
  positional : Int → Bool

namespace NumberFormat

/-- The format of values: never an exponent, and no point in whole numbers. -/
def plain : NumberFormat := ⟨false, fun _ => true⟩

/-- The format of outlines: whole numbers keep their point, and an exponent is used from ten to
the sixteenth on and below a ten-thousandth. -/
def outline : NumberFormat := ⟨true, fun e => decide (-4 ≤ e) && decide (e < 16)⟩

/-- Digits with the point after the first `point` of them, counted also outside the digits. -/
def place (f : NumberFormat) (digits : List Char) (point : Int) : List Char :=
  if point ≤ 0 then '0' :: '.' :: List.replicate (-point).toNat '0' ++ digits
  else if point < digits.length then
    digits.take point.toNat ++ '.' :: digits.drop point.toNat
  else
    digits ++ List.replicate (point.toNat - digits.length) '0' ++
      (if f.pointAlways then ['.', '0'] else [])

/-- Digits with the point after the first of them, and an exponent. -/
def scientific (digits : List Char) (exponent : Int) : List Char :=
  let point := if digits.length ≤ 1 then [] else ['.']
  digits.take 1 ++ point ++ digits.drop 1 ++ 'e' :: (toString exponent).toList

/-- The digits of a positive decimal without zeros at the end. -/
def significant (d : Decimal) : List Char :=
  ((Nat.toDigits 10 d.mantissa).reverse.dropWhile (· == '0')).reverse

def decimal (f : NumberFormat) (d : Decimal) : List Char :=
  let point := (Decimal.digitCount d.mantissa : Int) + d.exponent
  if f.positional (point - 1) then f.place (significant d) point
  else scientific (significant d) (point - 1)

/-- The text of a double without its sign. -/
def magnitude (f : NumberFormat) (x : Float) : List Char :=
  if x.isInf then ['i', 'n', 'f']
  else if x = 0.0 then (if f.pointAlways then ['0', '.', '0'] else ['0'])
  else f.decimal (Decimal.shortest x)

def write (f : NumberFormat) (x : Float) : String :=
  if x.isNaN then "NaN"
  else if signBit x then String.ofList ('-' :: f.magnitude (-x))
  else String.ofList (f.magnitude x)

end NumberFormat

end Offside
