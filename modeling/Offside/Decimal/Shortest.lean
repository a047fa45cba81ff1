import Offside.Decimal.Basic

/-!
The fewest digits that read back. For one digit, two digits and so on, the two decimals of that
many digits around a double are tried, the nearer first and of two equally near the greater; the
first that reads back to the double is its text. Should none do up to seventeen digits, the exact
decimal stands in.
-/
namespace Offside.Decimal

/-- A positive finite double as a quotient whose denominator is a power of two, given by its
exponent. -/
def quotient (x : Float) : Nat × Nat :=
  let bits := x.toBits.toNat
  let biased := bits / Nat.pow 2 52 % Nat.pow 2 11
  let fraction := bits % Nat.pow 2 52
  let mantissa := if biased = 0 then fraction else Nat.pow 2 52 + fraction
  let scale := max biased 1
  (mantissa * Nat.pow 2 (scale - 1075), 1075 - scale)

/-- All digits of the double `num / 2 ^ k`. -/
def exact (num k : Nat) : Decimal := ⟨num * Nat.pow 5 k, -(k : Int)⟩

def digitCount (n : Nat) : Nat := (Nat.toDigits 10 n).length

/-- The power of ten at or below `num / den`, for a positive quotient. -/
def magnitude (num den : Nat) : Int :=
  if den ≤ num then (digitCount (num / den) : Int) - 1
  else -(digitCount ((den - 1) / num) : Int)

/-- The two multiples of `10 ^ p` around `num / den`, the nearer first. -/
def neighbours (num den : Nat) (p : Int) : List Decimal :=
  let num := num * Nat.pow 10 (-p).toNat
  let den := den * Nat.pow 10 p.toNat
  let low := num / den
  if den ≤ 2 * (num % den) then [⟨low + 1, p⟩, ⟨low, p⟩] else [⟨low, p⟩, ⟨low + 1, p⟩]

/-- The decimal that stands for a positive finite double. -/
def shortest (x : Float) : Decimal :=
  let (num, k) := quotient x
  let den := Nat.pow 2 k
  let top := magnitude num den
  let found := (List.range 17).findSome? fun (n : Nat) =>
    (neighbours num den (top - n)).find? fun d => decide (d.toFloat = x)
  found.getD (exact num k)

end Offside.Decimal
