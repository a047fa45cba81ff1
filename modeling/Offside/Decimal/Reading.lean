import Offside.Decimal.Basic

/-!
Numbers as text. A number has an optional sign, then digits with an optional point among, before or
after them, then an optional exponent; or it is one of the words for infinity and for the value
that is no number, in any case. Nothing may follow.
-/
namespace Offside.Decimal

/-- The value of a row of digits. -/
def ofDigits (ds : List Char) : Nat := ds.foldl (fun n d => 10 * n + (d.toNat - '0'.toNat)) 0

/-- Splits off a sign; the first part says whether it was a minus. -/
def spanSign : List Char → Bool × List Char
  | '-' :: cs => (true, cs)
  | '+' :: cs => (false, cs)
  | cs => (false, cs)

/-- An exponent with its mark, up to the end of the text. -/
def readExponent? : List Char → Option Int
  | [] => some 0
  | mark :: cs =>
    let (negative, ds) := spanSign cs
    if (mark = 'e' ∨ mark = 'E') ∧ ds ≠ [] ∧ ds.all Char.isDigit then
      some (if negative then -(ofDigits ds : Int) else ofDigits ds)
    else none

/-- A number without a sign, up to the end of the text. -/
def readUnsigned? (cs : List Char) : Option Decimal :=
  let whole := cs.takeWhile Char.isDigit
  let (fraction, rest) :=
    match cs.dropWhile Char.isDigit with
    | '.' :: rest => (rest.takeWhile Char.isDigit, rest.dropWhile Char.isDigit)
    | rest => ([], rest)
  if whole ++ fraction = [] then none
  else (readExponent? rest).map fun e => ⟨ofDigits (whole ++ fraction), e - fraction.length⟩

/-- The words for values that no digits write. -/
def readWord? (cs : List Char) : Option Float :=
  let word := String.ofList (cs.map Char.toLower)
  if word = "inf" ∨ word = "infinity" then some (1.0 / 0.0)
  else if word = "nan" then some (0.0 / 0.0)
  else none

/-- The double that a text stands for. -/
def read? (text : String) : Option Float :=
  let (negative, cs) := spanSign text.toList
  let magnitude := ((readUnsigned? cs).map toFloat).or (readWord? cs)
  magnitude.map fun x => if negative then -x else x

end Offside.Decimal
