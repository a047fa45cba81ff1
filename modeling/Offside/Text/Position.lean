/-!
Places in a source text. Lines count from one, columns from zero, and a tab covers four columns.
The place after a stretch of text is reached by moving over its characters one by one, so places
compose along concatenation.
-/
namespace Offside

/-- The columns that a tab covers. -/
def tabWidth : Nat := 4

structure Position where
  line : Nat
  column : Nat
deriving DecidableEq

namespace Position

/-- The place of the first character of a text. -/
def start : Position := ⟨1, 0⟩

/-- The place after one character. -/
def next (p : Position) (c : Char) : Position :=
  if c = '\n' then ⟨p.line + 1, 0⟩
  else if c = '\t' then ⟨p.line, p.column + tabWidth⟩
  else ⟨p.line, p.column + 1⟩

/-- The place after a stretch of text. -/
def after (p : Position) (text : List Char) : Position := text.foldl next p

@[simp] theorem after_nil (p : Position) : p.after [] = p := rfl

@[simp] theorem after_cons (p : Position) (c : Char) (text : List Char) :
    p.after (c :: text) = (p.next c).after text := rfl

@[simp] theorem after_append (p : Position) (s t : List Char) :
    p.after (s ++ t) = (p.after s).after t := List.foldl_append

/-- The place in words, as messages end with it. -/
def describe (p : Position) : String := s!"line {p.line}, column {p.column}"

end Position

end Offside
