import Offside.Text.Position

/-!
A cursor stands before the unread part of a text and knows its place. Past the end it shows the
NUL character and does not move.
-/
namespace Offside

structure Cursor where
  rest : List Char
  position : Position
deriving DecidableEq

namespace Cursor

def ofString (text : String) : Cursor := ⟨text.toList, Position.start⟩

def atEnd (c : Cursor) : Bool := c.rest.isEmpty

/-- The next character, or NUL at the end. -/
def peek (c : Cursor) : Char := c.rest.headD '\x00'

/-- Reads one character. -/
def advance (c : Cursor) : Char × Cursor :=
  match c.rest with
  | [] => ('\x00', c)
  | first :: rest => (first, ⟨rest, c.position.next first⟩)

/-- The cursor after it has read `taken` and before `rest`. -/
def moveOver (c : Cursor) (taken rest : List Char) : Cursor := ⟨rest, c.position.after taken⟩

@[simp] theorem moveOver_rest (c : Cursor) (taken rest : List Char) :
    (c.moveOver taken rest).rest = rest := rfl

@[simp] theorem moveOver_position (c : Cursor) (taken rest : List Char) :
    (c.moveOver taken rest).position = c.position.after taken := rfl

theorem moveOver_moveOver (c : Cursor) (s t rest rest' : List Char) :
    (c.moveOver s rest).moveOver t rest' = c.moveOver (s ++ t) rest' := by
  simp [moveOver]

theorem atEnd_iff {c : Cursor} : c.atEnd = true ↔ c.rest = [] := List.isEmpty_iff

@[simp] theorem atEnd_cons (first : Char) (rest : List Char) (p : Position) :
    atEnd ⟨first :: rest, p⟩ = false := rfl

@[simp] theorem advance_cons (first : Char) (rest : List Char) (p : Position) :
    advance ⟨first :: rest, p⟩ = (first, ⟨rest, p.next first⟩) := rfl

end Cursor

end Offside
