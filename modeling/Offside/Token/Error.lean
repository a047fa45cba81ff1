import Offside.Text.Position

/-!
What can be wrong with a source text before its tokens are known, and where.
-/
namespace Offside

/-- The columns that make one level of indentation. -/
def indentUnit : Nat := 4

inductive LexicalFault where
  /-- No token starts with this character. -/
  | unexpectedCharacter (c : Char)
  | unterminatedString
  | unterminatedCharacter
  | unterminatedComment
  /-- The width of a line's indentation is no whole number of levels. -/
  | irregularIndentation (width : Nat)
  /-- A line is more than one level deeper than the line before it. -/
  | indentationJump (fromLevel toLevel : Nat)
deriving DecidableEq

namespace LexicalFault

def describe : LexicalFault → String
  | unexpectedCharacter c => "Unexpected character '" ++ c.toString ++ "'"
  | unterminatedString => "Unterminated string literal"
  | unterminatedCharacter => "Unterminated character literal"
  | unterminatedComment => "Unterminated comment"
  | irregularIndentation width =>
    s!"Indentation of {width} columns is not a multiple of {indentUnit}"
  | indentationJump fromLevel toLevel =>
    s!"Indentation jumps from level {fromLevel} to level {toLevel}"

end LexicalFault

structure LexicalError where
  fault : LexicalFault
  position : Position
deriving DecidableEq

def LexicalError.message (e : LexicalError) : String :=
  e.fault.describe ++ " at " ++ e.position.describe

end Offside
