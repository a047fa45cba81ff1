import Offside.Text.Position
import Offside.Token.Kind

/-!
Tokens: a kind, the place of the first character, and the text of words and literals.
-/
namespace Offside

structure Token where
  kind : Kind
  position : Position
  text : Option String
deriving DecidableEq

namespace Token

/-- The text of a token, empty where there is none. -/
def content (t : Token) : String := t.text.getD ""

/-- The token as messages name it. -/
def display (t : Token) : String :=
  match t.text with
  | some text => t.kind.display ++ " '" ++ text ++ "'"
  | none => t.kind.display

end Token

end Offside
