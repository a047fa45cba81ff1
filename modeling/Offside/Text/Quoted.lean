import Offside.Text.Shown

/-!
Quoted texts. Between the quotes a character stands for itself if it shows; the closing quote, the
backslash and a few controls have short escapes, and all else is written by its code point.
-/
namespace Offside.Quoted

/-- A character by its code point in hexadecimal. -/
def codePoint (c : Char) : List Char := '\\' :: 'u' :: '\x7b' :: Nat.toDigits 16 c.toNat ++ ['\x7d']

/-- A character between two of the given quotes. -/
def escape (quote c : Char) : List Char :=
  match c with
  | '\x00' => ['\\', '0']
  | '\t' => ['\\', 't']
  | '\r' => ['\\', 'r']
  | '\n' => ['\\', 'n']
  | '\\' => ['\\', '\\']
  | _ => if c = quote then ['\\', c] else if isShown c then [c] else codePoint c

def encode (quote : Char) (text : List Char) : List Char :=
  quote :: text.flatMap (escape quote) ++ [quote]

def string (s : String) : String := String.ofList (encode '\x22' s.toList)

def character (c : Char) : String := String.ofList (encode '\x27' [c])

end Offside.Quoted
