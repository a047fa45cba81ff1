/-!
The kinds of tokens. Keywords and symbols have one fixed spelling each, from which their display is
taken. Words, characters and pairs of characters are looked up in tables; conjunction and
disjunction may also be written as doubled symbols.
-/
namespace Offside

inductive Kind where
  | newline | indent | dedent
  | assign | equal | notEqual | less | greater | lessEqual | greaterEqual
  | plus | minus | times | divide | and | or
  | lparen | rparen | dot | comma | colon
  | keyIf | keyElse | keyClass | keyInterface | keyAccessor | keyMutator | keyLoop
  | keyTrue | keyFalse | keyShared | keyConstruct | keyNew | keyPrivate | keyImplements
  | word | number | string | character
deriving DecidableEq

namespace Kind

/-- The text of a keyword or symbol. -/
def spelling : Kind → Option String
  | assign => some "="
  | equal => some "=="
  | notEqual => some "!="
  | less => some "<"
  | greater => some ">"
  | lessEqual => some "<="
  | greaterEqual => some ">="
  | plus => some "+"
  | minus => some "-"
  | times => some "*"
  | divide => some "/"
  | and => some "and"
  | or => some "or"
  | lparen => some "("
  | rparen => some ")"
  | dot => some "."
  | comma => some ","
  | colon => some ":"
  | keyIf => some "if"
  | keyElse => some "else"
  | keyClass => some "class"
  | keyInterface => some "interface"
  | keyAccessor => some "accessor"
  | keyMutator => some "mutator"
  | keyLoop => some "loop"
  | keyTrue => some "true"
  | keyFalse => some "false"
  | keyShared => some "shared"
  | keyConstruct => some "construct"
  | keyNew => some "new"
  | keyPrivate => some "private"
  | keyImplements => some "implements"
  | newline | indent | dedent | word | number | string | character => none

/-- The keywords. -/
def ofKeyword? : String → Option Kind
  | "if" => some keyIf
  | "else" => some keyElse
  | "class" => some keyClass
  | "interface" => some keyInterface
  | "accessor" => some keyAccessor
  | "mutator" => some keyMutator
  | "loop" => some keyLoop
  | "true" => some keyTrue
  | "false" => some keyFalse
  | "shared" => some keyShared
  | "construct" => some keyConstruct
  | "new" => some keyNew
  | "private" => some keyPrivate
  | "implements" => some keyImplements
  | "and" => some and
  | "or" => some or
  | _ => none

/-- The symbols of one character. -/
def ofPunctuation? : Char → Option Kind
  | '=' => some assign
  | '<' => some less
  | '>' => some greater
  | '(' => some lparen
  | ')' => some rparen
  | '.' => some dot
  | '+' => some plus
  | '-' => some minus
  | '*' => some times
  | '/' => some divide
  | ',' => some comma
  | ':' => some colon
  | _ => none

/-- The symbols of two characters. They win over a symbol of one. -/
def ofPair? : Char → Char → Option Kind
  | '=', '=' => some equal
  | '!', '=' => some notEqual
  | '<', '=' => some lessEqual
  | '>', '=' => some greaterEqual
  | '&', '&' => some and
  | '|', '|' => some or
  | _, _ => none

/-- The kind as messages name it. -/
def display : Kind → String
  | newline => "newline"
  | indent => "indent"
  | dedent => "dedent"
  | word => "word"
  | number => "number"
  | string => "string literal"
  | character => "character literal"
  | kind => "'" ++ kind.spelling.getD "" ++ "'"

end Kind

end Offside
