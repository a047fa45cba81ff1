import Offside.Decimal.Reading
import Offside.Program.Basic
import Offside.Program.Grammar.Recursion

/-!
The grammar of expressions. Conjunctions and disjunctions join comparisons, a comparison has at
most two sides, and the four arithmetic operators have one rank and group from the left. A group
in parentheses holds arithmetic only and no further group, but argument lists start afresh.
-/
namespace Offside.Grammar

open Rule

def logicOp? : Kind → Option LogicOp
  | .and => some .and
  | .or => some .or
  | _ => none

def compareOp? : Kind → Option CompareOp
  | .equal => some .equal
  | .notEqual => some .notEqual
  | .less => some .less
  | .greater => some .greater
  | .lessEqual => some .lessEqual
  | .greaterEqual => some .greaterEqual
  | _ => none

def arithOp? : Kind → Option ArithOp
  | .plus => some .add
  | .minus => some .sub
  | .times => some .mul
  | .divide => some .div
  | _ => none

/-- Takes a number; a text that is none is refused in its own place. -/
def number : Rule Float := fun ts =>
  match expect .number "number" ts with
  | .error r => .error r
  | .ok (t, rest) =>
    match Decimal.read? t.content with
    | some x => .ok (x, rest)
    | none => .error ⟨.expected "number", ts⟩

def arguments (expr : Rule Expr) : Rule (List Expr) := do
  let _ ← expect .lparen "'('"
  match ← accept .rparen with
  | some _ => return []
  | none => do
    let args ← commaSeparated expr
    let _ ← expect .rparen "')'"
    return args

/-- A method call. With a receiver the argument list may be left out. -/
def call (expr : Rule Expr) : Rule Call := do
  if ← startsWith .word .dot then do
    let receiver ← word "object name"
    let _ ← next
    let method ← word "method name"
    if (← peekKind 0) = some .lparen then return ⟨some receiver, method, ← arguments expr⟩
    else return ⟨some receiver, method, []⟩
  else do
    let method ← word "method name"
    return ⟨none, method, ← arguments expr⟩

/-- An operand other than a group. -/
def atom (expr : Rule Expr) : Rule Expr := do
  match ← peekKind 0, ← peekKind 1 with
  | some .number, _ => return .number (← number)
  | some .minus, some .number => do
    let _ ← next
    return .number (-(← number))
  | some .string, _ => return .string (← expect .string "string").content
  | some .character, _ =>
    return .character ((← expect .character "character").content.toList.headD ' ')
  | some .keyTrue, _ => do
    let _ ← next
    return .boolean true
  | some .keyFalse, _ => do
    let _ ← next
    return .boolean false
  | some .keyNew, _ => do
    let _ ← next
    let cls ← word "class name"
    return .construct cls (← arguments expr)
  | some .word, some .dot | some .word, some .lparen => return (← call expr).toExpr
  | some .word, _ => return .var (← word "variable name")
  | _, _ => refuse "expression"

/-- An operand inside a group. -/
def groupOperand (expr : Rule Expr) : Rule Expr := fun ts =>
  match ts.head?.map Token.kind with
  | some .lparen => .error ⟨.nestedGroup, ts⟩
  | _ => atom expr ts

def operand (expr : Rule Expr) : Rule Expr := do
  match ← accept .lparen with
  | some _ => do
    let inner ← chain arithOp? .arith (groupOperand expr)
    let _ ← expect .rparen "')'"
    return inner
  | none => atom expr

def arithmetic (expr : Rule Expr) : Rule Expr := chain arithOp? .arith (operand expr)

def comparison (expr : Rule Expr) : Rule Expr := do
  let left ← arithmetic expr
  match (← peekKind 0).bind compareOp? with
  | none => return left
  | some op => do
    let _ ← next
    return .compare op left (← arithmetic expr)

/-- An expression whose argument lists hold expressions of the given rule. -/
def exprWith (expr : Rule Expr) : Rule Expr := chain logicOp? .logic (comparison expr)

def expr : Rule Expr := fix exprWith

end Offside.Grammar
