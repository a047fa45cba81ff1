import Offside.Execution.Fault
import Offside.Execution.Value

/-!
The operators on values. Conjunction and disjunction take booleans, comparisons take numbers, and
arithmetic takes numbers; a sum with a string on either side joins the texts of both.
-/
namespace Offside

/-- The complaint about operands of the wrong types. -/
def unsupported (h : Heap) (symbol : String) (left right : Value) : Fault :=
  .unsupportedOperation symbol (left.typeName h) (right.typeName h)

namespace LogicOp

def symbol : LogicOp → String
  | and => "and"
  | or => "or"

def eval : LogicOp → Bool → Bool → Bool
  | and, a, b => a && b
  | or, a, b => a || b

def apply (op : LogicOp) (h : Heap) (left right : Value) : Except Fault Value :=
  match left.resolved, right.resolved with
  | .boolean a, .boolean b => .ok (.boolean (op.eval a b))
  | l, r => .error (unsupported h op.symbol l r)

end LogicOp

namespace CompareOp

def symbol : CompareOp → String
  | equal => "=="
  | notEqual => "!="
  | less => "<"
  | greater => ">"
  | lessEqual => "<="
  | greaterEqual => ">="

def eval : CompareOp → Float → Float → Bool
  | equal, x, y => x == y
  | notEqual, x, y => !(x == y)
  | less, x, y => decide (x < y)
  | greater, x, y => decide (y < x)
  | lessEqual, x, y => decide (x ≤ y)
  | greaterEqual, x, y => decide (y ≤ x)

def apply (op : CompareOp) (h : Heap) (left right : Value) : Except Fault Value :=
  match left.resolved, right.resolved with
  | .number x, .number y => .ok (.boolean (op.eval x y))
  | l, r => .error (unsupported h op.symbol l r)

end CompareOp

namespace ArithOp

def symbol : ArithOp → String
  | add => "+"
  | sub => "-"
  | mul => "*"
  | div => "/"

def eval : ArithOp → Float → Float → Float
  | add, x, y => x + y
  | sub, x, y => x - y
  | mul, x, y => x * y
  | div, x, y => x / y

def apply (op : ArithOp) (h : Heap) (left right : Value) : Except Fault Value :=
  match op, left.resolved, right.resolved with
  | op, .number x, .number y => .ok (.number (op.eval x y))
  | .add, .string s, r => .ok (.string (s ++ r.output h))
  | .add, l, .string s => .ok (.string (l.output h ++ s))
  | op, l, r => .error (unsupported h op.symbol l r)

end ArithOp

end Offside
