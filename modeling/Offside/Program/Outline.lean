import Offside.Decimal.Notation
import Offside.Program.Basic
import Offside.Text.Quoted

/-!
The outline of a program: a tree of named parts, written with one part a line and four blanks a
level.
-/
namespace Offside

inductive Outline where
  /-- A text in one line. -/
  | leaf (text : String)
  /-- A part with its name. -/
  | field (name : String) (value : Outline)
  /-- Parts between two brackets. -/
  | node (opening closing : String) (parts : List Outline)

namespace Outline

mutual

/-- The text of an outline whose first line starts after `margin`. -/
def render (margin : String) : Outline → String
  | leaf text => text
  | field name value => name ++ ": " ++ render margin value
  | node opening closing parts =>
    opening ++ "\n" ++ renderParts (margin ++ "    ") parts ++ margin ++ closing

/-- Parts on lines of their own, with a comma after each. -/
def renderParts (margin : String) : List Outline → String
  | [] => ""
  | part :: rest => margin ++ render margin part ++ ",\n" ++ renderParts margin rest

end

/-- A part of named parts. -/
def record (name : String) (fields : List (String × Outline)) : Outline :=
  node (name ++ " \x7b") "\x7d" (fields.map fun (n, o) => field n o)

/-- A part with one part inside. -/
def wrap (name : String) (inner : Outline) : Outline := node (name ++ "(") ")" [inner]

def list (parts : List Outline) : Outline := if parts.isEmpty then leaf "[]" else node "[" "]" parts

def option : Option Outline → Outline
  | none => leaf "None"
  | some o => wrap "Some" o

def boolean (b : Bool) : Outline := leaf (if b then "true" else "false")

def string (s : String) : Outline := leaf (Quoted.string s)

def strings (ss : List String) : Outline := list (ss.map string)

end Outline

open Outline (leaf record wrap list option boolean string strings)

def LogicOp.outline : LogicOp → Outline
  | and => leaf "And"
  | or => leaf "Or"

def CompareOp.outline : CompareOp → Outline
  | equal => leaf "Eq"
  | notEqual => leaf "Ne"
  | less => leaf "Lt"
  | greater => leaf "Gt"
  | lessEqual => leaf "Le"
  | greaterEqual => leaf "Ge"

def ArithOp.outline : ArithOp → Outline
  | add => leaf "Add"
  | sub => leaf "Sub"
  | mul => leaf "Mul"
  | div => leaf "Div"

/-- The outline of a call with outlined arguments. -/
def callOutline (receiver : Option String) (method : String) (args : List Outline) : Outline :=
  record "MethodCall"
    [("object", option (receiver.map string)), ("method", string method), ("args", list args)]

/-- The outline of an operator between two operands. -/
def binaryOutline (name : String) (left op right : Outline) : Outline :=
  record name [("left", left), ("op", op), ("right", right)]

mutual

def Expr.outline : Expr → Outline
  | .boolean b => wrap "Boolean" (boolean b)
  | .number x => wrap "Number" (leaf (NumberFormat.outline.write x))
  | .string s => wrap "String" (string s)
  | .character c => wrap "Character" (leaf (Quoted.character c))
  | .var name => wrap "Variable" (string name)
  | .logic op l r => binaryOutline "BooleanOp" l.outline op.outline r.outline
  | .compare op l r => binaryOutline "Compare" l.outline op.outline r.outline
  | .arith op l r => binaryOutline "Math" l.outline op.outline r.outline
  | .call receiver method args => wrap "Call" (callOutline receiver method (outlineExprs args))
  | .construct cls args => record "New" [("class", string cls), ("args", list (outlineExprs args))]

def outlineExprs : List Expr → List Outline
  | [] => []
  | e :: rest => e.outline :: outlineExprs rest

end

def Call.outline (c : Call) : Outline := callOutline c.receiver c.method (outlineExprs c.args)

mutual

def Stmt.outline : Stmt → Outline
  | .assign target value => record "Assign" [("target", string target), ("value", value.outline)]
  | .call targets call =>
    wrap "Call" (record "MethodCallStatement"
      [("targets", strings targets), ("call", call.outline)])
  | .loop item source body =>
    record "Loop" [("variable", option (item.map string)), ("source", source.outline),
      ("body", list (outlineStmts body))]
  | .branch condition thenBody elseBody =>
    record "If" [("condition", condition.outline), ("then_body", list (outlineStmts thenBody)),
      ("else_body", outlineElse elseBody)]

def outlineStmts : List Stmt → List Outline
  | [] => []
  | s :: rest => s.outline :: outlineStmts rest

def outlineElse : Option (List Stmt) → Outline
  | none => option none
  | some body => option (some (list (outlineStmts body)))

end

/-- The outline of a section that may be missing. -/
def sectionOutline (body : Option (List Stmt)) : Outline :=
  option (body.map fun b => list (outlineStmts b))

def Declaration.outline (d : Declaration) : Outline :=
  record "VariableDecl" [("type_name", string d.typeName), ("name", string d.name)]

def declarationsOutline (ds : List Declaration) : Outline := list (ds.map Declaration.outline)

def Member.outline (m : Member) : Outline :=
  record "Member" [("declaration", m.declaration.outline), ("accessor", sectionOutline m.accessor),
    ("mutator", sectionOutline m.mutator)]

def MethodBody.outline : MethodBody → Outline
  | statements body => wrap "Statements" (list (outlineStmts body))
  | consoleWrite => wrap "Builtin" (leaf "ConsoleWrite")

def Method.outline (m : Method) : Outline :=
  record "MethodDecl" [("name", string m.name), ("is_shared", boolean m.isShared),
    ("is_private", boolean m.isPrivate), ("is_variadic", boolean m.isVariadic),
    ("params", declarationsOutline m.params), ("returns", declarationsOutline m.returns),
    ("locals", declarationsOutline m.locals), ("body", m.body.outline)]

def Constructor.outline (c : Constructor) : Outline :=
  record "Constructor" [("params", declarationsOutline c.params),
    ("locals", declarationsOutline c.locals), ("body", list (outlineStmts c.body))]

def Class.outline (c : Class) : Outline :=
  record "Class" [("name", string c.name), ("interfaces", strings c.interfaces),
    ("members", list (c.members.map Member.outline)),
    ("constructors", list (c.constructors.map Constructor.outline)),
    ("methods", list (c.methods.map Method.outline))]

def Signature.outline (s : Signature) : Outline :=
  record "MethodHeader" [("name", string s.name), ("params", declarationsOutline s.params),
    ("returns", declarationsOutline s.returns)]

def Interface.outline (i : Interface) : Outline :=
  record "Interface" [("name", string i.name), ("methods", list (i.methods.map Signature.outline))]

def Program.outline (p : Program) : Outline :=
  record "Program" [("classes", list (p.classes.map Class.outline)),
    ("interfaces", list (p.interfaces.map Interface.outline))]

end Offside
