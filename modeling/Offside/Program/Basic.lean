/-!
Programs: classes with members, constructors and methods, interfaces with signatures, statements
and expressions. Types are names; four scalar types have names of their own, any other name is
taken for a class.
-/
namespace Offside

/-- The names that stand for scalar types. -/
def scalarNames : List String :=
  ["number", "int", "string", "String", "boolean", "char", "character"]

def isScalarName (name : String) : Bool := scalarNames.contains name

inductive LogicOp where
  | and | or
deriving DecidableEq

inductive CompareOp where
  | equal | notEqual | less | greater | lessEqual | greaterEqual
deriving DecidableEq

inductive ArithOp where
  | add | sub | mul | div
deriving DecidableEq

inductive Expr where
  | boolean (value : Bool)
  | number (value : Float)
  | string (value : String)
  | character (value : Char)
  | var (name : String)
  | logic (op : LogicOp) (left right : Expr)
  | compare (op : CompareOp) (left right : Expr)
  | arith (op : ArithOp) (left right : Expr)
  /-- A method call; without a receiver it is a call of the surrounding class. -/
  | call (receiver : Option String) (method : String) (args : List Expr)
  /-- A new object of a class. -/
  | construct (cls : String) (args : List Expr)

/-- A method call by itself. -/
structure Call where
  receiver : Option String
  method : String
  args : List Expr

def Call.toExpr (c : Call) : Expr := .call c.receiver c.method c.args

inductive Stmt where
  | assign (target : String) (value : Expr)
  /-- A call whose return values go to the targets in order. -/
  | call (targets : List String) (call : Call)
  /-- Repeats while the source is true, or for each item of an iterator. -/
  | loop (item : Option String) (source : Expr) (body : List Stmt)
  | branch (condition : Expr) (thenBody : List Stmt) (elseBody : Option (List Stmt))

/-- A variable with its type. -/
structure Declaration where
  typeName : String
  name : String
deriving DecidableEq

/-- A member variable. The sections are kept when they are written, even if they are empty. -/
structure Member where
  declaration : Declaration
  accessor : Option (List Stmt)
  mutator : Option (List Stmt)

inductive MethodBody where
  | statements (body : List Stmt)
  /-- Writes the arguments as one line to the console. -/
  | consoleWrite

structure Method where
  name : String
  isShared : Bool
  isPrivate : Bool
  /-- Whether any arguments are taken, whatever the parameters. -/
  isVariadic : Bool
  params : List Declaration
  returns : List Declaration
  locals : List Declaration
  body : MethodBody

structure Constructor where
  params : List Declaration
  locals : List Declaration
  body : List Stmt

structure Class where
  name : String
  interfaces : List String
  members : List Member
  constructors : List Constructor
  methods : List Method

/-- A method of an interface. -/
structure Signature where
  name : String
  params : List Declaration
  returns : List Declaration
deriving DecidableEq

structure Interface where
  name : String
  methods : List Signature
deriving DecidableEq

structure Program where
  classes : List Class
  interfaces : List Interface

namespace Method

/-- A method that an iterator loop asks for the next item: it takes nothing and returns a boolean
and the item. -/
def isIterator (m : Method) : Bool :=
  m.name == "getNext" && m.params.isEmpty && m.returns.length == 2 &&
    m.returns.head?.any (·.typeName == "boolean")

/-- A method that a run can start with. -/
def isEntry (m : Method) : Bool :=
  m.name == "start" && m.isShared && !m.isPrivate && m.params.isEmpty

/-- Whether the body is made of statements. -/
def hasStatements (m : Method) : Bool :=
  match m.body with
  | .statements _ => true
  | .consoleWrite => false

end Method

/-- The method that drives iterator loops over objects of the class. -/
def Class.iterator? (c : Class) : Option Method := c.methods.find? Method.isIterator

end Offside
