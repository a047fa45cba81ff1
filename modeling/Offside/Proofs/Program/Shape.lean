import Offside.Program.Basic

/-!
Conditions at every depth of a program, and the shape of the programs that can be written down.
A condition on expressions holds everywhere in an expression if it holds of it and, again
everywhere, of its parts, arguments included; statements, declarations and methods are treated the
same way. The shape of a program is one set of such conditions: they say how far operators nest
without losing their order, which call statements there are, and which names a variable of a
scalar type may have.
-/
namespace Offside

theorem isScalarName_iff (name : String) : isScalarName name = true ↔ name ∈ scalarNames :=
  List.contains_iff_mem

/-- The conditions that are asked of each part of a program by itself. -/
structure Conditions where
  declaration : Declaration → Prop
  method : Method → Prop
  statement : Stmt → Prop
  expression : Expr → Prop

namespace Expr

/-- The expressions directly below an expression. -/
def children : Expr → List Expr
  | logic _ l r | compare _ l r | arith _ l r => [l, r]
  | call _ _ args | construct _ args => args
  | boolean _ | number _ | string _ | character _ | var _ => []

/-- The condition holds of the expression and of everything below it. -/
inductive Everywhere (P : Expr → Prop) : Expr → Prop
  | intro {e : Expr} (here : P e) (below : ∀ c ∈ e.children, Everywhere P c) : Everywhere P e

def isArith : Expr → Bool
  | arith _ _ _ => true
  | _ => false

def isCompare : Expr → Bool
  | compare _ _ _ => true
  | _ => false

def isLogic : Expr → Bool
  | logic _ _ _ => true
  | _ => false

/-- What may be an operand of arithmetic or of a comparison. -/
def isOperand (e : Expr) : Bool := !e.isCompare && !e.isLogic

/-- No right operand along the chain is arithmetic. -/
def isFlat : Expr → Bool
  | arith _ l r => !r.isArith && l.isFlat
  | _ => true

/-- Operators stand below operators of a lower rank only: arithmetic and comparisons have operands
without comparison or logic, a right side of logic is no logic, and a right operand of arithmetic
is a flat chain at most. -/
def Layered : Expr → Prop
  | arith _ l r => l.isOperand ∧ r.isOperand ∧ r.isFlat
  | compare _ l r => l.isOperand ∧ r.isOperand
  | logic _ _ r => r.isLogic = false
  | _ => True

/-- A number that has a text. -/
def NotNaN : Expr → Prop
  | number x => x.isNaN = false
  | _ => True

theorem Everywhere.here {P : Expr → Prop} {e : Expr} : e.Everywhere P → P e
  | .intro here _ => here

theorem Everywhere.inside {P : Expr → Prop} {e : Expr} :
    e.Everywhere P → ∀ c ∈ e.children, c.Everywhere P
  | .intro _ below => below

theorem Everywhere.mono {P Q : Expr → Prop} (h : ∀ e, P e → Q e) {e : Expr}
    (he : e.Everywhere P) : e.Everywhere Q := by
  induction he with
  | intro here _ ih => exact .intro (h _ here) ih

theorem Everywhere.leaf {P : Expr → Prop} {e : Expr} (hchildren : e.children = []) (here : P e) :
    e.Everywhere P := by
  refine .intro here ?_
  rw [hchildren]
  exact List.forall_mem_nil _

theorem Everywhere.pair {P : Expr → Prop} {e l r : Expr} (hchildren : e.children = [l, r])
    (here : P e) (hl : l.Everywhere P) (hr : r.Everywhere P) : e.Everywhere P := by
  refine .intro here ?_
  rw [hchildren]
  exact List.forall_mem_cons.2 ⟨hl, List.forall_mem_cons.2 ⟨hr, List.forall_mem_nil _⟩⟩

end Expr

namespace Stmt

/-- The expressions that stand in a statement itself. -/
def exprs : Stmt → List Expr
  | assign _ value => [value]
  | call _ c => c.args
  | loop _ source _ => [source]
  | branch condition _ _ => [condition]

/-- The statements directly below a statement. -/
def children : Stmt → List Stmt
  | assign _ _ | call _ _ => []
  | loop _ _ body => body
  | branch _ thenBody elseBody => thenBody ++ elseBody.getD []

/-- The conditions hold of the statement, of its expressions and of everything below it. -/
inductive Everywhere (k : Conditions) : Stmt → Prop
  | intro {s : Stmt} (here : k.statement s) (exprs : ∀ e ∈ s.exprs, e.Everywhere k.expression)
      (below : ∀ c ∈ s.children, Everywhere k c) : Everywhere k s

theorem Everywhere.here {k : Conditions} {s : Stmt} : s.Everywhere k → k.statement s
  | .intro here _ _ => here

theorem Everywhere.inExprs {k : Conditions} {s : Stmt} :
    s.Everywhere k → ∀ e ∈ s.exprs, e.Everywhere k.expression
  | .intro _ exprs _ => exprs

theorem Everywhere.inside {k : Conditions} {s : Stmt} :
    s.Everywhere k → ∀ c ∈ s.children, c.Everywhere k
  | .intro _ _ below => below

theorem Everywhere.mono {k k' : Conditions} (hstatement : ∀ s, k.statement s → k'.statement s)
    (hexpression : ∀ e, k.expression e → k'.expression e) {s : Stmt} (hs : s.Everywhere k) :
    s.Everywhere k' := by
  induction hs with
  | intro here exprs _ ih =>
    exact .intro (hstatement _ here) (fun e he => (exprs e he).mono hexpression) ih

/-- A call whose only value goes to one variable has no receiver. -/
def PlainTarget : Stmt → Prop
  | call names c => names.length = 1 → c.receiver = none
  | _ => True

end Stmt

structure Member.Everywhere (k : Conditions) (m : Member) : Prop where
  declaration : k.declaration m.declaration
  accessor : ∀ body ∈ m.accessor, ∀ s ∈ body, s.Everywhere k
  mutator : ∀ body ∈ m.mutator, ∀ s ∈ body, s.Everywhere k

structure Constructor.Everywhere (k : Conditions) (c : Constructor) : Prop where
  params : ∀ d ∈ c.params, k.declaration d
  locals : ∀ d ∈ c.locals, k.declaration d
  body : ∀ s ∈ c.body, s.Everywhere k

/-- The statements of a method. -/
def Method.statements (m : Method) : List Stmt :=
  match m.body with
  | .statements body => body
  | .consoleWrite => []

structure Method.Everywhere (k : Conditions) (m : Method) : Prop where
  here : k.method m
  params : ∀ d ∈ m.params, k.declaration d
  returns : ∀ d ∈ m.returns, k.declaration d
  locals : ∀ d ∈ m.locals, k.declaration d
  statements : ∀ s ∈ m.statements, s.Everywhere k

structure Signature.Everywhere (k : Conditions) (s : Signature) : Prop where
  params : ∀ d ∈ s.params, k.declaration d
  returns : ∀ d ∈ s.returns, k.declaration d

structure Class.Everywhere (k : Conditions) (c : Class) : Prop where
  members : ∀ m ∈ c.members, m.Everywhere k
  constructors : ∀ c' ∈ c.constructors, c'.Everywhere k
  methods : ∀ m ∈ c.methods, m.Everywhere k

/-- The conditions hold of every part of the program, at every depth. -/
structure Program.Everywhere (k : Conditions) (p : Program) : Prop where
  classes : ∀ c ∈ p.classes, c.Everywhere k
  interfaces : ∀ i ∈ p.interfaces, ∀ s ∈ i.methods, s.Everywhere k

/-- A variable is named like a scalar type only if its type is scalar too. -/
def Declaration.Settled (d : Declaration) : Prop :=
  d.name ∈ scalarNames → d.typeName ∈ scalarNames

/-- A method with fixed parameters and a body of statements. -/
def Method.Plain (m : Method) : Prop := m.isVariadic = false ∧ m.hasStatements = true

/-- The conditions that make the shape of a program. -/
def Conditions.shape : Conditions where
  declaration := Declaration.Settled
  method := Method.Plain
  statement := Stmt.PlainTarget
  expression := Expr.Layered

/-- The condition that every number has a text. -/
def Conditions.numbers : Conditions where
  declaration _ := True
  method _ := True
  statement _ := True
  expression := Expr.NotNaN

/-- A program of the shape that written programs have. -/
def Program.Shaped (p : Program) : Prop := p.Everywhere .shape

end Offside
