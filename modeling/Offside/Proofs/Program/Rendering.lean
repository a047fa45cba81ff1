import Mathlib.Data.List.Basic
import Offside.Decimal.Notation
import Offside.Program.Grammar.Declaration
import Offside.Proofs.Program.Shape

/-!
Programs written down as tokens. What a token says is its kind and its text; places are left open.
Declarations are written type first, a block stands between a line end with an indent and a dedent,
a negative number is a minus sign and a number, and arithmetic to the right of an operator stands
in a group. Where an assigned value starts with a call without receiver, that call stands in a
group of its own. The order of a class's features, of a body's lines and of classes and interfaces
is free as far as each sort keeps its own order: `Program.Written` is a relation, and
`Program.render` is one choice.
-/
namespace Offside

/-- What a token says: its kind and its text. -/
abbrev Face : Type := Kind × Option String

def Token.face (t : Token) : Face := (t.kind, t.text)

namespace Face

/-- A token that its kind says all about. -/
def mark (kind : Kind) : Face := (kind, none)

def word (name : String) : Face := (.word, some name)

/-- Parts with commas between them. -/
def commas : List (List Face) → List Face
  | [] => []
  | [part] => part
  | part :: next :: parts => part ++ mark .comma :: commas (next :: parts)

def group (inner : List Face) : List Face := mark .lparen :: inner ++ [mark .rparen]

/-- An indented block after the line that opens it. -/
def block (inner : List Face) : List Face :=
  mark .newline :: mark .indent :: inner ++ [mark .dedent]

end Face

open Face

def LogicOp.kind : LogicOp → Kind
  | .and => .and
  | .or => .or

def CompareOp.kind : CompareOp → Kind
  | .equal => .equal
  | .notEqual => .notEqual
  | .less => .less
  | .greater => .greater
  | .lessEqual => .lessEqual
  | .greaterEqual => .greaterEqual

def ArithOp.kind : ArithOp → Kind
  | .add => .plus
  | .sub => .minus
  | .mul => .times
  | .div => .divide

/-- The text of a number without sign. -/
def numeral (x : Float) : String := String.ofList (NumberFormat.plain.magnitude x)

def numberFaces (x : Float) : List Face :=
  if signBit x then [mark .minus, (.number, some (numeral (-x)))]
  else [(.number, some (numeral x))]

namespace Expr

mutual

/-- An expression as tokens. -/
def faces : Expr → List Face
  | boolean value => [mark (if value then .keyTrue else .keyFalse)]
  | number x => numberFaces x
  | string value => [(.string, some value)]
  | character c => [(.character, some (String.ofList [c]))]
  | var name => [word name]
  | logic op l r => l.faces ++ mark op.kind :: r.faces
  | compare op l r => l.faces ++ mark op.kind :: r.faces
  | arith op l r => l.faces ++ mark op.kind :: (if r.isArith then group r.faces else r.faces)
  | call receiver method args =>
    (match receiver with
      | some object => [word object, mark .dot]
      | none => []) ++ word method :: group (commas (argFaces args))
  | construct cls args => mark .keyNew :: word cls :: group (commas (argFaces args))

/-- Each of several expressions as tokens. -/
def argFaces : List Expr → List (List Face)
  | [] => []
  | e :: es => e.faces :: argFaces es

end

theorem argFaces_eq (es : List Expr) : argFaces es = es.map faces := by
  induction es with
  | nil => rfl
  | cons e es ih => rw [argFaces, ih, List.map_cons]

/-- An assigned value: a call without receiver that it starts with stands in a group. -/
def valueFaces : Expr → List Face
  | logic op l r => l.valueFaces ++ mark op.kind :: r.faces
  | compare op l r => l.valueFaces ++ mark op.kind :: r.faces
  | arith op l r => l.valueFaces ++ mark op.kind :: (if r.isArith then group r.faces else r.faces)
  | call none method args => group (call none method args).faces
  | e => e.faces

end Expr

namespace Stmt

/-- The targets of a call statement, with the assignment mark after the last. -/
def targetFaces : List String → List Face
  | [] => []
  | [name] => [word name, mark .assign]
  | name :: next :: names => word name :: mark .comma :: targetFaces (next :: names)

mutual

/-- A statement as tokens, with the end of its line. -/
def faces : Stmt → List Face
  | assign target value => word target :: mark .assign :: value.valueFaces ++ [mark .newline]
  | call names c => targetFaces names ++ c.toExpr.faces ++ [mark .newline]
  | loop item source body =>
    mark .keyLoop :: (match item with
      | some name => [word name, mark .assign]
      | none => []) ++ source.faces ++ block (bodyFaces body)
  | branch condition thenBody elseBody =>
    mark .keyIf :: condition.faces ++ block (bodyFaces thenBody) ++
      match elseBody with
      | some body => mark .keyElse :: block (bodyFaces body)
      | none => []

/-- Statements one after the other as tokens. -/
def bodyFaces : List Stmt → List Face
  | [] => []
  | s :: ss => s.faces ++ bodyFaces ss

end

theorem bodyFaces_eq (ss : List Stmt) : bodyFaces ss = ss.flatMap faces := by
  induction ss with
  | nil => rfl
  | cons s ss ih => rw [bodyFaces, ih, List.flatMap_cons]

end Stmt

def Declaration.faces (d : Declaration) : List Face := [word d.typeName, word d.name]

def parameterFaces (ds : List Declaration) : List Face := group (commas (ds.map Declaration.faces))

def returnFaces : List Declaration → List Face
  | [] => []
  | d :: ds => mark .colon :: commas ((d :: ds).map Declaration.faces)

def Signature.faces (s : Signature) : List Face :=
  word s.name :: parameterFaces s.params ++ returnFaces s.returns ++ [mark .newline]

def Interface.faces (i : Interface) : List Face :=
  mark .keyInterface :: word i.name :: block (i.methods.flatMap Signature.faces)

/-- A member with those of its sections that it has. -/
def Member.faces (m : Member) : List Face :=
  let accessor := m.accessor.elim [] fun body =>
    mark .keyAccessor :: mark .colon :: block (Stmt.bodyFaces body)
  let mutator := m.mutator.elim [] fun body =>
    mark .keyMutator :: mark .colon :: block (Stmt.bodyFaces body)
  m.declaration.faces ++
    if m.accessor.isNone && m.mutator.isNone then [mark .newline] else block (accessor ++ mutator)

end Offside

namespace Offside.Grammar

open Face

def BodyLine.faces : BodyLine → List Face
  | .declared d => d.faces ++ [mark .newline]
  | .statement s => s.faces

/-- A body is written as lines that hold its declarations and its statements, each in order. -/
def BodyLine.Arrange (ls : List BodyLine) (locals : List Declaration) (body : List Stmt) : Prop :=
  BodyLine.locals ls = locals ∧ BodyLine.statements ls = body

end Offside.Grammar

namespace Offside

open Face Grammar

/-- What stands before the body of a method. -/
def Method.headFaces (m : Method) : List Face :=
  (if m.isShared then [mark .keyShared] else []) ++ (if m.isPrivate then [mark .keyPrivate] else [])
    ++ word m.name :: parameterFaces m.params ++ returnFaces m.returns

def Method.Written (m : Method) (w : List Face) : Prop :=
  ∃ ls, BodyLine.Arrange ls m.locals m.statements ∧
    w = m.headFaces ++ block (ls.flatMap BodyLine.faces)

def Constructor.Written (c : Constructor) (w : List Face) : Prop :=
  ∃ ls, BodyLine.Arrange ls c.locals c.body ∧
    w = mark .keyConstruct :: parameterFaces c.params ++ block (ls.flatMap BodyLine.faces)

def Grammar.Feature.Written : Feature → List Face → Prop
  | .member m, w => w = m.faces
  | .constructor c, w => c.Written w
  | .method m, w => m.Written w

def Class.headFaces (c : Class) : List Face :=
  mark .keyClass :: word c.name ::
    if c.interfaces = [] then []
    else mark .keyImplements :: commas (c.interfaces.map fun name => [word name])

/-- A class is written as features that hold its members, constructors and methods, each sort in
order. -/
def Class.Written (c : Class) (w : List Face) : Prop :=
  ∃ fs : List (Feature × List Face), (∀ f ∈ fs, f.1.Written f.2) ∧
    Feature.members (fs.map Prod.fst) = c.members ∧
    Feature.constructors (fs.map Prod.fst) = c.constructors ∧
    Feature.methods (fs.map Prod.fst) = c.methods ∧
    w = c.headFaces ++ block (fs.flatMap Prod.snd)

def Grammar.TopLevel.Written : TopLevel → List Face → Prop
  | .cls c, w => c.Written w
  | .interface i, w => w = i.faces

/-- A program is written as its classes and interfaces, each sort in order. -/
def Program.Written (p : Program) (w : List Face) : Prop :=
  ∃ us : List (TopLevel × List Face), (∀ u ∈ us, u.1.Written u.2) ∧
    TopLevel.classes (us.map Prod.fst) = p.classes ∧
    TopLevel.interfaces (us.map Prod.fst) = p.interfaces ∧
    w = us.flatMap Prod.snd

/-- The lines of a body with its declarations first. -/
def Grammar.BodyLine.arrangement (locals : List Declaration) (body : List Stmt) : List BodyLine :=
  locals.map .declared ++ body.map .statement

theorem Grammar.BodyLine.arrange_arrangement (locals : List Declaration) (body : List Stmt) :
    BodyLine.Arrange (BodyLine.arrangement locals body) locals body := by
  simp [BodyLine.Arrange, BodyLine.arrangement, BodyLine.locals, BodyLine.statements]

def Method.render (m : Method) : List Face :=
  m.headFaces ++ block ((BodyLine.arrangement m.locals m.statements).flatMap BodyLine.faces)

def Constructor.render (c : Constructor) : List Face :=
  mark .keyConstruct :: parameterFaces c.params ++
    block ((BodyLine.arrangement c.locals c.body).flatMap BodyLine.faces)

/-- A class with its members first, then its constructors and its methods. -/
def Class.render (c : Class) : List Face :=
  c.headFaces ++ block (c.members.flatMap Member.faces ++ c.constructors.flatMap Constructor.render
    ++ c.methods.flatMap Method.render)

/-- A program with its classes first. -/
def Program.render (p : Program) : List Face :=
  p.classes.flatMap Class.render ++ p.interfaces.flatMap Interface.faces

theorem Method.written_render (m : Method) : m.Written m.render :=
  ⟨_, BodyLine.arrange_arrangement _ _, rfl⟩

theorem Constructor.written_render (c : Constructor) : c.Written c.render :=
  ⟨_, BodyLine.arrange_arrangement _ _, rfl⟩

theorem Class.written_render (c : Class) : c.Written c.render := by
  refine ⟨c.members.map (fun m => (.member m, m.faces)) ++
    c.constructors.map (fun k => (.constructor k, k.render)) ++
    c.methods.map (fun m => (.method m, m.render)), ?_, ?_, ?_, ?_, ?_⟩
  · intro f hf
    simp only [List.mem_append, List.mem_map] at hf
    rcases hf with (⟨m, -, rfl⟩ | ⟨k, -, rfl⟩) | ⟨m, -, rfl⟩
    · rfl
    · exact k.written_render
    · exact m.written_render
  · simp [Feature.members, Function.comp_def]
  · simp [Feature.constructors, Function.comp_def]
  · simp [Feature.methods, Function.comp_def]
  · simp [Class.render, List.flatMap_map]

theorem Program.written_render (p : Program) : p.Written p.render := by
  refine ⟨p.classes.map (fun c => (.cls c, c.render)) ++
    p.interfaces.map (fun i => (.interface i, i.faces)), ?_, ?_, ?_, ?_⟩
  · intro u hu
    rcases List.mem_append.1 hu with hu | hu
    · obtain ⟨c, -, rfl⟩ := List.mem_map.1 hu
      exact c.written_render
    · obtain ⟨i, -, rfl⟩ := List.mem_map.1 hu
      rfl
  · simp [TopLevel.classes, Function.comp_def]
  · simp [TopLevel.interfaces, Function.comp_def]
  · simp [Program.render, List.flatMap_map]

end Offside
