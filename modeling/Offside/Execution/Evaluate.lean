import Offside.Execution.Operation
import Offside.Execution.Routine

/-!
The meaning of expressions and statements. Evaluation has a budget that every nested step lowers,
so it is defined by recursion on it; with budget left over, more of it changes nothing. Expressions,
calls and constructions have the frame of their body at hand as statements have; only the invocation
of a method, which makes a frame of its own, does without.
-/
namespace Offside

/-- What a run needs to know: its classes, and whether a new object also calls a method. -/
structure Setup where
  context : Context
  constructionCall : Bool

namespace Frame

/-- The class, the object and the standing of a call with this receiver. A variable wins over a
class of the same name. -/
def receiver (f : Frame) (ctx : Context) (h : Heap) :
    Option String → Except Fault (Class × Option ObjectId × Standing)
  | none => .ok (f.cls, f.this, .own)
  | some name =>
    match f.load? h name with
    | some v =>
      match v.object?.bind fun id => (h.get? id).map fun i => (i.cls, id) with
      | some (cls, id) => .ok (cls, some id, .object)
      | none => .error (.notAnObject name (v.typeName h))
    | none =>
      match ctx.find? name with
      | some cls => .ok (cls, none, .shared)
      | none => .error (.undefinedVariable name)

/-- The frame of a method at its start. -/
def ofMethod (cls : Class) (m : Method) (this : Option ObjectId) (args : List Value) : Frame :=
  ⟨cls, this, bind m.params args m.locals, m.returns.map (·.name)⟩

/-- The frame of a constructor at its start. -/
def ofConstructor (cls : Class) (c : Constructor) (this : ObjectId) (args : List Value) : Frame :=
  ⟨cls, some this, bind c.params args c.locals, []⟩

/-- The values of a method's return variables at its end. -/
def results (f : Frame) (m : Method) : Except Fault (List Value) :=
  m.returns.mapM fun d =>
    match f.locals.get? d.name with
    | some v => .ok v
    | none => .error (.unassignedReturn m.name d.name)

/-- The members of a new object: a variable of the same name lends its value. -/
def newMembers (f : Frame) (h : Heap) (members : List Member) : Bindings :=
  members.foldl (fun b m =>
    let d := m.declaration
    b.set d.name ((f.load? h d.name).getD (.default d.typeName))) .empty

end Frame

open Machine Routine

mutual

def Routine.ofExpr (s : Setup) : Nat → Expr → Routine Value
  | 0, _ => throw .exhausted
  | n + 1, e =>
    match e with
    | .boolean b => pure (.boolean b)
    | .number x => pure (.number x)
    | .string t => pure (.string t)
    | .character c => pure (.character c)
    | .var name => do
      match (← frame).load? (← heap) name with
      | some v => return v
      | none => fail (.undefinedVariable name)
    | .logic op l r => do
      let left ← Routine.ofExpr s n l
      let right ← Routine.ofExpr s n r
      ofExcept (op.apply (← heap) left right)
    | .compare op l r => do
      let left ← Routine.ofExpr s n l
      let right ← Routine.ofExpr s n r
      ofExcept (op.apply (← heap) left right)
    | .arith op l r => do
      let left ← Routine.ofExpr s n l
      let right ← Routine.ofExpr s n r
      ofExcept (op.apply (← heap) left right)
    | .call receiver method args => do
      match ← Routine.ofCall s n ⟨receiver, method, args⟩ with
      | v :: _ => return v
      | [] => fail (.noReturnValue method)
    | .construct cls args => Routine.ofConstruct s n cls args

/-- The return values of a call. Arguments come before the receiver. -/
def Routine.ofCall (s : Setup) : Nat → Call → Routine (List Value)
  | 0, _ => throw .exhausted
  | n + 1, c => do
    let args ← c.args.mapM (Routine.ofExpr s n)
    let f ← frame
    let (cls, this, standing) ← ofExcept (f.receiver s.context (← heap) c.receiver)
    let m ← ofExcept (cls.resolve standing c.method args)
    invoke s n (.call standing f.cls) cls m this args

/-- Runs a method. -/
def invoke (s : Setup) : Nat → Route → Class → Method → Option ObjectId → List Value →
    Machine (List Value)
  | 0, _, _, _, _, _ => throw .exhausted
  | n + 1, route, cls, m, this, args => do
    record (.invoked route cls m args.length)
    match m.body with
    | .consoleWrite => do
      writeLine args
      return []
    | .statements body =>
      if m.params.length = args.length then do
        let f ← (body.forM (Routine.ofStmt s n)).frameFrom (.ofMethod cls m this args)
        ofExcept (f.results m)
      else fail (.argumentCount m.name m.params.length args.length)

/-- Makes an object: its members, then the arguments, then the constructor for them, then the
method that construction calls. -/
def Routine.ofConstruct (s : Setup) : Nat → String → List Expr → Routine Value
  | 0, _, _ => throw .exhausted
  | n + 1, name, argExprs => do
    match s.context.find? name with
    | none => fail (.undefinedClass name)
    | some cls => do
      let f ← frame
      let id ← allocate ⟨cls, f.newMembers (← heap) cls.members⟩
      let args ← argExprs.mapM (Routine.ofExpr s n)
      Routine.ofRunConstructor s n cls id args
      if s.constructionCall then
        match cls.constructionMethod? args with
        | some m => do
          let _ ← invoke s n (.construction (← frame).cls) cls m (some id) args
        | none => pure ()
      return .object id

/-- Runs the constructor for the arguments; a class without constructors needs none. -/
def Routine.ofRunConstructor (s : Setup) : Nat → Class → ObjectId → List Value → Routine PUnit
  | 0, _, _, _ => throw .exhausted
  | n + 1, cls, id, args =>
    if cls.constructors.isEmpty then pure ()
    else
      match cls.constructor? args with
      | none => fail (.noConstructor cls.name args.length)
      | some c => do
        record (.constructed (← frame).cls cls c args.length)
        let _ ← (c.body.forM (Routine.ofStmt s n)).frameFrom (.ofConstructor cls c id args)

def Routine.ofStmt (s : Setup) : Nat → Stmt → Routine PUnit
  | 0, _ => throw .exhausted
  | n + 1, stmt =>
    match stmt with
    | .assign target value => do Routine.store target (← Routine.ofExpr s n value)
    | .call targets call => do
      let values ← Routine.ofCall s n call
      if values.length < targets.length then
        fail (.tooManyTargets call.method values.length targets.length)
      else (targets.zip values).forM fun (target, v) => Routine.store target v
    | .loop item source body => do
      let v ← Routine.ofExpr s n source
      match v.resolved with
      | .boolean _ => Routine.ofRepeatWhile s n source item body v
      | .object id => do
        match (← heap).get? id with
        | none => fail (.notIterable "")
        | some i =>
          match i.cls.iterator? with
          | none => fail (.notIterable i.cls.name)
          | some m => Routine.ofIterate s n i.cls m id item body
      | other => fail (.notIterable (other.typeName (← heap)))
    | .branch condition thenBody elseBody => do
      if ← Machine.condition (← Routine.ofExpr s n condition) then
        thenBody.forM (Routine.ofStmt s n)
      else (elseBody.getD []).forM (Routine.ofStmt s n)

/-- Runs a loop body once for every item of an iterator. -/
def Routine.ofIterate (s : Setup) : Nat → Class → Method → ObjectId → Option String → List Stmt →
    Routine PUnit
  | 0, _, _, _, _, _ => throw .exhausted
  | n + 1, cls, m, id, item, body => do
    match ← invoke s n (.iterator (← frame).cls) cls m (some id) [] with
    | [flag, value] =>
      match flag.resolved with
      | .boolean false => return
      | .boolean true => do
        Routine.storeItem value item
        body.forM (Routine.ofStmt s n)
        Routine.ofIterate s n cls m id item body
      | other => fail (.brokenIterator cls.name (.flagType (other.typeName (← heap))))
    | values => fail (.brokenIterator cls.name (.valueCount values.length))

/-- Runs a loop body as long as the condition, whose value is `v` now, is true. -/
def Routine.ofRepeatWhile (s : Setup) : Nat → Expr → Option String → List Stmt → Value →
    Routine PUnit
  | 0, _, _, _, _ => throw .exhausted
  | n + 1, source, item, body, v => do
    if ← condition v then do
      Routine.storeItem v item
      body.forM (Routine.ofStmt s n)
      Routine.ofRepeatWhile s n source item body (← Routine.ofExpr s n source)

end

/-- Evaluates arguments from left to right. -/
def Routine.ofArguments (s : Setup) (n : Nat) (args : List Expr) : Routine (List Value) :=
  args.mapM (Routine.ofExpr s n)

/-- Runs statements one after the other. -/
def Routine.ofBlock (s : Setup) (n : Nat) (body : List Stmt) : Routine PUnit :=
  body.forM (Routine.ofStmt s n)

end Offside
