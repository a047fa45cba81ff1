import Offside.Proofs.Execution.Routine
import Offside.Proofs.Execution.Store

/-!
The evaluator written out as code. The eight functions of the evaluator become tasks, so that what
holds of all of them is said once, and the code of a task says what it asks for: an effect on the
world, or another task. `Task.run_succ` states that the evaluator runs this code. Unlike a function,
code can be stopped between any two of its requests.
-/
namespace Offside

namespace Machine

variable {α β : Type}

/-- The world that a computation leaves, whether it succeeds or not. -/
def final (x : Machine α) (w : World) : World :=
  match x w with
  | .ok _ w' => w'
  | .error _ w' => w'

theorem final_ok {x : Machine α} {w w' : World} {a : α} (h : x w = .ok a w') : x.final w = w' := by
  rw [final, h]

theorem final_error {x : Machine α} {w w' : World} {e : Halt} (h : x w = .error e w') :
    x.final w = w' := by
  rw [final, h]

theorem bind_ok {x : Machine α} {k : α → Machine β} {w w' : World} {a : α} (h : x w = .ok a w') :
    (x >>= k) w = k a w' := by
  simp only [bind, EStateM.bind, h]

theorem bind_error {x : Machine α} {k : α → Machine β} {w w' : World} {e : Halt}
    (h : x w = .error e w') : (x >>= k) w = .error e w' := by
  simp only [bind, EStateM.bind, h]

end Machine

/-- One evaluation: what is evaluated, and the frame or the values it works on. -/
inductive Task where
  | expr (f : Frame) (e : Expr)
  | call (f : Frame) (c : Call)
  | invoke (route : Route) (cls : Class) (m : Method) (this : Option ObjectId) (args : List Value)
  | construct (f : Frame) (name : String) (args : List Expr)
  | runConstructor (f : Frame) (cls : Class) (id : ObjectId) (args : List Value)
  | stmt (f : Frame) (st : Stmt)
  | iterate (cls : Class) (m : Method) (id : ObjectId) (item : Option String) (body : List Stmt)
      (f : Frame)
  | repeatWhile (source : Expr) (item : Option String) (body : List Stmt) (v : Value) (f : Frame)

namespace Task

/-- What a task gives when it succeeds. -/
def Answer : Task → Type
  | expr .. | construct .. => Value
  | call .. | invoke .. => List Value
  | runConstructor .. => PUnit
  | stmt .. | iterate .. | repeatWhile .. => Frame

def run (s : Setup) (n : Nat) : (t : Task) → Machine t.Answer
  | expr f e => evalExpr s n f e
  | call f c => evalCall s n f c
  | invoke route cls m this args => Offside.invoke s n route cls m this args
  | construct f name args => Offside.construct s n f name args
  | runConstructor f cls id args => Offside.runConstructor s n f cls id args
  | stmt f st => execStmt s n f st
  | iterate cls m id item body f => Offside.iterate s n cls m id item body f
  | repeatWhile source item body v f => Offside.repeatWhile s n source item body v f

theorem run_zero (s : Setup) (t : Task) : t.run s 0 = throw .exhausted := by
  cases t <;> rfl

end Task

/-- What the machine can do to the world in one step. -/
inductive Effect where
  | heap
  | record (e : Event)
  | writeLine (vs : List Value)
  | allocate (i : Instance)
  | write (f : Frame) (name : String) (v : Value) (slot : Slot)

namespace Effect

def Answer : Effect → Type
  | heap => Heap
  | record _ | writeLine _ => PUnit
  | allocate _ => ObjectId
  | write .. => Frame

def apply : (x : Effect) → World → x.Answer × World
  | heap, w => (w.heap, w)
  | record e, w => (⟨⟩, { w with journal := e :: w.journal })
  | writeLine vs, w =>
    (⟨⟩, { w with console := w.console.push (" ".intercalate (vs.map (·.output w.heap))) })
  | allocate i, w => ((w.heap.alloc i).1, { w with heap := (w.heap.alloc i).2 })
  | write f name v slot, w =>
    ((f.write w.heap name v slot).1, { w with heap := (f.write w.heap name v slot).2 })

end Effect

/-- A computation step by step: each request with what is done with its answer. -/
inductive Code (α : Type) where
  | done (a : α)
  | halt (e : Halt)
  | effect (x : Effect) (k : x.Answer → Code α)
  | task (t : Task) (k : t.Answer → Code α)

namespace Code

variable {α β γ : Type}

def bind : Code α → (α → Code β) → Code β
  | done a, k => k a
  | halt e, _ => halt e
  | effect x k', k => effect x fun a => (k' a).bind k
  | task t k', k => task t fun a => (k' a).bind k

instance : Monad Code where
  pure := done
  bind := bind

theorem bind_done (c : Code α) : c.bind done = c := by
  induction c with
  | done | halt => rfl
  | effect x k ih => exact congrArg (effect x) (funext ih)
  | task t k ih => exact congrArg (task t) (funext ih)

theorem bind_bind (c : Code α) (k : α → Code β) (k' : β → Code γ) :
    (c.bind k).bind k' = c.bind fun a => (k a).bind k' := by
  induction c with
  | done | halt => rfl
  | effect x k ih => exact congrArg (effect x) (funext ih)
  | task t k ih => exact congrArg (task t) (funext ih)

instance : LawfulMonad Code :=
  .mk' _ bind_done (fun _ _ => rfl) bind_bind

/-- Runs code, given what answers its tasks. -/
def run (answer : (t : Task) → Machine t.Answer) : Code α → Machine α
  | done a => pure a
  | halt e => throw e
  | effect x k => modifyGet x.apply >>= fun a => (k a).run answer
  | task t k => answer t >>= fun a => (k a).run answer

variable {answer : (t : Task) → Machine t.Answer}

@[simp]
theorem run_pure (a : α) : (Pure.pure a : Code α).run answer = Pure.pure a := rfl

@[simp]
theorem run_bind (c : Code α) (k : α → Code β) :
    (c >>= k).run answer = c.run answer >>= fun a => (k a).run answer := by
  induction c with
  | done | halt => rfl
  | effect x k' ih =>
    refine Eq.trans ?_ (bind_assoc _ _ _).symm
    exact congrArg (modifyGet x.apply >>= ·) (funext ih)
  | task t k' ih =>
    refine Eq.trans ?_ (bind_assoc _ _ _).symm
    exact congrArg (answer t >>= ·) (funext ih)

@[simp]
theorem run_mapM (g : α → Code β) (items : List α) :
    (items.mapM g).run answer = items.mapM fun a => (g a).run answer := by
  induction items with
  | nil => rfl
  | cons a items ih => simp only [List.mapM_cons, run_bind, ih, run_pure]

@[simp]
theorem run_foldlM (g : β → α → Code β) (items : List α) (b : β) :
    (items.foldlM g b).run answer = items.foldlM (fun b a => (g b a).run answer) b := by
  induction items generalizing b with
  | nil => rfl
  | cons a items ih => simp only [List.foldlM_cons, run_bind, ih]

def fail (f : Fault) : Code α := halt (.fault f)

def ofExcept : Except Fault α → Code α
  | .ok a => done a
  | .error f => fail f

def heap : Code Heap := effect .heap done

def record (e : Event) : Code PUnit := effect (.record e) done

def writeLine (vs : List Value) : Code PUnit := effect (.writeLine vs) done

def allocate (i : Instance) : Code ObjectId := effect (.allocate i) done

def write (f : Frame) (name : String) (v : Value) (slot : Slot) : Code Frame :=
  effect (.write f name v slot) done

def ask (t : Task) : Code t.Answer := task t done

def store (f : Frame) (name : String) (v : Value) : Code Frame := do
  match f.slot? (← heap) name with
  | some slot => write f name v slot
  | none => fail (.undefinedVariable name)

def storeItem (f : Frame) (v : Value) : Option String → Code Frame
  | some name => do write f name v (f.itemSlot (← heap) name)
  | none => return f

def condition (v : Value) : Code Bool := do
  match v.resolved with
  | .boolean b => return b
  | other => fail (.conditionNotBoolean (other.typeName (← heap)))

def expr (f : Frame) (e : Expr) : Code Value := ask (.expr f e)

def call (f : Frame) (c : Call) : Code (List Value) := ask (.call f c)

def invoke (route : Route) (cls : Class) (m : Method) (this : Option ObjectId)
    (args : List Value) : Code (List Value) :=
  ask (.invoke route cls m this args)

def construct (f : Frame) (name : String) (args : List Expr) : Code Value :=
  ask (.construct f name args)

def runConstructor (f : Frame) (cls : Class) (id : ObjectId) (args : List Value) : Code PUnit :=
  ask (.runConstructor f cls id args)

def stmt (f : Frame) (st : Stmt) : Code Frame := ask (.stmt f st)

def iterate (cls : Class) (m : Method) (id : ObjectId) (item : Option String) (body : List Stmt)
    (f : Frame) : Code Frame :=
  ask (.iterate cls m id item body f)

def repeatWhile (source : Expr) (item : Option String) (body : List Stmt) (v : Value)
    (f : Frame) : Code Frame :=
  ask (.repeatWhile source item body v f)

def exprs (f : Frame) (es : List Expr) : Code (List Value) := es.mapM (expr f)

def stmts (f : Frame) (body : List Stmt) : Code Frame := body.foldlM stmt f

/-- Evaluates both operands and applies the operator. -/
def operation (f : Frame) (l r : Expr) (op : Heap → Value → Value → Except Fault Value) :
    Code Value := do
  let left ← expr f l
  let right ← expr f r
  ofExcept (op (← heap) left right)

def ofExpr (f : Frame) : Expr → Code Value
  | .boolean b => return .boolean b
  | .number x => return .number x
  | .string t => return .string t
  | .character c => return .character c
  | .var name => do
    match f.load? (← heap) name with
    | some v => return v
    | none => fail (.undefinedVariable name)
  | .logic op l r => operation f l r op.apply
  | .compare op l r => operation f l r op.apply
  | .arith op l r => operation f l r op.apply
  | .call receiver method args => do
    match ← call f ⟨receiver, method, args⟩ with
    | v :: _ => return v
    | [] => fail (.noReturnValue method)
  | .construct cls args => construct f cls args

def ofCall (s : Setup) (f : Frame) (c : Call) : Code (List Value) := do
  let args ← exprs f c.args
  let (cls, this, standing) ← ofExcept (f.receiver s.context (← heap) c.receiver)
  let m ← ofExcept (cls.resolve standing c.method args)
  invoke (.call standing f.cls) cls m this args

def ofInvoke (route : Route) (cls : Class) (m : Method) (this : Option ObjectId)
    (args : List Value) : Code (List Value) := do
  record (.invoked route cls m args.length)
  match m.body with
  | .consoleWrite => do
    writeLine args
    return []
  | .statements body =>
    if m.params.length = args.length then do
      let f ← stmts (.ofMethod cls m this args) body
      ofExcept (f.results m)
    else fail (.argumentCount m.name m.params.length args.length)

def ofConstruct (s : Setup) (f : Frame) (name : String) (argExprs : List Expr) : Code Value := do
  match s.context.find? name with
  | none => fail (.undefinedClass name)
  | some cls => do
    let id ← allocate ⟨cls, f.newMembers (← heap) cls.members⟩
    let args ← exprs f argExprs
    runConstructor f cls id args
    if s.constructionCall then
      match cls.constructionMethod? args with
      | some m => do
        let _ ← invoke (.construction f.cls) cls m (some id) args
      | none => pure ()
    return .object id

def ofRunConstructor (f : Frame) (cls : Class) (id : ObjectId) (args : List Value) : Code PUnit :=
  if cls.constructors.isEmpty then pure ()
  else
    match cls.constructor? args with
    | none => fail (.noConstructor cls.name args.length)
    | some c => do
      record (.constructed f.cls cls c args.length)
      let _ ← stmts (.ofConstructor cls c id args) c.body

def ofStmt (f : Frame) : Stmt → Code Frame
  | .assign target value => do store f target (← expr f value)
  | .call targets c => do
    let values ← call f c
    if values.length < targets.length then
      fail (.tooManyTargets c.method values.length targets.length)
    else (targets.zip values).foldlM (fun f (target, v) => store f target v) f
  | .loop item source body => do
    let v ← expr f source
    match v.resolved with
    | .boolean _ => repeatWhile source item body v f
    | .object id => do
      match (← heap).get? id with
      | none => fail (.notIterable "")
      | some i =>
        match i.cls.iterator? with
        | none => fail (.notIterable i.cls.name)
        | some m => iterate i.cls m id item body f
    | other => fail (.notIterable (other.typeName (← heap)))
  | .branch condition thenBody elseBody => do
    if ← Code.condition (← expr f condition) then stmts f thenBody
    else stmts f (elseBody.getD [])

def ofIterate (cls : Class) (m : Method) (id : ObjectId) (item : Option String)
    (body : List Stmt) (f : Frame) : Code Frame := do
  match ← invoke (.iterator f.cls) cls m (some id) [] with
  | [flag, value] =>
    match flag.resolved with
    | .boolean false => return f
    | .boolean true => do
      let f ← storeItem f value item
      let f ← stmts f body
      iterate cls m id item body f
    | other => fail (.brokenIterator cls.name (.flagType (other.typeName (← heap))))
  | values => fail (.brokenIterator cls.name (.valueCount values.length))

def ofRepeatWhile (source : Expr) (item : Option String) (body : List Stmt) (v : Value)
    (f : Frame) : Code Frame := do
  if ← condition v then do
    let f ← storeItem f v item
    let f ← stmts f body
    repeatWhile source item body (← expr f source) f
  else return f

@[simp]
theorem run_ask (t : Task) : (ask t).run answer = answer t := bind_pure (answer t)

@[simp]
theorem run_ofExcept (e : Except Fault α) : (ofExcept e).run answer = Machine.ofExcept e := by
  cases e <;> rfl

@[simp]
theorem run_heap : heap.run answer = Machine.heap := rfl

@[simp]
theorem run_record (e : Event) : (record e).run answer = Machine.record e := rfl

@[simp]
theorem run_allocate (i : Instance) : (allocate i).run answer = Machine.allocate i := rfl

@[simp]
theorem run_store (f : Frame) (name : String) (v : Value) :
    (store f name v).run answer = Machine.store f name v := by
  simp only [store, Machine.store, run_bind, run_heap]
  congr 1
  funext h
  cases f.slot? h name <;> rfl

@[simp]
theorem run_storeItem (f : Frame) (v : Value) (item : Option String) :
    (storeItem f v item).run answer = Machine.storeItem f v item := by
  cases item <;> rfl

@[simp]
theorem run_condition (v : Value) : (condition v).run answer = Machine.condition v := by
  unfold condition Machine.condition
  cases v.resolved <;> rfl

section

variable {s : Setup} {n : Nat} (f : Frame) (cls : Class) (m : Method) (id : ObjectId)
  (args : List Value) (item : Option String) (body : List Stmt)

@[simp]
theorem run_expr (e : Expr) : (expr f e).run (Task.run s n) = evalExpr s n f e := run_ask _

@[simp]
theorem run_call (c : Call) : (call f c).run (Task.run s n) = evalCall s n f c := run_ask _

@[simp]
theorem run_invoke (route : Route) (this : Option ObjectId) :
    (invoke route cls m this args).run (Task.run s n) =
      Offside.invoke s n route cls m this args := run_ask _

@[simp]
theorem run_construct (name : String) (es : List Expr) :
    (construct f name es).run (Task.run s n) = Offside.construct s n f name es := run_ask _

@[simp]
theorem run_runConstructor :
    (runConstructor f cls id args).run (Task.run s n) =
      Offside.runConstructor s n f cls id args := run_ask _

@[simp]
theorem run_stmt (st : Stmt) : (stmt f st).run (Task.run s n) = execStmt s n f st := run_ask _

@[simp]
theorem run_iterate :
    (iterate cls m id item body f).run (Task.run s n) =
      Offside.iterate s n cls m id item body f := run_ask _

@[simp]
theorem run_repeatWhile (source : Expr) (v : Value) :
    (repeatWhile source item body v f).run (Task.run s n) =
      Offside.repeatWhile s n source item body v f := run_ask _

@[simp]
theorem run_exprs (es : List Expr) :
    (exprs f es).run (Task.run s n) = es.mapM (evalExpr s n f) := by
  simp only [exprs, run_mapM, run_expr]

@[simp]
theorem run_stmts : (stmts f body).run (Task.run s n) = execBlock s n f body := by
  simp only [stmts, run_foldlM, run_stmt, execBlock_eq_foldlM]

theorem run_operation (l r : Expr) (op : Heap → Value → Value → Except Fault Value) :
    (operation f l r op).run (Task.run s n) = (do
      let left ← evalExpr s n f l
      let right ← evalExpr s n f r
      Machine.ofExcept (op (← Machine.heap) left right)) := by
  simp only [operation, run_bind, run_expr, run_heap, run_ofExcept]

theorem run_ofExpr (e : Expr) : (ofExpr f e).run (Task.run s n) = evalExpr s (n + 1) f e := by
  cases e with
  | boolean | number | string | character => rfl
  | var name =>
    simp only [ofExpr, evalExpr_var, run_bind, run_heap]
    refine bind_congr fun h => ?_
    cases f.load? h name <;> rfl
  | logic op l r | compare op l r | arith op l r =>
    exact (run_operation f l r op.apply).trans (valueFrom_operation s n f l r op.apply).symm
  | call receiver method args =>
    simp only [ofExpr, evalExpr_call, run_bind, run_call]
    refine bind_congr fun vs => ?_
    cases vs <;> rfl
  | construct cls args => exact run_construct f cls args

theorem run_ofCall (c : Call) : (ofCall s f c).run (Task.run s n) = evalCall s (n + 1) f c := by
  simp only [ofCall, evalCall_succ, run_bind, run_exprs, run_heap, run_ofExcept, run_invoke]

theorem run_ofInvoke (route : Route) (this : Option ObjectId) :
    (ofInvoke route cls m this args).run (Task.run s n) =
      Offside.invoke s (n + 1) route cls m this args := by
  simp only [ofInvoke, Offside.invoke, run_bind, run_record]
  refine bind_congr fun _ => ?_
  cases m.body with
  | consoleWrite => rfl
  | statements body =>
    simp only
    split
    · simp only [run_bind, run_stmts, run_ofExcept]
      rfl
    · rfl

theorem run_ofConstruct (name : String) (es : List Expr) :
    (ofConstruct s f name es).run (Task.run s n) = Offside.construct s (n + 1) f name es := by
  rw [construct_succ]
  unfold ofConstruct
  cases s.context.find? name with
  | none => rfl
  | some cls =>
    simp only [run_bind, run_heap, run_allocate, run_exprs, run_runConstructor]
    refine bind_congr fun _ => bind_congr fun id => bind_congr fun vs => bind_congr fun _ => ?_
    split
    · cases cls.constructionMethod? vs with
      | none => rfl
      | some m => simp only [run_bind, run_invoke, run_pure]
    · rfl

theorem run_ofRunConstructor :
    (ofRunConstructor f cls id args).run (Task.run s n) =
      Offside.runConstructor s (n + 1) f cls id args := by
  rw [runConstructor_succ]
  unfold ofRunConstructor
  split
  · rfl
  · cases cls.constructor? args with
    | none => rfl
    | some c => simp only [run_bind, run_record, run_stmts, run_pure]

theorem run_ofStmt (st : Stmt) : (ofStmt f st).run (Task.run s n) = execStmt s (n + 1) f st := by
  cases st with
  | assign target value => simp only [ofStmt, execStmt_assign, run_bind, run_expr, run_store]
  | call targets c =>
    simp only [ofStmt, execStmt_call, run_bind, run_call]
    refine bind_congr fun vs => ?_
    split
    · rfl
    · simp only [run_foldlM, run_store]
  | loop item source body =>
    simp only [ofStmt, execStmt_loop, run_bind, run_expr]
    refine bind_congr fun v => ?_
    cases v.resolved with
    | boolean => exact run_repeatWhile f item body source v
    | object id =>
      simp only [run_bind, run_heap]
      refine bind_congr fun h => ?_
      cases h.get? id with
      | none => rfl
      | some i =>
        simp only
        cases i.cls.iterator? with
        | none => rfl
        | some m => exact run_iterate f i.cls m id item body
    | _ => rfl
  | branch condition thenBody elseBody =>
    simp only [ofStmt, execStmt_branch, run_bind, run_expr, run_condition]
    refine bind_congr fun v => bind_congr fun b => ?_
    split
    · exact run_stmts f thenBody
    · exact run_stmts f (elseBody.getD [])

theorem run_ofIterate :
    (ofIterate cls m id item body f).run (Task.run s n) =
      Offside.iterate s (n + 1) cls m id item body f := by
  simp only [ofIterate, iterate_succ, run_bind, run_invoke]
  refine bind_congr fun vs => ?_
  rcases vs with _ | ⟨flag, _ | ⟨value, _ | ⟨v, vs⟩⟩⟩
  · rfl
  · rfl
  · simp only
    cases flag.resolved with
    | boolean b =>
      cases b with
      | false => rfl
      | true => simp only [run_bind, run_storeItem, run_stmts, run_iterate]
    | _ => rfl
  · rfl

theorem run_ofRepeatWhile (source : Expr) (v : Value) :
    (ofRepeatWhile source item body v f).run (Task.run s n) =
      Offside.repeatWhile s (n + 1) source item body v f := by
  simp only [ofRepeatWhile, repeatWhile_succ, run_bind, run_condition]
  refine bind_congr fun b => ?_
  split
  · simp only [run_bind, run_storeItem, run_stmts, run_expr, run_repeatWhile]
  · rfl

end

end Code

def Task.code (s : Setup) : (t : Task) → Code t.Answer
  | expr f e => .ofExpr f e
  | call f c => .ofCall s f c
  | invoke route cls m this args => .ofInvoke route cls m this args
  | construct f name args => .ofConstruct s f name args
  | runConstructor f cls id args => .ofRunConstructor f cls id args
  | stmt f st => .ofStmt f st
  | iterate cls m id item body f => .ofIterate cls m id item body f
  | repeatWhile source item body v f => .ofRepeatWhile source item body v f

/-- The evaluator runs the code of its tasks. -/
theorem Task.run_succ (s : Setup) (n : Nat) (t : Task) :
    t.run s (n + 1) = (t.code s).run (Task.run s n) := by
  cases t with
  | expr => exact (Code.run_ofExpr ..).symm
  | call => exact (Code.run_ofCall ..).symm
  | invoke => exact (Code.run_ofInvoke ..).symm
  | construct => exact (Code.run_ofConstruct ..).symm
  | runConstructor => exact (Code.run_ofRunConstructor ..).symm
  | stmt => exact (Code.run_ofStmt ..).symm
  | iterate => exact (Code.run_ofIterate ..).symm
  | repeatWhile => exact (Code.run_ofRepeatWhile ..).symm

end Offside
