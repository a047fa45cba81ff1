import Offside.Execution.Evaluate

/-!
What becomes of the frame of a routine. Expressions, arguments, calls and constructions may write
the frame of the body that they stand in, as statements may, but they leave it as it was, however
they end (`Routine.ofExpr_keeps` and the lemmas beside it). So the value of an expression can be
taken from a frame without looking at the frame that comes back, and a statement is told by the
frame that it makes of the one before.
-/
namespace Offside

namespace Routine

variable {α β : Type} {x : Routine α} {k : α → Routine β} {f : Frame}

/-- The value that a routine gives from a frame. -/
def valueFrom (x : Routine α) (f : Frame) : Machine α := fun w =>
  match x ⟨f, w⟩ with
  | .ok v ⟨_, w'⟩ => .ok v w'
  | .error e ⟨_, w'⟩ => .error e w'

/-- What a routine leaves behind, whether it succeeds or not. -/
def final (x : Routine α) (a : Activation) : Activation :=
  match x a with
  | .ok _ b => b
  | .error _ b => b

/-- However the routine ends, the frame is as it was. -/
def Keeps (x : Routine α) : Prop := ∀ a, (x.final a).frame = a.frame

theorem keeps_pure (v : α) : Keeps (pure v) := fun _ => rfl

theorem keeps_throw (e : Halt) : Keeps (throw e : Routine α) := fun _ => rfl

theorem keeps_frame : Keeps frame := fun _ => rfl

theorem keeps_lift (x : Machine α) : Keeps (liftM x) := by
  rintro ⟨f, w⟩
  change (final (lift x) ⟨f, w⟩).frame = f
  cases h : x w <;> simp only [final, lift, h]

theorem final_bind_ok {a b : Activation} {v : α} (h : x a = .ok v b) :
    (x >>= k).final a = (k v).final b := by
  simp only [final, bind, EStateM.bind, h]

theorem final_bind_error {a b : Activation} {e : Halt} (h : x a = .error e b) :
    (x >>= k).final a = b := by
  simp only [final, bind, EStateM.bind, h]

theorem Keeps.of_ok (hx : x.Keeps) {a b : Activation} {v : α} (h : x a = .ok v b) :
    b.frame = a.frame := by
  have hframe := hx a
  rwa [final, h] at hframe

theorem Keeps.of_error (hx : x.Keeps) {a b : Activation} {e : Halt} (h : x a = .error e b) :
    b.frame = a.frame := by
  have hframe := hx a
  rwa [final, h] at hframe

theorem Keeps.bind (hx : x.Keeps) (hk : ∀ v, (k v).Keeps) : (x >>= k).Keeps := by
  intro a
  cases h : x a with
  | ok v b => rw [final_bind_ok h, hk v b, hx.of_ok h]
  | error e b => rw [final_bind_error h, hx.of_error h]

theorem Keeps.mapM {g : β → Routine α} (hg : ∀ b, (g b).Keeps) (items : List β) :
    (items.mapM g).Keeps := by
  induction items with
  | nil =>
    rw [List.mapM_nil]
    exact keeps_pure _
  | cons b items ih =>
    rw [List.mapM_cons]
    exact (hg b).bind fun v => ih.bind fun vs => keeps_pure _

/-- A routine that keeps the frame is what the machine does, beside the frame. -/
theorem Keeps.eq_lift (hx : x.Keeps) (a : Activation) : x a = lift (x.valueFrom a.frame) a := by
  obtain ⟨f, w⟩ := a
  cases h : x ⟨f, w⟩ with
  | ok v b =>
    have hframe : b.frame = f := hx.of_ok h
    subst hframe
    simp only [lift, valueFrom, h]
  | error e b =>
    have hframe : b.frame = f := hx.of_error h
    subst hframe
    simp only [lift, valueFrom, h]

section Step

variable {s : Setup} {n : Nat}

/-- Both operands, and then the operator. -/
theorem operation_keeps {l r : Expr} (hl : (ofExpr s n l).Keeps) (hr : (ofExpr s n r).Keeps)
    (op : Heap → Value → Value → Except Fault Value) :
    Keeps (do
      let left ← ofExpr s n l
      let right ← ofExpr s n r
      Machine.ofExcept (op (← Machine.heap) left right)) :=
  hl.bind fun _ => hr.bind fun _ => (keeps_lift _).bind fun _ => keeps_lift _

theorem ofRunConstructor_keeps (s : Setup) (n : Nat) (cls : Class) (id : ObjectId)
    (args : List Value) : (ofRunConstructor s n cls id args).Keeps := by
  cases n with
  | zero => exact keeps_throw _
  | succ n =>
    rw [ofRunConstructor]
    split
    · exact keeps_pure _
    · split
      · exact keeps_lift _
      · refine keeps_frame.bind fun f => (keeps_lift _).bind fun _ => ?_
        -- the constructor's body runs in a frame of its own
        exact (keeps_lift _).bind fun _ => keeps_pure _

variable (hexpr : ∀ e, (ofExpr s n e).Keeps)
include hexpr

theorem ofCall_keeps_succ (c : Call) : (ofCall s (n + 1) c).Keeps := by
  rw [ofCall]
  refine (Keeps.mapM hexpr c.args).bind fun args => keeps_frame.bind fun f => ?_
  refine (keeps_lift _).bind fun h => (keeps_lift _).bind fun target => ?_
  exact (keeps_lift _).bind fun m => keeps_lift _

theorem ofConstruct_keeps_succ (name : String) (argExprs : List Expr) :
    (ofConstruct s (n + 1) name argExprs).Keeps := by
  rw [ofConstruct]
  split
  · exact keeps_lift _
  · refine keeps_frame.bind fun f => (keeps_lift _).bind fun h => (keeps_lift _).bind fun id => ?_
    refine (Keeps.mapM hexpr argExprs).bind fun args => ?_
    refine (ofRunConstructor_keeps s n _ id args).bind fun _ => ?_
    dsimp only
    split
    · split
      · exact keeps_frame.bind fun f => (keeps_lift _).bind fun _ => keeps_pure _
      · exact keeps_pure _
    · exact keeps_pure _

theorem ofExpr_keeps_succ (hcall : ∀ c, (ofCall s n c).Keeps)
    (hconstruct : ∀ name args, (ofConstruct s n name args).Keeps) (e : Expr) :
    (ofExpr s (n + 1) e).Keeps := by
  cases e with
  | boolean | number | string | character => exact keeps_pure _
  | var name =>
    rw [ofExpr]
    refine keeps_frame.bind fun f => (keeps_lift _).bind fun h => ?_
    split
    · exact keeps_pure _
    · exact keeps_lift _
  | logic op l r | compare op l r | arith op l r =>
    exact operation_keeps (hexpr l) (hexpr r) op.apply
  | call receiver method args =>
    rw [ofExpr]
    refine (hcall _).bind fun vs => ?_
    split
    · exact keeps_pure _
    · exact keeps_lift _
  | construct cls args => exact hconstruct cls args

end Step

/-- Expressions, calls and constructions keep the frame with every budget. -/
theorem keeps (s : Setup) (n : Nat) :
    (∀ e, (ofExpr s n e).Keeps) ∧ (∀ c, (ofCall s n c).Keeps) ∧
      ∀ name args, (ofConstruct s n name args).Keeps := by
  induction n with
  | zero => exact ⟨fun _ => keeps_throw _, fun _ => keeps_throw _, fun _ _ => keeps_throw _⟩
  | succ n ih =>
    obtain ⟨hexpr, hcall, hconstruct⟩ := ih
    exact ⟨ofExpr_keeps_succ hexpr hcall hconstruct, ofCall_keeps_succ hexpr,
      ofConstruct_keeps_succ hexpr⟩

theorem ofExpr_keeps (s : Setup) (n : Nat) (e : Expr) : (ofExpr s n e).Keeps := (keeps s n).1 e

theorem ofCall_keeps (s : Setup) (n : Nat) (c : Call) : (ofCall s n c).Keeps := (keeps s n).2.1 c

theorem ofConstruct_keeps (s : Setup) (n : Nat) (name : String) (args : List Expr) :
    (ofConstruct s n name args).Keeps := (keeps s n).2.2 name args

theorem ofArguments_keeps (s : Setup) (n : Nat) (args : List Expr) :
    (ofArguments s n args).Keeps := Keeps.mapM (ofExpr_keeps s n) args

theorem frameFrom_bind (x : Routine PUnit) (k : PUnit → Routine β) (f : Frame) :
    (x >>= k).frameFrom f = x.frameFrom f >>= fun f' => (k ⟨⟩).frameFrom f' := by
  funext w
  cases h : x ⟨f, w⟩ <;> simp only [frameFrom, bind, EStateM.bind, h]

theorem frameFrom_forM (g : α → Routine PUnit) (items : List α) (f : Frame) :
    (items.forM g).frameFrom f = items.foldlM (fun f a => (g a).frameFrom f) f := by
  induction items generalizing f with
  | nil => rfl
  | cons a items ih =>
    change ((g a) >>= fun _ => items.forM g).frameFrom f = _
    rw [frameFrom_bind, List.foldlM_cons]
    exact congrArg _ (funext ih)

@[simp]
theorem frameFrom_update (change : Frame → Machine Frame) (f : Frame) :
    (update change).frameFrom f = change f := by
  funext w
  cases h : change f w <;> simp only [frameFrom, update, h]

@[simp]
theorem valueFrom_pure (v : α) (f : Frame) : (pure v : Routine α).valueFrom f = pure v := rfl

@[simp]
theorem valueFrom_lift (x : Machine α) (f : Frame) : (liftM x : Routine α).valueFrom f = x := by
  funext w
  change valueFrom (lift x) f w = x w
  cases h : x w <;> simp only [valueFrom, lift, h]

theorem Keeps.valueFrom_bind (hx : x.Keeps) (k : α → Routine β) (f : Frame) :
    (x >>= k).valueFrom f = x.valueFrom f >>= fun v => (k v).valueFrom f := by
  funext w
  cases h : x ⟨f, w⟩ with
  | ok v b =>
    have hframe : b.frame = f := hx.of_ok h
    subst hframe
    simp only [valueFrom, Bind.bind, EStateM.bind, h]
  | error e b => simp only [valueFrom, Bind.bind, EStateM.bind, h]

theorem Keeps.frameFrom_bind (hx : x.Keeps) (k : α → Routine β) (f : Frame) :
    (x >>= k).frameFrom f = x.valueFrom f >>= fun v => (k v).frameFrom f := by
  funext w
  cases h : x ⟨f, w⟩ with
  | ok v b =>
    have hframe : b.frame = f := hx.of_ok h
    subst hframe
    simp only [valueFrom, frameFrom, Bind.bind, EStateM.bind, h]
  | error e b => simp only [valueFrom, frameFrom, Bind.bind, EStateM.bind, h]

@[simp]
theorem valueFrom_frame_bind (k : Frame → Routine β) (f : Frame) :
    (frame >>= k).valueFrom f = (k f).valueFrom f := by
  rw [keeps_frame.valueFrom_bind]
  rfl

@[simp]
theorem frameFrom_frame_bind (k : Frame → Routine β) (f : Frame) :
    (frame >>= k).frameFrom f = (k f).frameFrom f := by
  rw [keeps_frame.frameFrom_bind]
  rfl

@[simp]
theorem valueFrom_lift_bind (x : Machine α) (k : α → Routine β) (f : Frame) :
    (liftM x >>= k).valueFrom f = x >>= fun v => (k v).valueFrom f := by
  rw [(keeps_lift x).valueFrom_bind, valueFrom_lift]

@[simp]
theorem frameFrom_lift_bind (x : Machine α) (k : α → Routine β) (f : Frame) :
    (liftM x >>= k).frameFrom f = x >>= fun v => (k v).frameFrom f := by
  rw [(keeps_lift x).frameFrom_bind, valueFrom_lift]

theorem valueFrom_mapM {g : β → Routine α} (hg : ∀ b, (g b).Keeps) (items : List β) (f : Frame) :
    (items.mapM g).valueFrom f = items.mapM fun b => (g b).valueFrom f := by
  induction items with
  | nil => rfl
  | cons b items ih =>
    rw [List.mapM_cons, List.mapM_cons, (hg b).valueFrom_bind]
    refine bind_congr fun v => ?_
    rw [(Keeps.mapM hg items).valueFrom_bind, ih]
    rfl

end Routine

/-! The routines read from a frame: expressions, calls and constructions by their values, statements
and loops by the frame that they make. -/

section Readings

variable (s : Setup) (n : Nat) (f : Frame)

/-- The value of an expression. -/
def evalExpr (e : Expr) : Machine Value := (Routine.ofExpr s n e).valueFrom f

/-- The values that a call returns. -/
def evalCall (c : Call) : Machine (List Value) := (Routine.ofCall s n c).valueFrom f

/-- The new object that an expression makes. -/
def construct (name : String) (args : List Expr) : Machine Value :=
  (Routine.ofConstruct s n name args).valueFrom f

/-- What the constructor of a new object does, called from the frame. -/
def runConstructor (cls : Class) (id : ObjectId) (args : List Value) : Machine PUnit :=
  (Routine.ofRunConstructor s n cls id args).valueFrom f

/-- The frame after a statement. -/
def execStmt (st : Stmt) : Machine Frame := (Routine.ofStmt s n st).frameFrom f

/-- The frame after the statements of a block. -/
def execBlock (body : List Stmt) : Machine Frame := (Routine.ofBlock s n body).frameFrom f

end Readings

/-- The frame after the rounds of a loop over an object. -/
def iterate (s : Setup) (n : Nat) (cls : Class) (m : Method) (id : ObjectId)
    (item : Option String) (body : List Stmt) (f : Frame) : Machine Frame :=
  (Routine.ofIterate s n cls m id item body).frameFrom f

/-- The frame after the rounds of a loop whose source has the value `v`. -/
def repeatWhile (s : Setup) (n : Nat) (source : Expr) (item : Option String) (body : List Stmt)
    (v : Value) (f : Frame) : Machine Frame :=
  (Routine.ofRepeatWhile s n source item body v).frameFrom f

namespace Routine

variable {s : Setup} {n : Nat} {β : Type}

@[simp]
theorem valueFrom_ofExpr_bind (e : Expr) (k : Value → Routine β) (f : Frame) :
    (ofExpr s n e >>= k).valueFrom f = evalExpr s n f e >>= fun v => (k v).valueFrom f :=
  (ofExpr_keeps s n e).valueFrom_bind k f

@[simp]
theorem frameFrom_ofExpr_bind (e : Expr) (k : Value → Routine β) (f : Frame) :
    (ofExpr s n e >>= k).frameFrom f = evalExpr s n f e >>= fun v => (k v).frameFrom f :=
  (ofExpr_keeps s n e).frameFrom_bind k f

theorem valueFrom_ofArguments (es : List Expr) (f : Frame) :
    (ofArguments s n es).valueFrom f = es.mapM (evalExpr s n f) :=
  valueFrom_mapM (ofExpr_keeps s n) es f

@[simp]
theorem valueFrom_mapM_ofExpr_bind (es : List Expr) (k : List Value → Routine β) (f : Frame) :
    (es.mapM (ofExpr s n) >>= k).valueFrom f =
      es.mapM (evalExpr s n f) >>= fun vs => (k vs).valueFrom f := by
  rw [← valueFrom_ofArguments]
  exact (ofArguments_keeps s n es).valueFrom_bind k f

@[simp]
theorem valueFrom_ofCall_bind (c : Call) (k : List Value → Routine β) (f : Frame) :
    (ofCall s n c >>= k).valueFrom f = evalCall s n f c >>= fun vs => (k vs).valueFrom f :=
  (ofCall_keeps s n c).valueFrom_bind k f

@[simp]
theorem frameFrom_ofCall_bind (c : Call) (k : List Value → Routine β) (f : Frame) :
    (ofCall s n c >>= k).frameFrom f = evalCall s n f c >>= fun vs => (k vs).frameFrom f :=
  (ofCall_keeps s n c).frameFrom_bind k f

@[simp]
theorem valueFrom_ofRunConstructor_bind (cls : Class) (id : ObjectId) (args : List Value)
    (k : PUnit → Routine β) (f : Frame) :
    (ofRunConstructor s n cls id args >>= k).valueFrom f =
      runConstructor s n f cls id args >>= fun v => (k v).valueFrom f :=
  (ofRunConstructor_keeps s n cls id args).valueFrom_bind k f

end Routine

theorem execBlock_eq_foldlM (s : Setup) (n : Nat) (f : Frame) (body : List Stmt) :
    execBlock s n f body = body.foldlM (execStmt s n) f :=
  Routine.frameFrom_forM (Routine.ofStmt s n) body f

theorem execBlock_of_ofBlock {s : Setup} {n : Nat} {f f' : Frame} {w w' : World}
    {body : List Stmt} (h : Routine.ofBlock s n body ⟨f, w⟩ = .ok ⟨⟩ ⟨f', w'⟩) :
    execBlock s n f body w = .ok f' w' := by
  rw [execBlock, Routine.frameFrom, h]

theorem execBlock_cons (s : Setup) (n : Nat) (f : Frame) (st : Stmt) (body : List Stmt) :
    execBlock s n f (st :: body) = execStmt s n f st >>= fun f' => execBlock s n f' body := by
  simp only [execBlock_eq_foldlM, List.foldlM_cons]

theorem execBlock_append (s : Setup) (n : Nat) (f : Frame) (body more : List Stmt) :
    execBlock s n f (body ++ more) = execBlock s n f body >>= fun f' => execBlock s n f' more := by
  simp only [execBlock_eq_foldlM, List.foldlM_append]

/-! The recursion of the readings. No frame comes back from an expression. -/

section Equations

open Routine

variable (s : Setup) (n : Nat) (f : Frame)

theorem evalExpr_var (name : String) :
    evalExpr s (n + 1) f (.var name) = (do
      match f.load? (← Machine.heap) name with
      | some v => return v
      | none => Machine.fail (.undefinedVariable name)) := by
  rw [evalExpr, ofExpr, valueFrom_frame_bind, valueFrom_lift_bind]
  refine bind_congr fun h => ?_
  cases f.load? h name with
  | some v => rfl
  | none => exact valueFrom_lift _ f

theorem evalExpr_call (receiver : Option String) (method : String) (args : List Expr) :
    evalExpr s (n + 1) f (.call receiver method args) = (do
      match ← evalCall s n f ⟨receiver, method, args⟩ with
      | v :: _ => return v
      | [] => Machine.fail (.noReturnValue method)) := by
  rw [evalExpr, ofExpr, valueFrom_ofCall_bind]
  refine bind_congr fun vs => ?_
  cases vs with
  | cons v vs => rfl
  | nil => exact valueFrom_lift _ f

/-- Both operands, and then the operator. -/
theorem valueFrom_operation (l r : Expr) (op : Heap → Value → Value → Except Fault Value) :
    valueFrom (do
      let left ← ofExpr s n l
      let right ← ofExpr s n r
      Machine.ofExcept (op (← Machine.heap) left right)) f = (do
      let left ← evalExpr s n f l
      let right ← evalExpr s n f r
      Machine.ofExcept (op (← Machine.heap) left right)) := by
  simp only [valueFrom_ofExpr_bind, valueFrom_lift_bind, valueFrom_lift]

theorem evalCall_succ (c : Call) :
    evalCall s (n + 1) f c = (do
      let args ← c.args.mapM (evalExpr s n f)
      let (cls, this, standing) ←
        Machine.ofExcept (f.receiver s.context (← Machine.heap) c.receiver)
      let m ← Machine.ofExcept (cls.resolve standing c.method args)
      invoke s n (.call standing f.cls) cls m this args) := by
  rw [evalCall, ofCall]
  simp only [valueFrom_mapM_ofExpr_bind, valueFrom_frame_bind, valueFrom_lift_bind, valueFrom_lift]

theorem construct_succ (name : String) (argExprs : List Expr) :
    construct s (n + 1) f name argExprs =
      match s.context.find? name with
      | none => Machine.fail (.undefinedClass name)
      | some cls => do
        let id ← Machine.allocate ⟨cls, f.newMembers (← Machine.heap) cls.members⟩
        let args ← argExprs.mapM (evalExpr s n f)
        runConstructor s n f cls id args
        if s.constructionCall then
          match cls.constructionMethod? args with
          | some m => do
            let _ ← invoke s n (.construction f.cls) cls m (some id) args
          | none => pure ()
        return .object id := by
  rw [construct, ofConstruct]
  cases s.context.find? name with
  | none => exact valueFrom_lift _ f
  | some cls =>
    simp only [valueFrom_frame_bind, valueFrom_lift_bind, valueFrom_mapM_ofExpr_bind,
      valueFrom_ofRunConstructor_bind]
    refine bind_congr fun _ => bind_congr fun id => bind_congr fun vs => bind_congr fun _ => ?_
    split
    · cases cls.constructionMethod? vs with
      | none => rfl
      | some m => simp only [valueFrom_frame_bind, valueFrom_lift_bind, valueFrom_pure]
    · rfl

theorem runConstructor_succ (cls : Class) (id : ObjectId) (args : List Value) :
    runConstructor s (n + 1) f cls id args = (do
      if cls.constructors.isEmpty then pure ()
      else
        match cls.constructor? args with
        | none => Machine.fail (.noConstructor cls.name args.length)
        | some c => do
          Machine.record (.constructed f.cls cls c args.length)
          let _ ← execBlock s n (.ofConstructor cls c id args) c.body) := by
  rw [runConstructor, ofRunConstructor]
  split
  · rfl
  · cases cls.constructor? args with
    | none => exact valueFrom_lift _ f
    | some c =>
      simp only [valueFrom_frame_bind, valueFrom_lift_bind, valueFrom_pure]
      rfl

theorem execStmt_assign (target : String) (value : Expr) :
    execStmt s (n + 1) f (.assign target value) = (do
      Machine.store f target (← evalExpr s n f value)) := by
  rw [execStmt, ofStmt]
  simp only [frameFrom_ofExpr_bind, Routine.store, frameFrom_update]

theorem execStmt_call (targets : List String) (c : Call) :
    execStmt s (n + 1) f (.call targets c) = (do
      let values ← evalCall s n f c
      if values.length < targets.length then
        Machine.fail (.tooManyTargets c.method values.length targets.length)
      else (targets.zip values).foldlM (fun f (target, v) => Machine.store f target v) f) := by
  rw [execStmt, ofStmt, frameFrom_ofCall_bind]
  refine bind_congr fun vs => ?_
  split
  · rfl
  · simp only [Routine.store, frameFrom_forM, frameFrom_update]

theorem execStmt_loop (item : Option String) (source : Expr) (body : List Stmt) :
    execStmt s (n + 1) f (.loop item source body) = (do
      let v ← evalExpr s n f source
      match v.resolved with
      | .boolean _ => repeatWhile s n source item body v f
      | .object id => do
        match (← Machine.heap).get? id with
        | none => Machine.fail (.notIterable "")
        | some i =>
          match i.cls.iterator? with
          | none => Machine.fail (.notIterable i.cls.name)
          | some m => iterate s n i.cls m id item body f
      | other => Machine.fail (.notIterable (other.typeName (← Machine.heap)))) := by
  rw [execStmt, ofStmt, frameFrom_ofExpr_bind]
  refine bind_congr fun v => ?_
  cases v.resolved with
  | object id =>
    simp only [frameFrom_lift_bind]
    refine bind_congr fun h => ?_
    cases h.get? id with
    | none => rfl
    | some i =>
      simp only
      cases i.cls.iterator? <;> rfl
  | _ => rfl

theorem execStmt_branch (condition : Expr) (thenBody : List Stmt)
    (elseBody : Option (List Stmt)) :
    execStmt s (n + 1) f (.branch condition thenBody elseBody) = (do
      if ← Machine.condition (← evalExpr s n f condition) then execBlock s n f thenBody
      else execBlock s n f (elseBody.getD [])) := by
  rw [execStmt, ofStmt]
  simp only [frameFrom_ofExpr_bind, frameFrom_lift_bind]
  refine bind_congr fun v => bind_congr fun b => ?_
  split <;> rfl

theorem iterate_succ (cls : Class) (m : Method) (id : ObjectId) (item : Option String)
    (body : List Stmt) :
    iterate s (n + 1) cls m id item body f = (do
      match ← invoke s n (.iterator f.cls) cls m (some id) [] with
      | [flag, value] =>
        match flag.resolved with
        | .boolean false => return f
        | .boolean true => do
          let f ← Machine.storeItem f value item
          let f ← execBlock s n f body
          iterate s n cls m id item body f
        | other =>
          Machine.fail (.brokenIterator cls.name (.flagType (other.typeName (← Machine.heap))))
      | values => Machine.fail (.brokenIterator cls.name (.valueCount values.length))) := by
  rw [iterate, ofIterate]
  simp only [frameFrom_frame_bind, frameFrom_lift_bind]
  refine bind_congr fun vs => ?_
  rcases vs with _ | ⟨flag, _ | ⟨value, _ | ⟨v, vs⟩⟩⟩
  · rfl
  · rfl
  · simp only
    cases flag.resolved with
    | boolean b =>
      cases b with
      | false => rfl
      | true =>
        simp only [Routine.storeItem, frameFrom_bind, frameFrom_update]
        rfl
    | _ => rfl
  · rfl

theorem repeatWhile_succ (source : Expr) (item : Option String) (body : List Stmt) (v : Value) :
    repeatWhile s (n + 1) source item body v f = (do
      if ← Machine.condition v then do
        let f ← Machine.storeItem f v item
        let f ← execBlock s n f body
        repeatWhile s n source item body (← evalExpr s n f source) f
      else return f) := by
  rw [repeatWhile, ofRepeatWhile, frameFrom_lift_bind]
  refine bind_congr fun b => ?_
  split
  · simp only [Routine.storeItem, frameFrom_bind, frameFrom_update]
    refine bind_congr fun f₁ => bind_congr fun f₂ => ?_
    rw [frameFrom_ofExpr_bind]
    rfl
  · rfl

end Equations

end Offside
