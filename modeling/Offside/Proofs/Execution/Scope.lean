import Offside.Proofs.Execution.Contract
import Offside.Proofs.Execution.Privacy
import Offside.Proofs.Program.Shape

/-!
Scopes. In a scoped program every body reads, assigns and calls on names that it declares, or calls
on classes. The locals of a frame only grow, and they hold every declared name from the start, so
that no run of a scoped program comes upon an undefined variable; and if return variables are
declared too, none is left without a value.
-/
namespace Offside

/-- The variables that a body declares, and the classes that it can name. -/
structure Scope where
  names : List String
  classes : List String

namespace Scope

/-- The scope of a body with these parameters and locals. -/
def ofBody (params locals : List Declaration) (classes : List String) : Scope :=
  ⟨(params ++ locals).map (·.name), classes⟩

/-- A call may have this receiver: none, a variable, or a class. -/
def Receives (Γ : Scope) (receiver : Option String) : Prop :=
  ∀ name ∈ receiver, name ∈ Γ.names ∨ name ∈ Γ.classes

def expression (Γ : Scope) : Expr → Prop
  | .var name => name ∈ Γ.names
  | .call receiver _ _ => Γ.Receives receiver
  | _ => True

def statement (Γ : Scope) : Stmt → Prop
  | .assign target _ => target ∈ Γ.names
  | .call targets c => (∀ target ∈ targets, target ∈ Γ.names) ∧ Γ.Receives c.receiver
  | .loop .. | .branch .. => True

/-- Every name in a body is in scope. -/
def conditions (Γ : Scope) : Conditions where
  declaration _ := True
  method _ := True
  statement := Γ.statement
  expression := Γ.expression

end Scope

namespace Program

/-- The names of the classes that a run of the program can reach. -/
def classNames (p : Program) : List String := (p.classes ++ [consoleClass]).map (·.name)

/-- The names in every body are in its scope. -/
structure Scoped (p : Program) : Prop where
  methods : ∀ cls ∈ p.classes, ∀ m ∈ cls.methods, ∀ st ∈ m.statements,
    st.Everywhere (Scope.ofBody m.params m.locals p.classNames).conditions
  constructors : ∀ cls ∈ p.classes, ∀ c ∈ cls.constructors, ∀ st ∈ c.body,
    st.Everywhere (Scope.ofBody c.params c.locals p.classNames).conditions

/-- Return variables are parameters or locals. -/
def ReturnsDeclared (p : Program) : Prop :=
  ∀ cls ∈ p.classes, ∀ m ∈ cls.methods, ∀ d ∈ m.returns,
    d.name ∈ (m.params ++ m.locals).map (·.name)

/-- How a run of the program ends. -/
def outcome (p : Program) (constructionCall : Bool) (budget : Nat) : Outcome :=
  match Setup.ofProgram p constructionCall with
  | .error f => .failed f
  | .ok s => (s.start budget).1

end Program

/-- Objects are of classes that the context has, and so is the code that runs. -/
def knownClasses (s : Setup) : Invariant s where
  world w := ∀ id i, w.heap.get? id = some i → i.cls ∈ s.context.classes
  later _ _ := True
  value _ _ := True
  owner _ cls _ := cls ∈ s.context.classes
  event e := e.Legit s
  refl _ := trivial
  trans _ _ := trivial
  value_later _ _ := trivial
  owner_later _ ho := ho
  plain _ := trivial
  member _ _ _ := trivial
  self _ := trivial
  receiver hw _ _ hi := hw _ _ hi
  shared hcls := hcls
  legit he := he
  record hw _ := ⟨hw, trivial⟩
  print _ hw := ⟨hw, trivial⟩
  setMember {w cls id name v} hw _ _ _ := by
    refine ⟨fun other i hi => ?_, trivial⟩
    rw [Heap.get?_setMember] at hi
    split at hi
    · obtain ⟨j, hj, rfl⟩ := Option.map_eq_some_iff.1 hi
      exact hw id j hj
    · exact hw other i hi
  alloc {w cls members} hw hcls _ _ := by
    refine ⟨fun id i hi => ?_, trivial, hcls⟩
    rw [Heap.get?_alloc] at hi
    split at hi
    · cases hi
      exact hcls
    · exact hw id i hi

/-- A method that is entered belongs to the class whose code it is. -/
theorem Event.Legit.mem_methods {s : Setup} {route : Route} {cls : Class} {m : Method} {n : Nat}
    (h : (Event.invoked route cls m n).Legit s) : m ∈ cls.methods := by
  cases route with
  | entry => exact List.mem_of_find?_eq_some (Context.mem_of_entry h.1).2
  | call standing caller =>
    obtain ⟨-, name, args, hresolve, -⟩ := h
    exact (Class.mem_of_resolve hresolve).1
  | iterator caller => exact List.mem_of_find?_eq_some h.1
  | construction caller =>
    obtain ⟨-, args, hm, -⟩ := h
    exact List.mem_of_find?_eq_some hm

theorem Class.of_constructor? {cls : Class} {args : List Value} {c : Constructor}
    (h : cls.constructor? args = some c) :
    c ∈ cls.constructors ∧ c.params.length = args.length := by
  rcases Option.or_eq_some_iff.1 h with hfind | ⟨-, hfind⟩
  · have htakes := List.find?_some hfind
    simp only [Constructor.takes, Bool.and_eq_true, beq_iff_eq] at htakes
    exact ⟨List.mem_of_find?_eq_some hfind, htakes.1⟩
  · exact ⟨List.mem_of_find?_eq_some hfind, by simpa using List.find?_some hfind⟩

theorem Class.of_constructionMethod? {cls : Class} {args : List Value} {m : Method}
    (h : cls.constructionMethod? args = some m) :
    m ∈ cls.methods ∧ m.hasStatements = true ∧ m.params.length = args.length := by
  have htakes := List.find?_some h
  rw [Bool.and_eq_true, beq_iff_eq] at htakes
  exact ⟨List.mem_of_find?_eq_some h, htakes⟩

namespace Frame

/-- The second frame has the variables of the first. -/
def Grows (f f' : Frame) : Prop := ∀ name, f.locals.has name = true → f'.locals.has name = true

theorem Grows.refl (f : Frame) : f.Grows f := fun _ h => h

theorem Grows.trans {f f' f'' : Frame} (h : f.Grows f') (h' : f'.Grows f'') : f.Grows f'' :=
  fun name hname => h' name (h name hname)

theorem grows_write (f : Frame) (h : Heap) (name : String) (v : Value) (slot : Slot) :
    f.Grows (f.write h name v slot).1 := by
  cases slot with
  | member id => exact .refl f
  | localVariable => exact fun n hn => (Bindings.has_set f.locals name n v).2 (.inr hn)

theorem has_foldl {γ : Type} (g : Bindings → γ → Bindings) (key : γ → String)
    (hkeep : ∀ b x n, b.has n = true → (g b x).has n = true)
    (hset : ∀ b x, (g b x).has (key x) = true) (items : List γ) (b : Bindings) :
    (∀ n, b.has n = true → (items.foldl g b).has n = true) ∧
      ∀ x ∈ items, (items.foldl g b).has (key x) = true := by
  induction items generalizing b with
  | nil => simp
  | cons x items ih =>
    obtain ⟨hold, hnew⟩ := ih (g b x)
    refine ⟨fun n hn => hold n (hkeep b x n hn), fun y hy => ?_⟩
    rcases List.mem_cons.1 hy with rfl | hy
    · exact hold _ (hset b y)
    · exact hnew y hy

/-- A body starts with all its variables, if there is an argument for every parameter. -/
theorem has_bind {params : List Declaration} {args : List Value} (locals : List Declaration)
    (hlength : params.length = args.length) :
    ∀ name ∈ (params ++ locals).map (·.name), (bind params args locals).has name = true := by
  obtain ⟨-, hparams⟩ := has_foldl (fun b (x : Declaration × Value) => b.set x.1.name x.2)
    (fun x => x.1.name) (fun b x n hn => (b.has_set _ n _).2 (.inr hn))
    (fun b x => (b.has_set _ _ _).2 (.inl rfl)) (params.zip args) .empty
  obtain ⟨hold, hlocals⟩ := has_foldl
    (fun b (d : Declaration) => if b.has d.name then b else b.set d.name (.default d.typeName))
    (fun d => d.name)
    (fun b d n hn => by
      split
      · exact hn
      · exact (b.has_set _ n _).2 (.inr hn))
    (fun b d => by
      split
      · assumption
      · exact (b.has_set _ _ _).2 (.inl rfl))
    locals ((params.zip args).foldl (fun b x => b.set x.1.name x.2) .empty)
  intro name hname
  rw [List.map_append, List.mem_append] at hname
  rcases hname with hname | hname
  · obtain ⟨d, hd, rfl⟩ := List.mem_map.1 hname
    rw [← List.map_fst_zip (Nat.le_of_eq hlength)] at hd
    obtain ⟨x, hx, rfl⟩ := List.mem_map.1 hd
    exact hold _ (hparams x hx)
  · obtain ⟨d, hd, rfl⟩ := List.mem_map.1 hname
    exact hlocals d hd

/-- The frame has the variables of the scope, and the context its classes. -/
structure Fits (s : Setup) (Γ : Scope) (f : Frame) : Prop where
  names : ∀ name ∈ Γ.names, f.locals.has name = true
  classes : ∀ name ∈ Γ.classes, ∃ cls, s.context.find? name = some cls

variable {s : Setup} {Γ : Scope} {f f' : Frame}

theorem Fits.grows (h : f.Fits s Γ) (hg : f.Grows f') : f'.Fits s Γ :=
  ⟨fun name hname => hg name (h.names name hname), h.classes⟩

theorem Fits.load (h : f.Fits s Γ) {name : String} (hname : name ∈ Γ.names) (heap : Heap) :
    ∃ v, f.load? heap name = some v := by
  obtain ⟨v, hv⟩ := Option.isSome_iff_exists.1 (h.names name hname)
  exact ⟨v, by rw [load?, hv]; rfl⟩

theorem Fits.slot (h : f.Fits s Γ) {name : String} (hname : name ∈ Γ.names) (heap : Heap) :
    ∃ slot, f.slot? heap name = some slot := by
  unfold slot?
  split
  · exact ⟨_, rfl⟩
  · rw [h.names name hname]
    exact ⟨_, rfl⟩

end Frame

/-- The faults of a run whose names are in scope: no undefined variable, and, if return variables
are declared, none without a value. -/
def Fault.InScope (returnsDeclared : Prop) : Fault → Prop
  | undefinedVariable _ => False
  | unassignedReturn _ _ => ¬returnsDeclared
  | _ => True

/-- The names that a task comes upon are in scope. -/
def Task.InScope (s : Setup) (Γ : Scope) : Task → Prop
  | expr f e => f.Fits s Γ ∧ e.Everywhere Γ.expression
  | call f c => f.Fits s Γ ∧ Γ.Receives c.receiver ∧ ∀ e ∈ c.args, e.Everywhere Γ.expression
  | construct f _ args => f.Fits s Γ ∧ ∀ e ∈ args, e.Everywhere Γ.expression
  | stmt f st => f.Fits s Γ ∧ st.Everywhere Γ.conditions
  | iterate _ _ _ _ body f => f.Fits s Γ ∧ ∀ st ∈ body, st.Everywhere Γ.conditions
  | repeatWhile source _ body _ f => f.Fits s Γ ∧ source.Everywhere Γ.expression ∧
      ∀ st ∈ body, st.Everywhere Γ.conditions
  | invoke .. | runConstructor .. => True

/-- Frames keep their variables. -/
def Task.Grows : (t : Task) → t.Answer → Prop
  | stmt f _, f' | iterate _ _ _ _ _ f, f' | repeatWhile _ _ _ _ f, f' => f.Grows f'
  | expr .., _ | call .., _ | invoke .., _ | construct .., _ | runConstructor .., _ => True

/-- Names in scope are found. -/
def scoping (s : Setup) (returnsDeclared : Prop) : Contract where
  requires t := ∃ Γ, t.InScope s Γ
  ensures := Task.Grows
  admits := Fault.InScope returnsDeclared

/-- The bodies of all classes keep to their scopes. -/
structure Setup.Scoped (s : Setup) (classes : List String) (returnsDeclared : Prop) : Prop where
  known : ∀ name ∈ classes, ∃ cls, s.context.find? name = some cls
  methods : ∀ cls ∈ s.context.classes, ∀ m ∈ cls.methods, ∀ st ∈ m.statements,
    st.Everywhere (Scope.ofBody m.params m.locals classes).conditions
  constructors : ∀ cls ∈ s.context.classes, ∀ c ∈ cls.constructors, ∀ st ∈ c.body,
    st.Everywhere (Scope.ofBody c.params c.locals classes).conditions
  returns : returnsDeclared → ∀ cls ∈ s.context.classes, ∀ m ∈ cls.methods, ∀ d ∈ m.returns,
    d.name ∈ (m.params ++ m.locals).map (·.name)

section

variable {s : Setup} {returnsDeclared : Prop} {Γ : Scope} {f : Frame} {w : World}

theorem exists_of_mapM_error {ε α β : Type} {g : α → Except ε β} {l : List α} {e : ε}
    (h : l.mapM g = .error e) : ∃ a ∈ l, g a = .error e := by
  induction l with
  | nil =>
    rw [List.mapM_nil] at h
    cases h
  | cons a l ih =>
    rw [List.mapM_cons] at h
    cases ha : g a with
    | error e' =>
      rw [ha] at h
      cases h
      exact ⟨a, List.mem_cons_self, ha⟩
    | ok b =>
      rw [ha] at h
      cases hl : l.mapM g with
      | error e' =>
        rw [hl] at h
        cases h
        obtain ⟨c, hc, hg⟩ := ih hl
        exact ⟨c, List.mem_cons_of_mem a hc, hg⟩
      | ok bs =>
        rw [hl] at h
        cases h

theorem LogicOp.inScope_of_apply {op : LogicOp} {h : Heap} {a b : Value} {e : Fault}
    (he : op.apply h a b = .error e) : e.InScope returnsDeclared := by
  unfold LogicOp.apply at he
  split at he <;> cases he
  trivial

theorem CompareOp.inScope_of_apply {op : CompareOp} {h : Heap} {a b : Value} {e : Fault}
    (he : op.apply h a b = .error e) : e.InScope returnsDeclared := by
  unfold CompareOp.apply at he
  split at he <;> cases he
  trivial

theorem ArithOp.inScope_of_apply {op : ArithOp} {h : Heap} {a b : Value} {e : Fault}
    (he : op.apply h a b = .error e) : e.InScope returnsDeclared := by
  unfold ArithOp.apply at he
  split at he <;> cases he
  trivial

theorem Class.inScope_of_resolve {cls : Class} {standing : Standing} {name : String}
    {args : List Value} {e : Fault} (he : cls.resolve standing name args = .error e) :
    e.InScope returnsDeclared := by
  unfold Class.resolve at he
  split at he
  · cases he
    trivial
  · split at he
    · cases he
    · split at he <;> cases he <;> trivial

theorem Frame.Fits.inScope_of_receiver (hf : f.Fits s Γ) {receiver : Option String}
    (hr : Γ.Receives receiver) {heap : Heap} {e : Fault}
    (he : f.receiver s.context heap receiver = .error e) : e.InScope returnsDeclared := by
  unfold Frame.receiver at he
  split at he
  · cases he
  · rename_i name
    split at he
    · split at he <;> cases he
      trivial
    · rename_i hload
      rcases hr name rfl with hname | hname
      · obtain ⟨v, hv⟩ := hf.load hname heap
        rw [hload] at hv
        cases hv
      · obtain ⟨cls, hcls⟩ := hf.classes name hname
        rw [hcls] at he
        cases he

theorem Frame.inScope_of_results {m : Method} {e : Fault}
    (hm : returnsDeclared → ∀ d ∈ m.returns, f.locals.has d.name = true)
    (he : f.results m = .error e) : e.InScope returnsDeclared := by
  obtain ⟨d, hd, hload⟩ := exists_of_mapM_error he
  split at hload
  · cases hload
  · rename_i hnone
    cases hload
    intro hreturns
    have hhas := hm hreturns d hd
    rw [Bindings.has, hnone] at hhas
    cases hhas

end

namespace Scoping

variable {s : Setup} {R : Prop} {Γ : Scope} {f : Frame} {w : World}

/-- Code of a scoped setup that finds its names. -/
abbrev Meets {α : Type} (s : Setup) (R : Prop) (w : World) (c : Code α) (Q : α → Prop) : Prop :=
  (scoping s R).Meets (knownClasses s) w c Q

theorem exprs (hf : f.Fits s Γ) {es : List Expr} (hes : ∀ e ∈ es, e.Everywhere Γ.expression) :
    Meets s R w (.exprs f es) fun _ => True :=
  .mapM es fun e he _ => .ask ⟨Γ, hf, hes e he⟩

theorem stmts (hf : f.Fits s Γ) {body : List Stmt}
    (hbody : ∀ st ∈ body, st.Everywhere Γ.conditions) :
    Meets s R w (.stmts f body) f.Grows := by
  refine .foldlM body (.refl f) fun st hst f' w' hgrows => ?_
  have hask : Meets s R w' (.stmt f' st) f'.Grows := .ask ⟨Γ, hf.grows hgrows, hbody st hst⟩
  exact hask.mono fun f'' h => hgrows.trans h

theorem store (hf : f.Fits s Γ) {name : String} (hname : name ∈ Γ.names) (v : Value) :
    Meets s R w (.store f name v) f.Grows := by
  refine .bind_heap ?_
  obtain ⟨slot, hslot⟩ := hf.slot hname w.heap
  rw [hslot]
  exact f.grows_write w.heap name v slot

theorem storeItem (v : Value) (item : Option String) :
    Meets s R w (.storeItem f v item) f.Grows := by
  cases item with
  | none => exact Frame.Grows.refl f
  | some name => exact .bind_heap (f.grows_write w.heap name v _)

theorem condition (v : Value) : Meets s R w (.condition v) fun _ => True := by
  unfold Code.condition
  split
  · exact .pure trivial
  · exact .bind_heap (.fail trivial)

theorem operation (hf : f.Fits s Γ) {l r : Expr} (hl : l.Everywhere Γ.expression)
    (hr : r.Everywhere Γ.expression) {op : Heap → Value → Value → Except Fault Value}
    (hop : ∀ h a b e, op h a b = .error e → e.InScope R) :
    Meets s R w (.operation f l r op) fun _ => True := by
  have hleft : Meets s R w (.expr f l) fun _ => True := .ask ⟨Γ, hf, hl⟩
  refine hleft.bind fun a w₁ _ => ?_
  have hright : Meets s R w₁ (.expr f r) fun _ => True := .ask ⟨Γ, hf, hr⟩
  refine hright.bind fun b w₂ _ => ?_
  exact .bind_heap (.ofExcept (fun _ _ => trivial) fun e he => hop _ a b e he)

theorem ofExpr (hf : f.Fits s Γ) {e : Expr} (he : e.Everywhere Γ.expression) :
    Meets s R w (.ofExpr f e) fun _ => True := by
  have hhere := he.here
  have hinside := he.inside
  cases e with
  | boolean | number | string | character => exact .pure trivial
  | var name =>
    refine .bind_heap ?_
    obtain ⟨v, hv⟩ := hf.load hhere w.heap
    rw [hv]
    exact .pure trivial
  | logic op l r =>
    exact operation hf (hinside l (by simp [Expr.children])) (hinside r (by simp [Expr.children]))
      fun _ _ _ _ => LogicOp.inScope_of_apply
  | compare op l r =>
    exact operation hf (hinside l (by simp [Expr.children])) (hinside r (by simp [Expr.children]))
      fun _ _ _ _ => CompareOp.inScope_of_apply
  | arith op l r =>
    exact operation hf (hinside l (by simp [Expr.children])) (hinside r (by simp [Expr.children]))
      fun _ _ _ _ => ArithOp.inScope_of_apply
  | call receiver method args =>
    have hcall : Meets s R w (.call f ⟨receiver, method, args⟩) fun _ => True :=
      .ask ⟨Γ, hf, hhere, hinside⟩
    refine hcall.bind fun vs w₁ _ => ?_
    split
    · exact .pure trivial
    · exact .fail trivial
  | construct cls args => exact .ask ⟨Γ, hf, hinside⟩

theorem ofCall (hf : f.Fits s Γ) {c : Call} (hr : Γ.Receives c.receiver)
    (hargs : ∀ e ∈ c.args, e.Everywhere Γ.expression) :
    Meets s R w (.ofCall s f c) fun _ => True := by
  refine (exprs hf hargs).bind fun args w₁ _ => .bind_heap ?_
  refine .bind_ofExcept (fun found _ => ?_) fun e he => hf.inScope_of_receiver hr he
  refine .bind_ofExcept (fun m _ => ?_) fun e he => Class.inScope_of_resolve he
  exact .ask ⟨⟨[], []⟩, trivial⟩

theorem ofInvoke {classes : List String} (hs : s.Scoped classes R) {route : Route} {cls : Class}
    {m : Method} {this : Option ObjectId} {args : List Value} (hcls : cls ∈ s.context.classes)
    (hm : m ∈ cls.methods) : Meets s R w (.ofInvoke route cls m this args) fun _ => True := by
  refine (Contract.Meets.record _).bind fun _ w₁ _ => ?_
  have hstatements := hs.methods cls hcls m hm
  split
  · exact (Contract.Meets.writeLine args).bind fun _ _ _ => .pure trivial
  · rename_i body hbody
    split
    · rename_i hlength
      have hf : (Frame.ofMethod cls m this args).Fits s (.ofBody m.params m.locals classes) :=
        ⟨Frame.has_bind m.locals hlength, hs.known⟩
      rw [Method.statements, hbody] at hstatements
      refine (stmts hf hstatements).bind fun f' w₂ hgrows => ?_
      refine .ofExcept (fun _ _ => trivial) fun e he => Frame.inScope_of_results ?_ he
      exact fun hreturns d hd => hgrows _ (hf.names _ (hs.returns hreturns cls hcls m hm d hd))
    · exact .fail trivial

theorem ofRunConstructor {classes : List String} (hs : s.Scoped classes R) {cls : Class}
    {id : ObjectId} {args : List Value} (hcls : cls ∈ s.context.classes) :
    Meets s R w (.ofRunConstructor f cls id args) fun _ => True := by
  unfold Code.ofRunConstructor
  split
  · exact .pure trivial
  · split
    · exact .fail trivial
    · rename_i c hc
      obtain ⟨hmem, hlength⟩ := Class.of_constructor? hc
      have hf : (Frame.ofConstructor cls c id args).Fits s (.ofBody c.params c.locals classes) :=
        ⟨Frame.has_bind c.locals hlength, hs.known⟩
      refine (Contract.Meets.record _).bind fun _ w₁ _ => ?_
      exact (stmts hf (hs.constructors cls hcls c hmem)).bind fun _ _ _ => .pure trivial

theorem ofConstruct (hf : f.Fits s Γ) (name : String) {args : List Expr}
    (hargs : ∀ e ∈ args, e.Everywhere Γ.expression) :
    Meets s R w (.ofConstruct s f name args) fun _ => True := by
  unfold Code.ofConstruct
  split
  · exact .fail trivial
  · rename_i cls hfind
    refine .bind_heap ((Contract.Meets.allocate _).bind fun id w₁ _ => ?_)
    refine (exprs hf hargs).bind fun vs w₂ _ => ?_
    have hrun : Meets s R w₂ (.runConstructor f cls id vs) fun _ => True :=
      .ask ⟨⟨[], []⟩, trivial⟩
    refine hrun.bind fun _ w₃ _ => ?_
    split
    · split
      · rename_i m _
        have hinvoke : Meets s R w₃ (.invoke (.construction f.cls) cls m (some id) vs)
            fun _ => True := .ask ⟨⟨[], []⟩, trivial⟩
        exact hinvoke.bind fun _ w₄ _ => .pure trivial
      · exact .pure trivial
    · exact .pure trivial

theorem ofStmt (hf : f.Fits s Γ) {st : Stmt} (hst : st.Everywhere Γ.conditions) :
    Meets s R w (.ofStmt f st) f.Grows := by
  have hhere : Γ.statement st := hst.here
  have hexprs := hst.inExprs
  have hinside := hst.inside
  cases st with
  | assign target value =>
    have hvalue : Meets s R w (.expr f value) fun _ => True :=
      .ask ⟨Γ, hf, hexprs value (by simp [Stmt.exprs])⟩
    exact hvalue.bind fun v w₁ _ => store hf hhere v
  | call targets c =>
    have hcall : Meets s R w (.call f c) fun _ => True := .ask ⟨Γ, hf, hhere.2, hexprs⟩
    refine hcall.bind fun vs w₁ _ => ?_
    split
    · exact .fail trivial
    · refine .foldlM _ (.refl f) ?_
      rintro ⟨target, v⟩ hmem f' w' hgrows
      have hstore := store (R := R) (w := w') (hf.grows hgrows)
        (hhere.1 target (List.of_mem_zip hmem).1) v
      exact hstore.mono fun f'' h => hgrows.trans h
  | loop item source body =>
    have hsource := hexprs source (by simp [Stmt.exprs])
    have hask : Meets s R w (.expr f source) fun _ => True := .ask ⟨Γ, hf, hsource⟩
    refine hask.bind fun v w₁ _ => ?_
    split
    · exact .ask ⟨Γ, hf, hsource, hinside⟩
    · refine .bind_heap ?_
      split
      · exact .fail trivial
      · split
        · exact .fail trivial
        · exact .ask ⟨Γ, hf, hinside⟩
    · exact .bind_heap (.fail trivial)
  | branch condition thenBody elseBody =>
    have hask : Meets s R w (.expr f condition) fun _ => True :=
      .ask ⟨Γ, hf, hexprs condition (by simp [Stmt.exprs])⟩
    refine hask.bind fun v w₁ _ => (Scoping.condition v).bind fun b w₂ _ => ?_
    split
    · exact stmts hf fun st hst => hinside st (List.mem_append_left _ hst)
    · exact stmts hf fun st hst => hinside st (List.mem_append_right _ hst)

theorem ofIterate (hf : f.Fits s Γ) {cls : Class} {m : Method} {id : ObjectId}
    {item : Option String} {body : List Stmt} (hbody : ∀ st ∈ body, st.Everywhere Γ.conditions) :
    Meets s R w (.ofIterate cls m id item body f) f.Grows := by
  have hinvoke : Meets s R w (.invoke (.iterator f.cls) cls m (some id) []) fun _ => True :=
    .ask ⟨⟨[], []⟩, trivial⟩
  refine hinvoke.bind fun vs w₁ _ => ?_
  split
  · split
    · exact .pure (.refl f)
    · refine (storeItem _ item).bind fun f₂ w₂ h₂ => ?_
      refine (stmts (hf.grows h₂) hbody).bind fun f₃ w₃ h₃ => ?_
      have hnext : Meets s R w₃ (.iterate cls m id item body f₃) f₃.Grows :=
        .ask ⟨Γ, hf.grows (h₂.trans h₃), hbody⟩
      exact hnext.mono fun f₄ h₄ => h₂.trans (h₃.trans h₄)
    · exact .bind_heap (.fail trivial)
  · exact .fail trivial

theorem ofRepeatWhile (hf : f.Fits s Γ) {source : Expr} {item : Option String} {body : List Stmt}
    {v : Value} (hsource : source.Everywhere Γ.expression)
    (hbody : ∀ st ∈ body, st.Everywhere Γ.conditions) :
    Meets s R w (.ofRepeatWhile source item body v f) f.Grows := by
  refine (condition v).bind fun b w₁ _ => ?_
  split
  · refine (storeItem v item).bind fun f₂ w₂ h₂ => ?_
    refine (stmts (hf.grows h₂) hbody).bind fun f₃ w₃ h₃ => ?_
    have hf₃ := hf.grows (h₂.trans h₃)
    have hask : Meets s R w₃ (.expr f₃ source) fun _ => True := .ask ⟨Γ, hf₃, hsource⟩
    refine hask.bind fun v' w₄ _ => ?_
    have hnext : Meets s R w₄ (.repeatWhile source item body v' f₃) f₃.Grows :=
      .ask ⟨Γ, hf₃, hsource, hbody⟩
    exact hnext.mono fun f₄ h₄ => h₂.trans (h₃.trans h₄)
  · exact .pure (.refl f)

/-- The code of every task of a scoped setup finds its names. -/
theorem code {classes : List String} (hs : s.Scoped classes R) {t : Task}
    (ht : (knownClasses s).task w t) (hscope : ∃ Γ, t.InScope s Γ) :
    Meets s R w (t.code s) t.Grows := by
  obtain ⟨Γ, hscope⟩ := hscope
  cases t with
  | expr => exact ofExpr hscope.1 hscope.2
  | call => exact ofCall hscope.1 hscope.2.1 hscope.2.2
  | invoke => exact ofInvoke hs ht.1 ht.2.2.mem_methods
  | construct => exact ofConstruct hscope.1 _ hscope.2
  | runConstructor => exact ofRunConstructor hs ht.2.1
  | stmt => exact ofStmt hscope.1 hscope.2
  | iterate => exact ofIterate hscope.1 hscope.2
  | repeatWhile => exact ofRepeatWhile hscope.1 hscope.2.1 hscope.2.2

end Scoping

theorem Context.classes_of_ofProgram {p : Program} {ctx : Context}
    (h : Context.ofProgram p = .ok ctx) : ctx.classes = p.classes ++ [consoleClass] := by
  unfold Context.ofProgram at h
  simp only at h
  split at h <;> cases h
  rfl

/-- A program has no setup only if two classes have one name. -/
theorem Setup.eq_duplicateClass {p : Program} {constructionCall : Bool} {f : Fault}
    (h : Setup.ofProgram p constructionCall = .error f) : ∃ name, f = .duplicateClass name := by
  unfold Setup.ofProgram Context.ofProgram at h
  simp only at h
  split at h <;> cases h
  exact ⟨_, rfl⟩

theorem Setup.scoped_of_ofProgram {p : Program} {constructionCall : Bool} {s : Setup}
    (hp : p.Scoped) (hs : Setup.ofProgram p constructionCall = .ok s) :
    s.Scoped p.classNames p.ReturnsDeclared := by
  have hclasses := Context.classes_of_ofProgram (Setup.of_ofProgram hs).1
  refine ⟨fun name hname => ?_, ?_, ?_, ?_⟩
  · obtain ⟨cls, hcls, rfl⟩ := List.mem_map.1 hname
    rw [← hclasses] at hcls
    apply Option.isSome_iff_exists.1
    rw [Context.find?, List.find?_isSome]
    exact ⟨cls, hcls, by simp⟩
  all_goals
    rw [hclasses]
    simp only [List.forall_mem_append, List.forall_mem_singleton]
  · refine ⟨hp.methods, ?_⟩
    simp [consoleClass, Method.statements]
  · refine ⟨hp.constructors, ?_⟩
    simp [consoleClass]
  · intro hreturns
    refine ⟨hreturns, ?_⟩
    simp [consoleClass]

theorem inScope_of_outcome {p : Program} (hp : p.Scoped) {constructionCall : Bool} {budget : Nat}
    {f : Fault} (h : p.outcome constructionCall budget = .failed f) :
    f.InScope p.ReturnsDeclared := by
  unfold Program.outcome at h
  split at h
  · rename_i hs
    cases h
    obtain ⟨name, rfl⟩ := Setup.eq_duplicateClass hs
    trivial
  · rename_i s hs
    have hscoped := Setup.scoped_of_ofProgram hp hs
    have hkept : (scoping s p.ReturnsDeclared).Kept (knownClasses s) budget :=
      Contract.kept (fun t w _ ht hscope => Scoping.code hscoped ht hscope) budget
    have hstart : (knownClasses s).world .start := fun id i hi => by cases hi
    rcases Contract.admits_of_failed hkept hstart (fun _ _ _ => ⟨⟨[], []⟩, trivial⟩) h with
      rfl | hadmits
    · trivial
    · exact hadmits

/-- No run of a scoped program ends at an undefined variable; and if its return variables are
declared, none ends at a return variable without a value. -/
theorem outcome_of_scoped {p : Program} (hp : p.Scoped) (constructionCall : Bool) (budget : Nat) :
    (∀ name, p.outcome constructionCall budget ≠ .failed (.undefinedVariable name)) ∧
    (p.ReturnsDeclared → ∀ method name,
      p.outcome constructionCall budget ≠ .failed (.unassignedReturn method name)) := by
  refine ⟨fun name h => inScope_of_outcome hp h, fun hreturns method name h => ?_⟩
  exact inScope_of_outcome hp h hreturns

namespace Echo

/-- Puts a text behind itself. -/
def twice : Method :=
  { name := "twice"
    isShared := true
    isPrivate := false
    isVariadic := false
    params := [⟨"string", "text"⟩]
    returns := [⟨"string", "result"⟩]
    locals := [⟨"string", "result"⟩]
    body := .statements [.assign "result" (.arith .add (.var "text") (.var "text"))] }

/-- Writes a text twice. -/
def startMethod : Method :=
  { name := "start"
    isShared := true
    isPrivate := false
    isVariadic := false
    params := []
    returns := []
    locals := [⟨"string", "total"⟩]
    body := .statements
      [.call ["total"] ⟨none, "twice", [.string "ab"]⟩,
        .call [] ⟨some "console", "write", [.var "total"]⟩] }

def echo : Program := ⟨[⟨"Main", [], [], [], [startMethod, twice]⟩], []⟩

theorem start_scoped : ∀ st ∈ startMethod.statements,
    st.Everywhere (Scope.ofBody [] startMethod.locals echo.classNames).conditions := by
  refine List.forall_mem_cons.2 ⟨.intro ⟨by decide, ?_⟩ ?_ (List.forall_mem_nil _),
    List.forall_mem_singleton.2 (.intro ⟨List.forall_mem_nil _, ?_⟩ ?_ (List.forall_mem_nil _))⟩
  · exact fun name hname => by cases hname
  · exact List.forall_mem_singleton.2 (.leaf rfl trivial)
  · intro name hname
    cases hname
    exact .inr (by decide)
  · exact List.forall_mem_singleton.2
      (.leaf rfl (by decide : "total" ∈ startMethod.locals.map (·.name)))

theorem twice_scoped : ∀ st ∈ twice.statements,
    st.Everywhere (Scope.ofBody twice.params twice.locals echo.classNames).conditions := by
  have htext : (Expr.var "text").Everywhere
      (Scope.ofBody twice.params twice.locals echo.classNames).expression :=
    .leaf rfl (by decide : "text" ∈ (twice.params ++ twice.locals).map (·.name))
  refine List.forall_mem_singleton.2 (.intro ?_ ?_ (List.forall_mem_nil _))
  · show "result" ∈ (twice.params ++ twice.locals).map (·.name)
    decide
  · exact List.forall_mem_singleton.2 (.pair rfl trivial htext htext)

theorem echo_scoped : echo.Scoped where
  methods := List.forall_mem_singleton.2
    (List.forall_mem_cons.2 ⟨start_scoped, List.forall_mem_singleton.2 twice_scoped⟩)
  constructors := List.forall_mem_singleton.2 (List.forall_mem_nil _)

theorem echo_returnsDeclared : echo.ReturnsDeclared :=
  List.forall_mem_singleton.2 (List.forall_mem_cons.2
    ⟨List.forall_mem_nil _, List.forall_mem_singleton.2 (by decide)⟩)

end Echo

open Echo in
theorem outcome_of_scoped_echo :
    echo.Scoped ∧ echo.ReturnsDeclared ∧ echo.outcome true 12 = .finished ["abab"] ∧
    (∀ name, echo.outcome true 12 ≠ .failed (.undefinedVariable name)) ∧
    ∀ method name, echo.outcome true 12 ≠ .failed (.unassignedReturn method name) := by
  obtain ⟨hvariable, hreturn⟩ := outcome_of_scoped echo_scoped true 12
  exact ⟨echo_scoped, echo_returnsDeclared, rfl, hvariable, hreturn echo_returnsDeclared⟩

end Offside
