import Offside.Proofs.Execution.Representation
import Offside.Proofs.Execution.Budget

/-!
What a run does not look at. A bare class has its name, its member variables, its constructors and
its methods, but no list of interfaces and no accessors or mutators. A run with bare classes mirrors
the run with the classes as they were, request by request: the frames and objects of the one are
those of the other with bare classes. The order of the classes is not seen either, as long as names
find their classes and one class has the entry method.
-/
namespace Offside

/-- The member without its sections. -/
def Member.bare (m : Member) : Member := ⟨m.declaration, none, none⟩

/-- The class without the parts that no run looks at. -/
def Class.bare (c : Class) : Class :=
  { c with interfaces := [], members := c.members.map Member.bare }

/-- The program without interfaces, and with bare classes. -/
def Program.bare (p : Program) : Program := ⟨p.classes.map Class.bare, []⟩

def Frame.bare (f : Frame) : Frame := { f with cls := f.cls.bare }

def Instance.bare (i : Instance) : Instance := { i with cls := i.cls.bare }

def Heap.bare (h : Heap) : Heap := ⟨h.instances.map Instance.bare⟩

def Route.bare : Route → Route
  | entry => entry
  | call standing caller => call standing caller.bare
  | iterator caller => iterator caller.bare
  | construction caller => construction caller.bare

def Event.bare : Event → Event
  | invoked route cls m n => invoked route.bare cls.bare m n
  | constructed caller cls c n => constructed caller.bare cls.bare c n

def World.bare (w : World) : World := ⟨w.heap.bare, w.console, w.journal.map Event.bare⟩

namespace Effect

def bare : Effect → Effect
  | heap => heap
  | record e => record e.bare
  | writeLine vs => writeLine vs
  | allocate i => allocate i.bare
  | write f name v slot => write f.bare name v slot

def bareAnswer : (x : Effect) → x.Answer → x.bare.Answer
  | heap, h => h.bare
  | record _, a => a
  | writeLine _, a => a
  | allocate _, id => id
  | write .., f => f.bare

end Effect

namespace Task

def bare : Task → Task
  | expr f e => expr f.bare e
  | call f c => call f.bare c
  | invoke route cls m this args => invoke route.bare cls.bare m this args
  | construct f name args => construct f.bare name args
  | runConstructor f cls id args => runConstructor f.bare cls.bare id args
  | stmt f st => stmt f.bare st
  | iterate cls m id item body f => iterate cls.bare m id item body f.bare
  | repeatWhile source item body v f => repeatWhile source item body v f.bare

def bareAnswer : (t : Task) → t.Answer → t.bare.Answer
  | expr .., v => v
  | call .., vs => vs
  | invoke .., vs => vs
  | construct .., v => v
  | runConstructor .., a => a
  | stmt .., f => f.bare
  | iterate .., f => f.bare
  | repeatWhile .., f => f.bare

end Task

/-! ## Bare data -/

namespace Heap

variable (h : Heap)

theorem get?_bare (id : ObjectId) : h.bare.get? id = (h.get? id).map Instance.bare :=
  Array.getElem?_map

theorem member?_bare (id : ObjectId) (name : String) :
    h.bare.member? id name = h.member? id name := by
  unfold member?
  rw [get?_bare]
  cases h.get? id <;> rfl

theorem className_bare (id : ObjectId) : h.bare.className id = h.className id := by
  unfold className
  rw [get?_bare]
  cases h.get? id <;> rfl

theorem setMember_bare (id : ObjectId) (name : String) (v : Value) :
    h.bare.setMember id name v = (h.setMember id name v).bare := by
  unfold setMember bare
  congr 1
  apply Array.ext_getElem?
  intro i
  simp only [Array.getElem?_modify, Array.getElem?_map]
  split
  · cases h.instances[i]? <;> rfl
  · rfl

theorem alloc_bare (i : Instance) :
    h.bare.alloc i.bare = ((h.alloc i).1, (h.alloc i).2.bare) := by
  simp [alloc, bare]

end Heap

namespace Value

variable (h : Heap)

theorem output_bare (v : Value) : v.output h.bare = v.output h := by
  induction v with
  | object id => rw [output, output, h.className_bare]
  | bound target ih => exact ih
  | _ => rfl

theorem typeName_bare (v : Value) : v.typeName h.bare = v.typeName h := by
  induction v with
  | object id => exact h.className_bare id
  | bound target ih => exact ih
  | _ => rfl

end Value

theorem unsupported_bare (h : Heap) (symbol : String) (l r : Value) :
    unsupported h.bare symbol l r = unsupported h symbol l r := by
  rw [unsupported, unsupported, l.typeName_bare, r.typeName_bare]

theorem LogicOp.apply_bare (op : LogicOp) (h : Heap) (l r : Value) :
    op.apply h.bare l r = op.apply h l r := by
  simp only [apply, unsupported_bare]

theorem CompareOp.apply_bare (op : CompareOp) (h : Heap) (l r : Value) :
    op.apply h.bare l r = op.apply h l r := by
  simp only [apply, unsupported_bare]

theorem ArithOp.apply_bare (op : ArithOp) (h : Heap) (l r : Value) :
    op.apply h.bare l r = op.apply h l r := by
  simp only [apply, unsupported_bare, Value.output_bare]

namespace Frame

variable (f : Frame) (h : Heap)

theorem load?_bare (name : String) : f.bare.load? h.bare name = f.load? h name := by
  simp only [load?, bare, Heap.member?_bare]

theorem owner?_bare (name : String) : f.bare.owner? h.bare name = f.owner? h name := by
  simp only [owner?, bare, Heap.member?_bare]

theorem slot?_bare (name : String) : f.bare.slot? h.bare name = f.slot? h name := by
  simp only [slot?, owner?_bare]
  rfl

theorem itemSlot_bare (name : String) : f.bare.itemSlot h.bare name = f.itemSlot h name := by
  simp only [itemSlot, owner?_bare]

theorem write_bare (name : String) (v : Value) (slot : Slot) :
    f.bare.write h.bare name v slot =
      ((f.write h name v slot).1.bare, (f.write h name v slot).2.bare) := by
  cases slot with
  | member id => rw [write, write, h.setMember_bare]
  | localVariable => rfl

theorem newMembers_bare (members : List Member) :
    f.bare.newMembers h.bare (members.map Member.bare) = f.newMembers h members := by
  simp only [newMembers, List.foldl_map, load?_bare, Member.bare]

theorem receiver_bare {ctx ctx' : Context}
    (hctx : ∀ name, ctx'.find? name = (ctx.find? name).map Class.bare) (r : Option String) :
    f.bare.receiver ctx' h.bare r =
      (f.receiver ctx h r).map fun found => (found.1.bare, found.2) := by
  cases r with
  | none => rfl
  | some name =>
    simp only [receiver, load?_bare, hctx]
    cases f.load? h name with
    | none => cases ctx.find? name <;> rfl
    | some v =>
      simp only [Heap.get?_bare, Value.typeName_bare]
      cases v.object? with
      | none => rfl
      | some id =>
        simp only [Option.bind_some]
        cases h.get? id <;> rfl

end Frame

theorem Effect.apply_bare (x : Effect) (w : World) :
    x.bare.apply w.bare = (x.bareAnswer (x.apply w).1, (x.apply w).2.bare) := by
  cases x with
  | heap | record => rfl
  | writeLine vs => simp [bare, apply, bareAnswer, World.bare, Value.output_bare]
  | allocate i => simp [bare, apply, bareAnswer, World.bare, Heap.alloc_bare]
  | write f name v slot => simp [bare, apply, bareAnswer, World.bare, Frame.write_bare]

/-! ## Code that mirrors code -/

namespace Code

variable {α β γ : Type} {α' β' : Type}

/-- The second code makes the requests of the first with bare classes, and its result is the image
of the result of the first. -/
def Mirrors (g : α → α') : Code α → Code α' → Prop
  | done a, c' => c' = done (g a)
  | halt e, c' => c' = halt e
  | effect x k, c' => ∃ k', c' = effect x.bare k' ∧ ∀ a, (k a).Mirrors g (k' (x.bareAnswer a))
  | task t k, c' => ∃ k', c' = task t.bare k' ∧ ∀ a, (k a).Mirrors g (k' (t.bareAnswer a))

namespace Mirrors

variable {g : α → α'} {g' : β → β'} {c : Code α} {c' : Code α'} {k : α → Code β}
  {k' : α' → Code β'}

theorem pure {a : α} {a' : α'} (h : a' = g a) : (Pure.pure a : Code α).Mirrors g (Pure.pure a') :=
  congrArg done h

theorem fail {e e' : Fault} (h : e' = e) : (fail e : Code α).Mirrors g (fail e') :=
  congrArg Code.fail h

theorem bind (hc : c.Mirrors g c') (hk : ∀ a, (k a).Mirrors g' (k' (g a))) :
    (c >>= k).Mirrors g' (c' >>= k') := by
  induction c generalizing c' with
  | done a =>
    cases hc
    exact hk a
  | halt e =>
    cases hc
    rfl
  | effect x k₁ ih =>
    obtain ⟨k₁', rfl, hnext⟩ := hc
    exact ⟨fun a => (k₁' a).bind k', rfl, fun a => ih a (hnext a)⟩
  | task t k₁ ih =>
    obtain ⟨k₁', rfl, hnext⟩ := hc
    exact ⟨fun a => (k₁' a).bind k', rfl, fun a => ih a (hnext a)⟩

theorem ask (t : Task) : (Code.ask t).Mirrors t.bareAnswer (Code.ask t.bare) :=
  ⟨done, rfl, fun _ => rfl⟩

theorem heap : Code.heap.Mirrors Heap.bare Code.heap := ⟨done, rfl, fun _ => rfl⟩

theorem record (e : Event) : (Code.record e).Mirrors id (Code.record e.bare) :=
  ⟨done, rfl, fun _ => rfl⟩

theorem writeLine (vs : List Value) : (Code.writeLine vs).Mirrors id (Code.writeLine vs) :=
  ⟨done, rfl, fun _ => rfl⟩

theorem allocate (i : Instance) : (Code.allocate i).Mirrors id (Code.allocate i.bare) :=
  ⟨done, rfl, fun _ => rfl⟩

theorem write (f : Frame) (name : String) (v : Value) (slot : Slot) :
    (Code.write f name v slot).Mirrors Frame.bare (Code.write f.bare name v slot) :=
  ⟨done, rfl, fun _ => rfl⟩

theorem ofExcept {e : Except Fault α} {e' : Except Fault α'} (h : e' = e.map g) :
    (Code.ofExcept e).Mirrors g (Code.ofExcept e') := by
  subst h
  cases e <;> rfl

theorem mapM {h : γ → Code α} {h' : γ → Code α} (hitem : ∀ c, (h c).Mirrors id (h' c))
    (items : List γ) : (items.mapM h).Mirrors id (items.mapM h') := by
  induction items with
  | nil =>
    rw [List.mapM_nil, List.mapM_nil]
    exact pure rfl
  | cons c items ih =>
    rw [List.mapM_cons, List.mapM_cons]
    exact (hitem c).bind fun a => ih.bind fun as => pure rfl

theorem foldlM {h : α → γ → Code α} {h' : α' → γ → Code α'}
    (hitem : ∀ a c, (h a c).Mirrors g (h' (g a) c)) (items : List γ) (a : α) :
    (items.foldlM h a).Mirrors g (items.foldlM h' (g a)) := by
  induction items generalizing a with
  | nil =>
    rw [List.foldlM_nil, List.foldlM_nil]
    exact pure rfl
  | cons c items ih =>
    rw [List.foldlM_cons, List.foldlM_cons]
    exact (hitem a c).bind ih

theorem store (f : Frame) (name : String) (v : Value) :
    (Code.store f name v).Mirrors Frame.bare (Code.store f.bare name v) := by
  refine heap.bind fun h => ?_
  rw [Frame.slot?_bare]
  cases f.slot? h name with
  | none => exact fail rfl
  | some slot => exact write f name v slot

theorem storeItem (f : Frame) (v : Value) (item : Option String) :
    (Code.storeItem f v item).Mirrors Frame.bare (Code.storeItem f.bare v item) := by
  cases item with
  | none => exact pure rfl
  | some name =>
    refine heap.bind fun h => ?_
    rw [Frame.itemSlot_bare]
    exact write f name v _

theorem condition (v : Value) : (Code.condition v).Mirrors id (Code.condition v) := by
  unfold Code.condition
  cases v.resolved with
  | boolean b => exact pure rfl
  | _ => exact heap.bind fun h => fail (by rw [Value.typeName_bare])

theorem expr (f : Frame) (e : Expr) : (Code.expr f e).Mirrors id (Code.expr f.bare e) :=
  ask (.expr f e)

theorem exprs (f : Frame) (es : List Expr) :
    (Code.exprs f es).Mirrors id (Code.exprs f.bare es) :=
  mapM (expr f) es

theorem stmts (f : Frame) (body : List Stmt) :
    (Code.stmts f body).Mirrors Frame.bare (Code.stmts f.bare body) :=
  foldlM (fun f st => ask (.stmt f st)) body f

theorem operation (f : Frame) (l r : Expr) {op : Heap → Value → Value → Except Fault Value}
    (hop : ∀ h a b, op h.bare a b = op h a b) :
    (Code.operation f l r op).Mirrors id (Code.operation f.bare l r op) := by
  refine (expr f l).bind fun a => (expr f r).bind fun b => heap.bind fun h => ofExcept ?_
  rw [hop, Except.map_id]
  rfl

section

variable {s s' : Setup} (f : Frame) (cls : Class) (m : Method) (args : List Value)
  (item : Option String) (body : List Stmt)

theorem ofExpr (e : Expr) : (Code.ofExpr f e).Mirrors id (Code.ofExpr f.bare e) := by
  cases e with
  | boolean | number | string | character => exact pure rfl
  | var name =>
    refine heap.bind fun h => ?_
    rw [Frame.load?_bare]
    cases f.load? h name with
    | none => exact fail rfl
    | some v => exact pure rfl
  | logic op l r => exact operation f l r op.apply_bare
  | compare op l r => exact operation f l r op.apply_bare
  | arith op l r => exact operation f l r op.apply_bare
  | call receiver method args =>
    refine Mirrors.bind (ask (.call f ⟨receiver, method, args⟩)) fun vs => ?_
    cases (vs : List Value) with
    | nil => exact fail rfl
    | cons v vs => exact pure rfl
  | construct name args => exact ask (.construct f name args)

theorem ofCall (hfind : ∀ name, s'.context.find? name = (s.context.find? name).map Class.bare)
    (c : Call) : (Code.ofCall s f c).Mirrors id (Code.ofCall s' f.bare c) := by
  refine (exprs f c.args).bind fun args => heap.bind fun h => ?_
  refine (ofExcept (f.receiver_bare h hfind c.receiver)).bind fun found => ?_
  obtain ⟨cls, this, standing⟩ := found
  have hresolve : cls.bare.resolve standing c.method args =
      (cls.resolve standing c.method args).map id := by
    rw [Except.map_id]
    rfl
  exact (ofExcept hresolve).bind fun m =>
    ask (.invoke (.call standing f.cls) cls m this args)

theorem ofInvoke (route : Route) (this : Option ObjectId) :
    (Code.ofInvoke route cls m this args).Mirrors id
      (Code.ofInvoke route.bare cls.bare m this args) := by
  refine (record (.invoked route cls m args.length)).bind fun _ => ?_
  cases m.body with
  | consoleWrite => exact (writeLine args).bind fun _ => pure rfl
  | statements body =>
    simp only
    split
    · refine (stmts (.ofMethod cls m this args) body).bind fun f' => ofExcept ?_
      rw [Except.map_id]
      rfl
    · exact fail rfl

theorem ofConstruct (hfind : ∀ name, s'.context.find? name = (s.context.find? name).map Class.bare)
    (hcall : s'.constructionCall = s.constructionCall) (name : String) (es : List Expr) :
    (Code.ofConstruct s f name es).Mirrors id (Code.ofConstruct s' f.bare name es) := by
  unfold Code.ofConstruct
  rw [hfind, hcall]
  cases s.context.find? name with
  | none => exact fail rfl
  | some cls =>
    refine heap.bind fun h => ?_
    refine Mirrors.bind (c := .allocate ⟨cls, f.newMembers h cls.members⟩) (g := id) ?_
      fun obj => (exprs f es).bind fun vs => ?_
    · rw [show cls.bare.members = cls.members.map Member.bare from rfl, Frame.newMembers_bare]
      exact allocate ⟨cls, f.newMembers h cls.members⟩
    refine Mirrors.bind (ask (.runConstructor f cls obj vs)) fun _ => ?_
    split
    · have hmethod : cls.bare.constructionMethod? vs = cls.constructionMethod? vs := rfl
      simp only [id, hmethod]
      cases cls.constructionMethod? vs with
      | none => exact pure rfl
      | some m =>
        exact Mirrors.bind (ask (.invoke (.construction f.cls) cls m (some obj) vs))
          fun _ => pure rfl
    · exact pure rfl

theorem ofRunConstructor (obj : ObjectId) :
    (Code.ofRunConstructor f cls obj args).Mirrors id
      (Code.ofRunConstructor f.bare cls.bare obj args) := by
  unfold Code.ofRunConstructor
  have hconstructors : cls.bare.constructors = cls.constructors := rfl
  have hconstructor : cls.bare.constructor? args = cls.constructor? args := rfl
  rw [hconstructors, hconstructor]
  split
  · exact pure rfl
  · cases cls.constructor? args with
    | none => exact fail rfl
    | some c =>
      refine (record (.constructed f.cls cls c args.length)).bind fun _ => ?_
      exact (stmts (.ofConstructor cls c obj args) c.body).bind fun _ => pure rfl

theorem ofStmt (st : Stmt) : (Code.ofStmt f st).Mirrors Frame.bare (Code.ofStmt f.bare st) := by
  cases st with
  | assign target value => exact (expr f value).bind fun v => store f target v
  | call targets c =>
    refine Mirrors.bind (ask (.call f c)) fun (vs : List Value) => ?_
    show Mirrors Frame.bare (if vs.length < targets.length then _ else _)
      (if vs.length < targets.length then _ else _)
    split
    · exact fail rfl
    · exact foldlM (fun f (p : String × Value) => store f p.1 p.2) (targets.zip vs) f
  | loop item source body =>
    refine (expr f source).bind fun v => ?_
    simp only [id]
    cases v.resolved with
    | boolean b => exact ask (.repeatWhile source item body v f)
    | object obj =>
      refine heap.bind fun h => ?_
      rw [Heap.get?_bare]
      cases h.get? obj with
      | none => exact fail rfl
      | some i =>
        have hiterator : i.bare.cls.iterator? = i.cls.iterator? := rfl
        simp only [Option.map_some, hiterator]
        cases i.cls.iterator? with
        | none => exact fail rfl
        | some m => exact ask (.iterate i.cls m obj item body f)
    | _ => exact heap.bind fun h => fail (by rw [Value.typeName_bare])
  | branch cond thenBody elseBody =>
    refine (expr f cond).bind fun v => (condition v).bind fun b => ?_
    simp only [id]
    split
    · exact stmts f thenBody
    · exact stmts f (elseBody.getD [])

theorem ofIterate (obj : ObjectId) :
    (Code.ofIterate cls m obj item body f).Mirrors Frame.bare
      (Code.ofIterate cls.bare m obj item body f.bare) := by
  refine Mirrors.bind (ask (.invoke (.iterator f.cls) cls m (some obj) [])) fun vs => ?_
  rcases (vs : List Value) with _ | ⟨flag, _ | ⟨value, _ | ⟨v, vs⟩⟩⟩
  · exact fail rfl
  · exact fail rfl
  · simp only [Task.bareAnswer]
    cases flag.resolved with
    | boolean b =>
      cases b with
      | false => exact pure rfl
      | true =>
        refine (storeItem f value item).bind fun f₁ => (stmts f₁ body).bind fun f₂ => ?_
        exact ask (.iterate cls m obj item body f₂)
    | _ => exact heap.bind fun h => fail (by rw [Value.typeName_bare]; rfl)
  · exact fail rfl

theorem ofRepeatWhile (source : Expr) (v : Value) :
    (Code.ofRepeatWhile source item body v f).Mirrors Frame.bare
      (Code.ofRepeatWhile source item body v f.bare) := by
  refine (condition v).bind fun b => ?_
  simp only [id]
  split
  · refine (storeItem f v item).bind fun f₁ => (stmts f₁ body).bind fun f₂ => ?_
    exact (expr f₂ source).bind fun v' => ask (.repeatWhile source item body v' f₂)
  · exact pure rfl

end

end Mirrors

end Code

/-- The second setup has bare classes under the names under which the first has classes. -/
structure Setup.Mirrors (s s' : Setup) : Prop where
  find : ∀ name, s'.context.find? name = (s.context.find? name).map Class.bare
  call : s'.constructionCall = s.constructionCall

theorem Task.mirrors_code {s s' : Setup} (hs : s.Mirrors s') (t : Task) :
    (t.code s).Mirrors t.bareAnswer (t.bare.code s') := by
  cases t with
  | expr f e => exact .ofExpr f e
  | call f c => exact .ofCall f hs.find c
  | invoke route cls m this args => exact .ofInvoke cls m args route this
  | construct f name args => exact .ofConstruct f hs.find hs.call name args
  | runConstructor f cls id args => exact .ofRunConstructor f cls args id
  | stmt f st => exact .ofStmt f st
  | iterate cls m id item body f => exact .ofIterate f cls m item body id
  | repeatWhile source item body v f => exact .ofRepeatWhile f item body source v

/-- The end of a computation, with bare classes. -/
def bareResult {α β : Type} (g : α → β) :
    EStateM.Result Halt World α → EStateM.Result Halt World β
  | .ok a w => .ok (g a) w.bare
  | .error e w => .error e w.bare

theorem Code.Mirrors.run_eq {α β : Type} {g : α → β} {c : Code α} {c' : Code β}
    {answer answer' : (t : Task) → Machine t.Answer}
    (h : ∀ t w, answer' t.bare w.bare = bareResult t.bareAnswer (answer t w))
    (hc : c.Mirrors g c') (w : World) : c'.run answer' w.bare = bareResult g (c.run answer w) := by
  induction c generalizing c' w with
  | done a =>
    cases hc
    rfl
  | halt e =>
    cases hc
    rfl
  | effect x k ih =>
    obtain ⟨k', rfl, hnext⟩ := hc
    have hstep : (Code.effect x.bare k').run answer' w.bare =
        (k' (x.bare.apply w.bare).1).run answer' (x.bare.apply w.bare).2 := rfl
    rw [hstep, x.apply_bare]
    exact ih (x.apply w).1 (hnext _) (x.apply w).2
  | task t k ih =>
    obtain ⟨k', rfl, hnext⟩ := hc
    have hanswer := h t w
    cases hrun : answer t w with
    | ok a w' =>
      rw [hrun] at hanswer
      rw [Code.run, Code.run, Machine.bind_ok hrun, Machine.bind_ok hanswer]
      exact ih a (hnext a) w'
    | error e w' =>
      rw [hrun] at hanswer
      rw [Code.run, Code.run, Machine.bind_error hrun, Machine.bind_error hanswer]
      rfl

/-- A task does with bare classes what it does with the classes as they were. -/
theorem Task.run_bare {s s' : Setup} (hs : s.Mirrors s') (n : Nat) (t : Task) (w : World) :
    t.bare.run s' n w.bare = bareResult t.bareAnswer (t.run s n w) := by
  induction n generalizing t w with
  | zero =>
    rw [run_zero, run_zero]
    rfl
  | succ n ih =>
    rw [run_succ, run_succ]
    exact (mirrors_code hs t).run_eq ih w

theorem Outcome.ofResult_bareResult {α β : Type} (g : α → β)
    (r : EStateM.Result Halt World α) : ofResult (bareResult g r) = ofResult r := by
  cases r with
  | ok a w => rfl
  | error e w => cases e <;> rfl

theorem Setup.Mirrors.outcome_eq {s s' : Setup} (hs : s.Mirrors s')
    (hentry : s'.context.entry? = s.context.entry?.map fun found => (found.1.bare, found.2))
    (budget : Nat) : (s'.start budget).1 = (s.start budget).1 := by
  cases h : s.context.entry? with
  | none =>
    rw [h] at hentry
    rw [outcome_of_none h, outcome_of_none hentry]
  | some found =>
    obtain ⟨cls, m⟩ := found
    rw [h] at hentry
    rw [outcome_of_entry h, outcome_of_entry hentry]
    have hrun := Task.run_bare hs budget (.invoke .entry cls m none []) .start
    rw [show World.start.bare = .start by simp [World.bare, World.start, Heap.bare, Heap.empty]]
      at hrun
    exact (congrArg Outcome.ofResult hrun).trans (Outcome.ofResult_bareResult _ _)

namespace Context

/-- Bare classes clash as the classes do. -/
theorem duplicate?_bare (seen : List String) (classes : List Class) :
    duplicate? seen (classes.map Class.bare) = duplicate? seen classes := by
  induction classes generalizing seen with
  | nil => rfl
  | cons c rest ih =>
    simp only [List.map_cons, duplicate?, ih]
    rfl

theorem ofProgram_bare (p : Program) :
    ofProgram p.bare = (ofProgram p).map fun ctx => ⟨ctx.classes.map Class.bare⟩ := by
  have hclasses : p.bare.classes ++ [consoleClass] =
      (p.classes ++ [consoleClass]).map Class.bare := by
    rw [List.map_append]
    rfl
  unfold ofProgram
  simp only [hclasses, duplicate?_bare]
  split <;> rfl

theorem find?_map_bare (classes : List Class) (name : String) :
    find? ⟨classes.map Class.bare⟩ name = (find? ⟨classes⟩ name).map Class.bare :=
  List.find?_map ..

theorem entry?_map_bare (classes : List Class) :
    entry? ⟨classes.map Class.bare⟩ =
      (Context.entry? ⟨classes⟩).map fun found => (found.1.bare, found.2) := by
  unfold entry?
  induction classes with
  | nil => rfl
  | cons c rest ih =>
    have hmethods : c.bare.methods = c.methods := rfl
    simp only [List.map_cons, List.findSome?_cons, hmethods, ih]
    cases c.methods.find? Method.isEntry <;> rfl

end Context

/-- The parts of a program that no run looks at make no difference to it. -/
theorem Program.outcome_bare (p : Program) (constructionCall : Bool) (budget : Nat) :
    p.bare.outcome constructionCall budget = p.outcome constructionCall budget := by
  unfold outcome Setup.ofProgram
  rw [Context.ofProgram_bare]
  cases Context.ofProgram p with
  | error f => rfl
  | ok ctx =>
    have hmirrors : Setup.Mirrors ⟨ctx, constructionCall⟩
        ⟨⟨ctx.classes.map Class.bare⟩, constructionCall⟩ :=
      ⟨Context.find?_map_bare ctx.classes, rfl⟩
    exact hmirrors.outcome_eq (Context.entry?_map_bare ctx.classes) budget

/-! ## The order of classes -/

namespace Code

variable {s s' : Setup} (hfind : ∀ name, s'.context.find? name = s.context.find? name)
include hfind

theorem ofCall_congr (f : Frame) (c : Call) : ofCall s' f c = ofCall s f c := by
  unfold ofCall Frame.receiver
  simp only [hfind]

theorem ofConstruct_congr (hcall : s'.constructionCall = s.constructionCall) (f : Frame)
    (name : String) (es : List Expr) : ofConstruct s' f name es = ofConstruct s f name es := by
  unfold ofConstruct
  rw [hfind, hcall]

end Code

/-- A run asks for classes by their names only. -/
theorem Task.run_congr {s s' : Setup}
    (hfind : ∀ name, s'.context.find? name = s.context.find? name)
    (hcall : s'.constructionCall = s.constructionCall) (n : Nat) (t : Task) :
    t.run s' n = t.run s n := by
  have hcode : ∀ t : Task, t.code s' = t.code s := by
    intro t
    cases t with
    | call f c => exact Code.ofCall_congr hfind f c
    | construct f name args => exact Code.ofConstruct_congr hfind hcall f name args
    | _ => rfl
  induction n generalizing t with
  | zero => rw [run_zero, run_zero]
  | succ n ih => rw [run_succ, run_succ, hcode, show Task.run s' n = Task.run s n from funext ih]

theorem Setup.outcome_congr {s s' : Setup}
    (hfind : ∀ name, s'.context.find? name = s.context.find? name)
    (hcall : s'.constructionCall = s.constructionCall)
    (hentry : s'.context.entry? = s.context.entry?) (budget : Nat) :
    (s'.start budget).1 = (s.start budget).1 := by
  cases h : s.context.entry? with
  | none => rw [outcome_of_none h, outcome_of_none (hentry.trans h)]
  | some found =>
    rw [outcome_of_entry h, outcome_of_entry (hentry.trans h), Task.run_congr hfind hcall]

namespace Context

variable {ctx ctx' : Context}

/-- Where names find their classes, a name finds the class that has it. -/
theorem Distinct.find?_eq_some_iff (h : ctx.Distinct) {name : String} {c : Class} :
    ctx.find? name = some c ↔ c ∈ ctx.classes ∧ c.name = name := by
  constructor
  · intro hfind
    exact ⟨List.mem_of_find?_eq_some hfind, by simpa using List.find?_some hfind⟩
  · rintro ⟨hmem, rfl⟩
    exact h c hmem

theorem Distinct.find?_eq_of_perm (h : ctx.Distinct) (h' : ctx'.Distinct)
    (hperm : ctx.classes.Perm ctx'.classes) (name : String) : ctx'.find? name = ctx.find? name := by
  ext c
  rw [h.find?_eq_some_iff, h'.find?_eq_some_iff, hperm.mem_iff]

end Context

/-- At most one class has an entry method. -/
def SoleEntry (classes : List Class) : Prop :=
  ∀ c ∈ classes, ∀ c' ∈ classes, (∃ m ∈ c.methods, m.isEntry = true) →
    (∃ m ∈ c'.methods, m.isEntry = true) → c = c'

namespace Context

variable {ctx ctx' : Context}

/-- If at most one class has an entry method, its place does not matter. -/
theorem entry?_eq_some_iff (h : SoleEntry ctx.classes) {c : Class} {m : Method} :
    ctx.entry? = some (c, m) ↔ c ∈ ctx.classes ∧ c.methods.find? Method.isEntry = some m := by
  refine ⟨mem_of_entry, fun ⟨hc, hm⟩ => ?_⟩
  have hhas : ∀ {c : Class} {m : Method}, c.methods.find? Method.isEntry = some m →
      ∃ m ∈ c.methods, m.isEntry = true :=
    fun hfind => ⟨_, List.mem_of_find?_eq_some hfind, List.find?_some hfind⟩
  cases hentry : ctx.entry? with
  | none =>
    have hnone := List.findSome?_eq_none_iff.1 hentry c hc
    rw [hm] at hnone
    cases hnone
  | some found =>
    obtain ⟨c', m'⟩ := found
    obtain ⟨hc', hm'⟩ := mem_of_entry hentry
    cases h c hc c' hc' (hhas hm) (hhas hm')
    cases hm.symm.trans hm'
    rfl

theorem entry?_eq_of_perm (h : SoleEntry ctx.classes) (hperm : ctx.classes.Perm ctx'.classes) :
    ctx'.entry? = ctx.entry? := by
  have h' : SoleEntry ctx'.classes := by
    intro c hc c' hc'
    exact h c (hperm.mem_iff.2 hc) c' (hperm.mem_iff.2 hc')
  ext ⟨c, m⟩
  rw [entry?_eq_some_iff h, entry?_eq_some_iff h', hperm.mem_iff]

theorem duplicate?_eq_none {seen : List String} {classes : List Class}
    (hnodup : (classes.map (·.name)).Nodup) (hseen : ∀ c ∈ classes, c.name ∉ seen) :
    duplicate? seen classes = none := by
  induction classes generalizing seen with
  | nil => rfl
  | cons c rest ih =>
    obtain ⟨hnot, hrest⟩ := List.nodup_cons.1 hnodup
    have hc : seen.contains c.name = false := by simpa using hseen c List.mem_cons_self
    rw [duplicate?, hc]
    refine ih hrest fun d hd hmem => ?_
    rcases List.mem_cons.1 hmem with heq | hmem
    · exact hnot (List.mem_map.2 ⟨d, hd, heq⟩)
    · exact hseen d (List.mem_cons_of_mem _ hd) hmem

end Context

/-- No two classes have one name, none has the name of the console, and at most one class has an
entry method. -/
structure Program.Unambiguous (p : Program) : Prop where
  distinct : (p.classes.map (·.name)).Nodup
  console : ∀ c ∈ p.classes, c.name ≠ "console"
  entry : SoleEntry p.classes

namespace Program.Unambiguous

variable {p q : Program}

theorem ofProgram (hp : p.Unambiguous) :
    Context.ofProgram p = .ok ⟨p.classes ++ [consoleClass]⟩ := by
  have hnodup : ((p.classes ++ [consoleClass]).map (·.name)).Nodup := by
    rw [List.map_append, List.nodup_append]
    refine ⟨hp.distinct, by simp, ?_⟩
    intro a ha b hb heq
    obtain ⟨c, hc, rfl⟩ := List.mem_map.1 ha
    exact hp.console c hc (heq.trans (List.mem_singleton.1 hb))
  unfold Context.ofProgram
  simp only [Context.duplicate?_eq_none hnodup fun _ _ => List.not_mem_nil]

theorem perm (hp : p.Unambiguous) (hperm : p.classes.Perm q.classes) : q.Unambiguous where
  distinct := (hperm.map _).nodup_iff.1 hp.distinct
  console c hc := hp.console c (hperm.mem_iff.2 hc)
  entry c hc c' hc' := hp.entry c (hperm.mem_iff.2 hc) c' (hperm.mem_iff.2 hc')

theorem soleEntry (hp : p.Unambiguous) : SoleEntry (p.classes ++ [consoleClass]) := by
  have hconsole : ¬ ∃ m ∈ consoleClass.methods, m.isEntry = true := by decide
  intro c hc c' hc' hm hm'
  rw [List.mem_append, List.mem_singleton] at hc hc'
  rcases hc with hc | rfl
  · rcases hc' with hc' | rfl
    · exact hp.entry c hc c' hc' hm hm'
    · exact absurd hm' hconsole
  · exact absurd hm hconsole

/-- The order of the classes makes no difference to a run. -/
theorem outcome_eq_of_perm (hp : p.Unambiguous) (hperm : p.classes.Perm q.classes)
    (constructionCall : Bool) (budget : Nat) :
    q.outcome constructionCall budget = p.outcome constructionCall budget := by
  have hq := hp.perm hperm
  have hclasses : (p.classes ++ [consoleClass]).Perm (q.classes ++ [consoleClass]) :=
    hperm.append_right _
  have hfind := (Context.distinct_of_ofProgram hp.ofProgram).find?_eq_of_perm
    (Context.distinct_of_ofProgram hq.ofProgram) hclasses
  have hentry : Context.entry? ⟨q.classes ++ [consoleClass]⟩ =
      Context.entry? ⟨p.classes ++ [consoleClass]⟩ :=
    Context.entry?_eq_of_perm hp.soleEntry hclasses
  unfold outcome Setup.ofProgram
  rw [hp.ofProgram, hq.ofProgram]
  show (Setup.start ⟨⟨q.classes ++ [consoleClass]⟩, constructionCall⟩ budget).1 =
    (Setup.start ⟨⟨p.classes ++ [consoleClass]⟩, constructionCall⟩ budget).1
  refine Setup.outcome_congr hfind ?_ hentry budget
  rfl

end Program.Unambiguous

/-- A program whose classes have names of their own and that has one entry method at most has the
same outcome whatever the order of its classes, and also without interfaces, without lists of
interfaces and without accessors and mutators. -/
theorem outcome_of_perm {p q : Program} (hp : p.Unambiguous) (hperm : p.classes.Perm q.classes)
    (constructionCall : Bool) (budget : Nat) :
    q.outcome constructionCall budget = p.outcome constructionCall budget ∧
      q.bare.outcome constructionCall budget = p.outcome constructionCall budget :=
  ⟨hp.outcome_eq_of_perm hperm constructionCall budget,
    (q.outcome_bare constructionCall budget).trans
      (hp.outcome_eq_of_perm hperm constructionCall budget)⟩

namespace Gauge

/-- A gauge can be shown. Its level has an accessor and a mutator, which say that they were run. -/
def gauge : Class :=
  { name := "Gauge"
    interfaces := ["Shown"]
    members := [⟨⟨"string", "level"⟩,
      some [.call [] ⟨some "console", "write", [.string "read"]⟩],
      some [.call [] ⟨some "console", "write", [.string "set"]⟩]⟩]
    constructors := [⟨[⟨"string", "l"⟩], [], [.assign "level" (.var "l")]⟩]
    methods := [⟨"show", false, false, false, [], [], [],
      .statements [.call [] ⟨some "console", "write", [.var "level"]⟩]⟩] }

def user : Class :=
  ⟨"Main", [], [], [], [⟨"start", true, false, false, [], [], [⟨"Gauge", "g"⟩],
    .statements [.assign "g" (.construct "Gauge" [.string "low"]),
      .call [] ⟨some "g", "show", []⟩]⟩]⟩

def shown : Interface := ⟨"Shown", [⟨"show", [], []⟩]⟩

def gauges : Program := ⟨[gauge, user], [shown]⟩

/-- The same program with its classes the other way round. -/
def swapped : Program := ⟨[user, gauge], [shown]⟩

theorem gauges_perm : gauges.classes.Perm swapped.classes := .swap user gauge []

theorem gauges_unambiguous : gauges.Unambiguous where
  distinct := by decide
  console := by decide
  entry := by
    have hgauge : ¬ ∃ m ∈ gauge.methods, m.isEntry = true := by decide
    refine List.forall_mem_cons.2 ⟨fun _ _ hm => absurd hm hgauge, List.forall_mem_singleton.2 ?_⟩
    exact List.forall_mem_cons.2 ⟨fun _ hm => absurd hm hgauge,
      List.forall_mem_singleton.2 fun _ _ => rfl⟩

end Gauge

open Gauge in
theorem outcome_of_perm_gauges :
    gauges.Unambiguous ∧ gauges.outcome false 12 = .finished ["low"] ∧
      swapped.outcome false 12 = gauges.outcome false 12 ∧
      swapped.bare.outcome false 12 = gauges.outcome false 12 :=
  ⟨gauges_unambiguous, rfl, outcome_of_perm gauges_unambiguous gauges_perm false 12⟩

end Offside
