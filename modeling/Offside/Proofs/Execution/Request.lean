import Offside.Proofs.Execution.Budget

/-!
Which tasks a task can ask for. The relation `Task.Asks` is told by the text that a task works on:
the parts of an expression or a statement, the arguments of a call, the statements of the method or
constructor that is entered. Whatever answers it gets, the code of a task asks for no other tasks
(`Task.only_code`). So what is wanted of all tasks of a run need only be passed on along `Asks`: two
runs agree (`Code.Only.run_eq`), or a budget is enough (`Code.Only.not_exhausts`).
-/
namespace Offside

namespace Task

/-- The second task may be asked for by the code of the first. Which frames and objects go with it
is left open where the text does not tell. -/
inductive Asks (s : Setup) : Task → Task → Prop where
  | operand {f : Frame} {e c : Expr} : c ∈ e.children → Asks s (expr f e) (expr f c)
  | exprCall {f : Frame} {receiver : Option String} {method : String} {args : List Expr} :
      Asks s (expr f (.call receiver method args)) (call f ⟨receiver, method, args⟩)
  | exprConstruct {f : Frame} {name : String} {args : List Expr} :
      Asks s (expr f (.construct name args)) (construct f name args)
  | argument {f : Frame} {c : Call} {e : Expr} : e ∈ c.args → Asks s (call f c) (expr f e)
  | method {f : Frame} {c : Call} {standing : Standing} {cls : Class} {m : Method}
      {this : Option ObjectId} {args : List Value} :
      cls.resolve standing c.method args = .ok m →
      Asks s (call f c) (invoke (.call standing f.cls) cls m this args)
  | methodStmt {route : Route} {cls : Class} {m : Method} {this : Option ObjectId}
      {args : List Value} {f : Frame} {st : Stmt} : st ∈ m.statements →
      Asks s (invoke route cls m this args) (stmt f st)
  | constructArgument {f : Frame} {name : String} {args : List Expr} {e : Expr} : e ∈ args →
      Asks s (construct f name args) (expr f e)
  | constructor {f : Frame} {name : String} {args : List Expr} {cls : Class} {id : ObjectId}
      {vs : List Value} : s.context.find? name = some cls →
      Asks s (construct f name args) (runConstructor f cls id vs)
  | constructionMethod {f : Frame} {name : String} {args : List Expr} {cls : Class}
      {m : Method} {id : ObjectId} {vs : List Value} : s.context.find? name = some cls →
      cls.constructionMethod? vs = some m →
      Asks s (construct f name args) (invoke (.construction f.cls) cls m (some id) vs)
  | constructorStmt {f f' : Frame} {cls : Class} {id : ObjectId} {args : List Value}
      {c : Constructor} {st : Stmt} : c ∈ cls.constructors → st ∈ c.body →
      Asks s (runConstructor f cls id args) (stmt f' st)
  | stmtExpr {f : Frame} {st : Stmt} {e : Expr} : e ∈ st.exprs → Asks s (stmt f st) (expr f e)
  | stmtCall {f : Frame} {targets : List String} {c : Call} :
      Asks s (stmt f (.call targets c)) (call f c)
  | stmtInside {f f' : Frame} {st c : Stmt} : c ∈ st.children → Asks s (stmt f st) (stmt f' c)
  | loopIterate {f : Frame} {item : Option String} {source : Expr} {body : List Stmt}
      {cls : Class} {m : Method} {id : ObjectId} :
      Asks s (stmt f (.loop item source body)) (iterate cls m id item body f)
  | loopRepeat {f : Frame} {item : Option String} {source : Expr} {body : List Stmt}
      {v : Value} : Asks s (stmt f (.loop item source body)) (repeatWhile source item body v f)
  | iterateMethod {cls : Class} {m : Method} {id : ObjectId} {item : Option String}
      {body : List Stmt} {f : Frame} : Asks s (iterate cls m id item body f)
        (invoke (.iterator f.cls) cls m (some id) [])
  | iterateStmt {cls : Class} {m : Method} {id : ObjectId} {item : Option String}
      {body : List Stmt} {f f' : Frame} {st : Stmt} : st ∈ body →
      Asks s (iterate cls m id item body f) (stmt f' st)
  | iterateNext {cls : Class} {m : Method} {id : ObjectId} {item : Option String}
      {body : List Stmt} {f f' : Frame} :
      Asks s (iterate cls m id item body f) (iterate cls m id item body f')
  | repeatStmt {source : Expr} {item : Option String} {body : List Stmt} {v : Value}
      {f f' : Frame} {st : Stmt} : st ∈ body →
      Asks s (repeatWhile source item body v f) (stmt f' st)
  | repeatExpr {source : Expr} {item : Option String} {body : List Stmt} {v : Value}
      {f f' : Frame} : Asks s (repeatWhile source item body v f) (expr f' source)
  | repeatNext {source : Expr} {item : Option String} {body : List Stmt} {v v' : Value}
      {f f' : Frame} :
      Asks s (repeatWhile source item body v f) (repeatWhile source item body v' f')

end Task

namespace Code

variable {α β γ : Type}

/-- The code asks for tasks of one sort only, whatever the answers are, and halts at faults only. -/
def Only (P : Task → Prop) : Code α → Prop
  | done _ => True
  | halt e => e ≠ .exhausted
  | effect _ k => ∀ a, (k a).Only P
  | task t k => P t ∧ ∀ a, (k a).Only P

namespace Only

variable {P : Task → Prop} {c : Code α} {k : α → Code β}

theorem pure (a : α) : (Pure.pure a : Code α).Only P := trivial

theorem fail (f : Fault) : (fail f : Code α).Only P := fun h => by cases h

theorem bind (hc : c.Only P) (hk : ∀ a, (k a).Only P) : (c >>= k).Only P := by
  induction c with
  | done a => exact hk a
  | halt e => exact hc
  | effect x k' ih => exact fun a => ih a (hc a)
  | task t k' ih => exact ⟨hc.1, fun a => ih a (hc.2 a)⟩

theorem ask {t : Task} (h : P t) : (ask t).Only P := ⟨h, fun _ => trivial⟩

theorem heap : heap.Only P := fun _ => trivial

theorem record (e : Event) : (record e).Only P := fun _ => trivial

theorem writeLine (vs : List Value) : (writeLine vs).Only P := fun _ => trivial

theorem allocate (i : Instance) : (allocate i).Only P := fun _ => trivial

theorem write (f : Frame) (name : String) (v : Value) (slot : Slot) :
    (write f name v slot).Only P := fun _ => trivial

theorem bind_ofExcept {e : Except Fault α} (h : ∀ a, e = .ok a → (k a).Only P) :
    (ofExcept e >>= k).Only P := by
  cases e with
  | ok a => exact h a rfl
  | error f => exact fail f

theorem ofExcept (e : Except Fault α) : (ofExcept e).Only P := by
  cases e with
  | ok a => exact pure a
  | error f => exact fail f

theorem mapM {g : γ → Code α} (items : List γ) (h : ∀ c ∈ items, (g c).Only P) :
    (items.mapM g).Only P := by
  induction items with
  | nil =>
    rw [List.mapM_nil]
    exact pure _
  | cons c items ih =>
    rw [List.mapM_cons]
    refine (h c List.mem_cons_self).bind fun a => ?_
    exact (ih fun c hc => h c (List.mem_cons_of_mem _ hc)).bind fun _ => pure _

theorem foldlM {g : α → γ → Code α} (items : List γ) (h : ∀ c ∈ items, ∀ a, (g a c).Only P)
    (a : α) : (items.foldlM g a).Only P := by
  induction items generalizing a with
  | nil =>
    rw [List.foldlM_nil]
    exact pure _
  | cons c items ih =>
    rw [List.foldlM_cons]
    exact (h c List.mem_cons_self a).bind
      fun b => ih (fun c hc => h c (List.mem_cons_of_mem _ hc)) b

theorem store (f : Frame) (name : String) (v : Value) : (store f name v).Only P := by
  refine heap.bind fun h => ?_
  split
  · exact write _ _ _ _
  · exact fail _

theorem storeItem (f : Frame) (v : Value) (item : Option String) :
    (storeItem f v item).Only P := by
  cases item with
  | none => exact pure f
  | some name => exact heap.bind fun _ => write _ _ _ _

theorem condition (v : Value) : (condition v).Only P := by
  unfold Code.condition
  split
  · exact pure _
  · exact heap.bind fun _ => fail _

theorem exprs {f : Frame} {es : List Expr} (h : ∀ e ∈ es, P (.expr f e)) :
    (exprs f es).Only P :=
  mapM es fun e he => ask (h e he)

theorem stmts {f : Frame} {body : List Stmt} (h : ∀ st ∈ body, ∀ f', P (.stmt f' st)) :
    (stmts f body).Only P :=
  foldlM body (fun st hst f' => ask (t := .stmt f' st) (h st hst f')) f

theorem operation {f : Frame} {l r : Expr} (hl : P (.expr f l)) (hr : P (.expr f r))
    (op : Heap → Value → Value → Except Fault Value) : (operation f l r op).Only P := by
  refine Only.bind (ask hl) fun a => Only.bind (ask hr) fun b => ?_
  exact heap.bind fun _ => ofExcept _

section

variable {s : Setup} {f : Frame} {cls : Class} {m : Method} {id : ObjectId} {args : List Value}
  {item : Option String} {body : List Stmt}

theorem ofExpr (e : Expr) : (ofExpr f e).Only (Task.Asks s (.expr f e)) := by
  cases e with
  | boolean | number | string | character => exact pure _
  | var name =>
    refine heap.bind fun h => ?_
    split
    · exact pure _
    · exact fail _
  | logic op l r | compare op l r | arith op l r =>
    exact operation (.operand (by simp [Expr.children])) (.operand (by simp [Expr.children])) _
  | call receiver method args =>
    refine Only.bind (ask .exprCall) fun vs => ?_
    split
    · exact pure _
    · exact fail _
  | construct name args => exact ask .exprConstruct

theorem ofCall (c : Call) : (ofCall s f c).Only (Task.Asks s (.call f c)) := by
  refine (exprs fun e he => .argument he).bind fun args => heap.bind fun h => ?_
  refine (ofExcept _).bind fun found => bind_ofExcept fun m hm => ?_
  exact ask (.method hm)

theorem ofInvoke {route : Route} {this : Option ObjectId} :
    (ofInvoke route cls m this args).Only (Task.Asks s (.invoke route cls m this args)) := by
  refine (record _).bind fun _ => ?_
  split
  · exact (writeLine _).bind fun _ => pure _
  · rename_i body hbody
    have hstatements : m.statements = body := by rw [Method.statements, hbody]
    split
    · refine (stmts fun st hst f' => .methodStmt (hstatements ▸ hst)).bind fun _ => ?_
      exact ofExcept _
    · exact fail _

theorem ofConstruct {name : String} {es : List Expr} :
    (ofConstruct s f name es).Only (Task.Asks s (.construct f name es)) := by
  unfold Code.ofConstruct
  split
  · exact fail _
  · rename_i cls hfind
    refine heap.bind fun h => (allocate _).bind fun id => ?_
    refine (exprs fun e he => .constructArgument he).bind fun vs => ?_
    refine Only.bind (ask (.constructor hfind)) fun _ => ?_
    split
    · split
      · exact Only.bind (ask (.constructionMethod hfind ‹_›)) fun _ => pure _
      · exact pure _
    · exact pure _

theorem ofRunConstructor :
    (ofRunConstructor f cls id args).Only (Task.Asks s (.runConstructor f cls id args)) := by
  unfold Code.ofRunConstructor
  split
  · exact pure _
  · split
    · exact fail _
    · rename_i c hc
      refine (record _).bind fun _ => ?_
      exact (stmts fun st hst f' => .constructorStmt (Class.of_constructor? hc).1 hst).bind
        fun _ => pure _

theorem ofStmt (st : Stmt) : (ofStmt f st).Only (Task.Asks s (.stmt f st)) := by
  cases st with
  | assign target value =>
    exact Only.bind (ask (.stmtExpr (by simp [Stmt.exprs]))) fun v => store _ _ _
  | call targets c =>
    refine Only.bind (ask .stmtCall) fun vs => ?_
    split
    · exact fail _
    · exact foldlM _ (fun _ _ _ => store _ _ _) _
  | loop item source body =>
    refine Only.bind (ask (.stmtExpr (by simp [Stmt.exprs]))) fun v => ?_
    split
    · exact ask .loopRepeat
    · refine heap.bind fun h => ?_
      split
      · exact fail _
      · split
        · exact fail _
        · exact ask .loopIterate
    · exact heap.bind fun _ => fail _
  | branch cond thenBody elseBody =>
    refine Only.bind (ask (.stmtExpr (by simp [Stmt.exprs]))) fun v =>
      (condition v).bind fun b => ?_
    split
    · exact stmts fun st hst f' => .stmtInside (List.mem_append_left _ hst)
    · exact stmts fun st hst f' => .stmtInside (List.mem_append_right _ hst)

theorem ofIterate :
    (ofIterate cls m id item body f).Only (Task.Asks s (.iterate cls m id item body f)) := by
  refine Only.bind (ask .iterateMethod) fun vs => ?_
  split
  · split
    · exact pure _
    · refine (storeItem _ _ _).bind fun f₁ => ?_
      refine (stmts fun st hst f' => .iterateStmt hst).bind fun f₂ => ?_
      exact ask .iterateNext
    · exact heap.bind fun _ => fail _
  · exact fail _

theorem ofRepeatWhile {source : Expr} {v : Value} :
    (ofRepeatWhile source item body v f).Only
      (Task.Asks s (.repeatWhile source item body v f)) := by
  refine (condition v).bind fun b => ?_
  split
  · refine (storeItem _ _ _).bind fun f₁ => ?_
    refine (stmts fun st hst f' => .repeatStmt hst).bind fun f₂ => ?_
    exact Only.bind (ask .repeatExpr) fun _ => ask .repeatNext
  · exact pure _

end

end Only

end Code

/-- The code of a task asks for the tasks that its text tells, and no others. -/
theorem Task.only_code (s : Setup) (t : Task) : (t.code s).Only (t.Asks s) := by
  cases t with
  | expr f e => exact .ofExpr e
  | call f c => exact .ofCall c
  | invoke => exact .ofInvoke
  | construct => exact .ofConstruct
  | runConstructor => exact .ofRunConstructor
  | stmt f st => exact .ofStmt st
  | iterate => exact .ofIterate
  | repeatWhile => exact .ofRepeatWhile

namespace Code.Only

variable {s : Setup} {n : Nat} {J : Invariant s} {α : Type} {P : Task → Prop} {c : Code α}
  {w : World} {Q : α → World → Prop}

/-- Code runs in the same way with other answers, if they are the same for the tasks of the sort. -/
theorem run_eq (hc : c.Only P) (hsafe : J.Safe w c Q) {answer : (t : Task) → Machine t.Answer}
    (h : ∀ t w, J.world w → J.task w t → P t → answer t w = t.run s n w) :
    c.run answer w = c.run (Task.run s n) w := by
  induction c generalizing w with
  | done | halt => rfl
  | effect x k ih => exact ih _ (hc _) hsafe.2.2.2
  | task t k ih =>
    obtain ⟨hw, ht, hnext⟩ := hsafe
    have heq := h t w hw ht hc.1
    have hkeeps := J.sound n t w hw ht
    cases hrun : t.run s n w with
    | error e w' =>
      rw [run, run, Machine.bind_error hrun, Machine.bind_error (heq.trans hrun)]
    | ok a w' =>
      have hw' := hkeeps.world
      have hl := hkeeps.later
      rw [Machine.final_ok hrun] at hw' hl
      rw [run, run, Machine.bind_ok hrun, Machine.bind_ok (heq.trans hrun),
        ih a (hc.2 a) (hnext a w' hw' hl (hkeeps.result hrun))]

/-- Code does not use up a budget that is enough for all tasks of the sort. -/
theorem not_exhausts (hc : c.Only P) (hsafe : J.Safe w c Q)
    (h : ∀ t w, J.world w → J.task w t → P t → ¬ (t.run s n).Exhausts w) :
    ¬ (c.run (Task.run s n)).Exhausts w := by
  induction c generalizing w with
  | done a =>
    rintro ⟨w', hrun⟩
    cases hrun
  | halt e =>
    rintro ⟨w', hrun⟩
    cases hrun
    exact hc rfl
  | effect x k ih => exact ih _ (hc _) hsafe.2.2.2
  | task t k ih =>
    obtain ⟨hw, ht, hnext⟩ := hsafe
    have hkeeps := J.sound n t w hw ht
    rintro ⟨w'', hend⟩
    cases hrun : t.run s n w with
    | error e w' =>
      cases (Machine.bind_error hrun).symm.trans hend
      exact h t w hw ht hc.1 ⟨_, hrun⟩
    | ok a w' =>
      have hw' := hkeeps.world
      have hl := hkeeps.later
      rw [Machine.final_ok hrun] at hw' hl
      exact ih a (hc.2 a) (hnext a w' hw' hl (hkeeps.result hrun))
        ⟨w'', (Machine.bind_ok hrun).symm.trans hend⟩

end Code.Only

end Offside
