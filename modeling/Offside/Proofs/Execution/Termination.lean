import Mathlib.Algebra.Order.BigOperators.Group.List
import Mathlib.Data.Set.Card
import Offside.Proofs.Execution.Request

/-!
Programs whose runs end. A body may enter the methods and constructors that its calls and its new
objects can lead to, and this is read off the text. If a program has no loops and no body can come
to enter itself, bodies have ranks that go down whenever a body is entered. A budget that counts the
ranks and the size of the text is then enough for every task (`Task.Enough.asks`), so every run
ends.
-/
namespace Offside

/-- What a run can enter. -/
inductive Body where
  | method (m : Method)
  | constructor (c : Constructor)

def Body.statements : Body → List Stmt
  | method m => m.statements
  | constructor c => c.body

/-- The second expression is the first or stands somewhere in it. -/
inductive Expr.Contains : Expr → Expr → Prop where
  | refl (e : Expr) : Contains e e
  | inside {e c d : Expr} : c ∈ e.children → Contains c d → Contains e d

/-- The second statement is the first or stands somewhere in it. -/
inductive Stmt.Contains : Stmt → Stmt → Prop where
  | refl (st : Stmt) : Contains st st
  | inside {st c d : Stmt} : c ∈ st.children → Contains c d → Contains st d

namespace Body

/-- The statement stands somewhere in the body. -/
def HasStmt (b : Body) (d : Stmt) : Prop := ∃ st ∈ b.statements, st.Contains d

/-- The expression stands somewhere in the body. -/
def HasExpr (b : Body) (e : Expr) : Prop := ∃ d, b.HasStmt d ∧ ∃ e' ∈ d.exprs, e'.Contains e

/-- The first body may enter the second one: by a call of its name, or by making an object. -/
inductive MayEnter (classes : List Class) : Body → Body → Prop where
  | callStmt {b : Body} {targets : List String} {c : Call} {cls : Class} {m : Method} :
      b.HasStmt (.call targets c) → cls ∈ classes → m ∈ cls.methods → m.name = c.method →
      MayEnter classes b (method m)
  | callExpr {b : Body} {receiver : Option String} {name : String} {args : List Expr}
      {cls : Class} {m : Method} : b.HasExpr (.call receiver name args) → cls ∈ classes →
      m ∈ cls.methods → m.name = name → MayEnter classes b (method m)
  | newMethod {b : Body} {name : String} {args : List Expr} {cls : Class} {m : Method} :
      b.HasExpr (.construct name args) → cls ∈ classes → cls.name = name → m ∈ cls.methods →
      m.hasStatements = true → MayEnter classes b (method m)
  | newConstructor {b : Body} {name : String} {args : List Expr} {cls : Class}
      {c : Constructor} : b.HasExpr (.construct name args) → cls ∈ classes → cls.name = name →
      c ∈ cls.constructors → MayEnter classes b (constructor c)

end Body

/-- The methods and constructors of the classes. -/
def bodiesOf (classes : List Class) : List Body :=
  classes.flatMap fun cls => cls.methods.map .method ++ cls.constructors.map .constructor

namespace Program

/-- No body has a loop. -/
def LoopFree (p : Program) : Prop :=
  ∀ b ∈ bodiesOf p.classes, ∀ item source body, ¬ b.HasStmt (.loop item source body)

/-- No body can come to enter itself. -/
def Acyclic (p : Program) : Prop :=
  ∀ b, ¬ Relation.TransGen (Body.MayEnter p.classes) b b

end Program

/-! ## Text gets smaller -/

theorem Expr.sizeOf_pos (e : Expr) : 0 < sizeOf e := by
  cases e <;> simp

theorem Stmt.sizeOf_pos (st : Stmt) : 0 < sizeOf st := by
  cases st <;> simp

theorem Expr.sizeOf_lt {e c : Expr} (h : c ∈ e.children) : sizeOf c < sizeOf e := by
  cases e with
  | boolean | number | string | character | var => cases h
  | logic op l r | compare op l r | arith op l r =>
    simp only [logic.sizeOf_spec, compare.sizeOf_spec, arith.sizeOf_spec]
    rcases List.mem_pair.1 h with rfl | rfl <;> omega
  | call receiver method args =>
    have hargs : sizeOf c < sizeOf args := List.sizeOf_lt_of_mem h
    rw [call.sizeOf_spec]
    omega
  | construct name args =>
    have hargs : sizeOf c < sizeOf args := List.sizeOf_lt_of_mem h
    rw [construct.sizeOf_spec]
    omega

theorem Call.sizeOf_args_lt (c : Call) : sizeOf c.args < sizeOf c := by
  cases c
  simp

theorem Stmt.sizeOf_exprs_lt {st : Stmt} {e : Expr} (h : e ∈ st.exprs) : sizeOf e < sizeOf st := by
  cases st with
  | assign target value =>
    cases List.mem_singleton.1 h
    simp
  | call targets c =>
    have hargs : sizeOf e < sizeOf c.args := List.sizeOf_lt_of_mem h
    have hcall := c.sizeOf_args_lt
    rw [call.sizeOf_spec]
    omega
  | loop item source body =>
    cases List.mem_singleton.1 h
    rw [loop.sizeOf_spec]
    omega
  | branch cond thenBody elseBody =>
    cases List.mem_singleton.1 h
    rw [branch.sizeOf_spec]
    omega

theorem Stmt.sizeOf_lt {st c : Stmt} (h : c ∈ st.children) : sizeOf c < sizeOf st := by
  cases st with
  | assign | call => cases h
  | loop item source body =>
    have hbody : sizeOf c < sizeOf body := List.sizeOf_lt_of_mem h
    rw [loop.sizeOf_spec]
    omega
  | branch cond thenBody elseBody =>
    rw [branch.sizeOf_spec]
    rcases List.mem_append.1 h with h | h
    · have hbody := List.sizeOf_lt_of_mem h
      omega
    · cases elseBody with
      | none => cases h
      | some body =>
        have hbody : sizeOf c < sizeOf body := List.sizeOf_lt_of_mem h
        rw [Option.some.sizeOf_spec]
        omega

/-- What holds of all that an expression contains holds everywhere in it. -/
theorem Expr.everywhere_of_contains {P : Expr → Prop} (e : Expr) (h : ∀ d, e.Contains d → P d) :
    e.Everywhere P :=
  .intro (h e (.refl e)) fun c hc =>
    everywhere_of_contains c fun d hd => h d (.inside hc hd)
termination_by sizeOf e
decreasing_by exact sizeOf_lt hc

theorem Stmt.everywhere_of_contains {k : Conditions} (st : Stmt)
    (hstatement : ∀ d, st.Contains d → k.statement d)
    (hexpression : ∀ d, st.Contains d → ∀ e ∈ d.exprs, ∀ e', e.Contains e' → k.expression e') :
    st.Everywhere k :=
  .intro (hstatement st (.refl st))
    (fun e he => e.everywhere_of_contains (hexpression st (.refl st) e he))
    fun c hc => everywhere_of_contains c (fun d hd => hstatement d (.inside hc hd))
      fun d hd => hexpression d (.inside hc hd)
termination_by sizeOf st
decreasing_by exact sizeOf_lt hc

theorem Expr.Everywhere.of_contains {P : Expr → Prop} {e d : Expr} (h : e.Contains d)
    (he : e.Everywhere P) : P d := by
  induction h with
  | refl e => exact he.here
  | inside hc _ ih => exact ih (he.inside _ hc)

theorem Stmt.Everywhere.of_contains {k : Conditions} {st d : Stmt} (h : st.Contains d)
    (hst : st.Everywhere k) : d.Everywhere k := by
  induction h with
  | refl st => exact hst
  | inside hc _ ih => exact ih (hst.inside _ hc)

/-! ## Ranks -/

/-- Without cycles, the members of a finite set have ranks. -/
theorem exists_rank {α : Type} {R : α → α → Prop} (l : List α) (hl : ∀ a b, R a b → b ∈ l)
    (hR : ∀ a, ¬ Relation.TransGen R a a) : ∃ rank : α → Nat, ∀ a b, R a b → rank b < rank a := by
  refine ⟨fun a => {b | Relation.TransGen R a b}.ncard, fun a b hab => ?_⟩
  have hfinite : {c | Relation.TransGen R a c}.Finite := by
    refine l.finite_toSet.subset fun c hc => ?_
    obtain ⟨d, -, hd⟩ := Relation.TransGen.tail'_iff.1 hc
    exact hl d c hd
  refine Set.ncard_lt_ncard ⟨fun c hc => hc.head hab, fun hsubset => ?_⟩ hfinite
  exact hR b (hsubset (.single hab))

section

variable (classes : List Class) (rank : Body → Nat) (r : Nat)

/-- The methods of this name are of a lower rank. -/
def CallsBelow (method : String) : Prop :=
  ∀ cls ∈ classes, ∀ m ∈ cls.methods, m.name = method → rank (.method m) < r

/-- What making an object of the class can enter is of a lower rank. -/
def MakesBelow (name : String) : Prop :=
  ∀ cls ∈ classes, cls.name = name →
    (∀ m ∈ cls.methods, m.hasStatements = true → rank (.method m) < r) ∧
      ∀ c ∈ cls.constructors, rank (.constructor c) < r

def Expr.EntersBelow : Expr → Prop
  | call _ method _ => CallsBelow classes rank r method
  | construct name _ => MakesBelow classes rank r name
  | _ => True

def Stmt.EntersBelow : Stmt → Prop
  | call _ c => CallsBelow classes rank r c.method
  | loop .. => False
  | assign .. | branch .. => True

/-- Without loops, and all that can be entered is of a lower rank. -/
def Conditions.below : Conditions where
  declaration _ := True
  method _ := True
  statement := Stmt.EntersBelow classes rank r
  expression := Expr.EntersBelow classes rank r

end

/-- Ranks for the bodies of the classes, such that a body enters bodies of lower ranks only. -/
structure Ranking (classes : List Class) where
  rank : Body → Nat
  enters : ∀ b ∈ bodiesOf classes, ∀ st ∈ b.statements,
    st.Everywhere (.below classes rank (rank b))

/-- More than any body of the classes needs for its own text. -/
noncomputable def bodyWidth (classes : List Class) : Nat :=
  ((bodiesOf classes).map fun b => 2 * sizeOf b.statements + 2).sum

theorem size_lt_bodyWidth {classes : List Class} {b : Body} (hb : b ∈ bodiesOf classes) :
    2 * sizeOf b.statements + 1 < bodyWidth classes :=
  List.single_le_sum (fun _ _ => Nat.zero_le _) _ (List.mem_map_of_mem hb)

theorem mem_bodiesOf_method {classes : List Class} {cls : Class} {m : Method}
    (hcls : cls ∈ classes) (hm : m ∈ cls.methods) : .method m ∈ bodiesOf classes :=
  List.mem_flatMap.2 ⟨cls, hcls, List.mem_append_left _ (List.mem_map_of_mem hm)⟩

theorem mem_bodiesOf_constructor {classes : List Class} {cls : Class} {c : Constructor}
    (hcls : cls ∈ classes) (hc : c ∈ cls.constructors) : .constructor c ∈ bodiesOf classes :=
  List.mem_flatMap.2 ⟨cls, hcls, List.mem_append_right _ (List.mem_map_of_mem hc)⟩

namespace Ranking

variable {classes : List Class} (R : Ranking classes)

/-- What a body needs: its own text, and all that may be entered from it. -/
noncomputable def need (b : Body) : Nat :=
  R.rank b * bodyWidth classes + 2 * sizeOf b.statements + 1

theorem need_lt {b : Body} (hb : b ∈ bodiesOf classes) {r : Nat} (hr : R.rank b < r) :
    R.need b < r * bodyWidth classes := by
  have hsize := size_lt_bodyWidth hb
  have hmul : (R.rank b + 1) * bodyWidth classes ≤ r * bodyWidth classes :=
    Nat.mul_le_mul_right _ hr
  rw [Nat.add_mul] at hmul
  unfold need
  omega

end Ranking

namespace Task

variable {s : Setup} (R : Ranking s.context.classes)

/-- The budget is enough for the task: it allows for the text that the task works on and for all
bodies of lower ranks. -/
def Enough (n : Nat) : Task → Prop
  | expr _ e => ∃ r, e.Everywhere (Expr.EntersBelow s.context.classes R.rank r) ∧
      r * bodyWidth s.context.classes + 2 * sizeOf e ≤ n
  | call _ c => ∃ r, CallsBelow s.context.classes R.rank r c.method ∧
      (∀ e ∈ c.args, e.Everywhere (Expr.EntersBelow s.context.classes R.rank r)) ∧
      r * bodyWidth s.context.classes + 2 * sizeOf c.args + 1 ≤ n
  | construct _ name args => ∃ r, MakesBelow s.context.classes R.rank r name ∧
      (∀ e ∈ args, e.Everywhere (Expr.EntersBelow s.context.classes R.rank r)) ∧
      r * bodyWidth s.context.classes + 2 * sizeOf args + 1 ≤ n
  | stmt _ st => ∃ r, st.Everywhere (.below s.context.classes R.rank r) ∧
      r * bodyWidth s.context.classes + 2 * sizeOf st ≤ n
  | invoke _ _ m _ _ => R.need (.method m) ≤ n
  | runConstructor _ cls _ _ => 0 < n ∧ ∀ c ∈ cls.constructors, R.need (.constructor c) ≤ n
  | iterate .. | repeatWhile .. => False

variable {R} {t u : Task} {w w' : World} {n : Nat}

theorem Enough.pos (h : t.Enough R n) : 0 < n := by
  cases t with
  | expr f e =>
    obtain ⟨r, -, hn⟩ := h
    have := e.sizeOf_pos
    omega
  | call | construct =>
    obtain ⟨r, -, -, hn⟩ := h
    omega
  | stmt f st =>
    obtain ⟨r, -, hn⟩ := h
    have := st.sizeOf_pos
    omega
  | invoke => exact Nat.lt_of_lt_of_le (Nat.succ_pos _) h
  | runConstructor => exact h.1
  | iterate | repeatWhile => exact h.elim

/-- A task for which a budget is enough asks for tasks for which one less is enough. -/
theorem Enough.asks (ht : (knownClasses s).task w t)
    (hn : t.Enough R (n + 1)) (h : t.Asks s u) (hu : (knownClasses s).task w' u) :
    u.Enough R n := by
  cases h with
  | operand hc =>
    obtain ⟨r, hbelow, hn⟩ := hn
    have hsize := Expr.sizeOf_lt hc
    exact ⟨r, hbelow.inside _ hc, by omega⟩
  | exprCall =>
    obtain ⟨r, hbelow, hn⟩ := hn
    rw [Expr.call.sizeOf_spec] at hn
    exact ⟨r, hbelow.here, hbelow.inside, by simp only; omega⟩
  | exprConstruct =>
    obtain ⟨r, hbelow, hn⟩ := hn
    rw [Expr.construct.sizeOf_spec] at hn
    exact ⟨r, hbelow.here, hbelow.inside, by omega⟩
  | argument he | constructArgument he =>
    obtain ⟨r, -, hargs, hn⟩ := hn
    have hsize := List.sizeOf_lt_of_mem he
    exact ⟨r, hargs _ he, by omega⟩
  | @method f c standing cls m this args hm =>
    obtain ⟨r, hcalls, -, hn⟩ := hn
    have hmem := Class.mem_of_resolve hm
    have hneed := R.need_lt (mem_bodiesOf_method hu.1 hmem.1)
      (hcalls cls hu.1 m hmem.1 (Class.name_of_resolve hm))
    show R.need (.method m) ≤ n
    omega
  | @methodStmt route cls m this args f st hst =>
    have hb := mem_bodiesOf_method ht.1 ht.2.2.mem_methods
    have hsize := List.sizeOf_lt_of_mem hst
    refine ⟨R.rank (.method m), R.enters _ hb st hst, ?_⟩
    have hneed : R.rank (.method m) * bodyWidth s.context.classes + 2 * sizeOf m.statements + 1 ≤
      n + 1 := hn
    omega
  | @constructor f name args cls id vs hfind =>
    obtain ⟨r, hmakes, -, hn⟩ := hn
    have hcls : cls ∈ s.context.classes := List.mem_of_find?_eq_some hfind
    have hname : cls.name = name := by simpa using List.find?_some hfind
    have hpos : 0 < sizeOf args := by cases args <;> simp
    refine ⟨by omega, fun c hc => ?_⟩
    have hneed := R.need_lt (mem_bodiesOf_constructor hcls hc) ((hmakes cls hcls hname).2 c hc)
    omega
  | @constructionMethod f name args cls m id vs hfind hm =>
    obtain ⟨r, hmakes, -, hn⟩ := hn
    have hcls : cls ∈ s.context.classes := List.mem_of_find?_eq_some hfind
    have hname : cls.name = name := by simpa using List.find?_some hfind
    obtain ⟨hmem, hstatements, -⟩ := Class.of_constructionMethod? hm
    have hneed := R.need_lt (mem_bodiesOf_method hcls hmem)
      ((hmakes cls hcls hname).1 m hmem hstatements)
    show R.need (.method m) ≤ n
    omega
  | @constructorStmt f f' cls id args c st hc hst =>
    have hb := mem_bodiesOf_constructor ht.2.1 hc
    have hsize := List.sizeOf_lt_of_mem hst
    refine ⟨R.rank (.constructor c), R.enters _ hb st hst, ?_⟩
    have hneed : R.rank (.constructor c) * bodyWidth s.context.classes + 2 * sizeOf c.body + 1 ≤
      n + 1 := hn.2 c hc
    omega
  | stmtExpr he =>
    obtain ⟨r, hbelow, hn⟩ := hn
    have hsize := Stmt.sizeOf_exprs_lt he
    exact ⟨r, hbelow.inExprs _ he, by omega⟩
  | @stmtCall f targets c =>
    obtain ⟨r, hbelow, hn⟩ := hn
    have hsize := c.sizeOf_args_lt
    rw [Stmt.call.sizeOf_spec] at hn
    exact ⟨r, hbelow.here, hbelow.inExprs, by omega⟩
  | stmtInside hc =>
    obtain ⟨r, hbelow, hn⟩ := hn
    have hsize := Stmt.sizeOf_lt hc
    exact ⟨r, hbelow.inside _ hc, by omega⟩
  | loopIterate | loopRepeat =>
    obtain ⟨r, hbelow, hn⟩ := hn
    exact hbelow.here.elim
  | iterateMethod | iterateStmt | iterateNext | repeatStmt | repeatExpr | repeatNext =>
    exact hn.elim

/-- A budget that is enough for a task is not used up by it. -/
theorem Enough.not_exhausts (hw : (knownClasses s).world w)
    (ht : (knownClasses s).task w t) (hn : t.Enough R n) : ¬ (t.run s n).Exhausts w := by
  induction n generalizing t w with
  | zero => exact absurd hn.pos (Nat.lt_irrefl 0)
  | succ n ih =>
    rw [run_succ]
    refine (only_code s t).not_exhausts (Invariant.safe_code _ hw ht) fun u w' hw' hu hasks => ?_
    exact ih hw' hu (hn.asks ht hasks hu)

end Task

/-! ## Programs -/

namespace Body

variable {classes : List Class}

theorem MayEnter.mem_bodiesOf {b b' : Body} (h : MayEnter classes b b') :
    b' ∈ bodiesOf classes := by
  cases h with
  | callStmt _ hcls hm _ | callExpr _ hcls hm _ => exact mem_bodiesOf_method hcls hm
  | newMethod _ hcls _ hm _ => exact mem_bodiesOf_method hcls hm
  | newConstructor _ hcls _ hc => exact mem_bodiesOf_constructor hcls hc

theorem MayEnter.statements_ne_nil {b b' : Body} (h : MayEnter classes b b') :
    b.statements ≠ [] := by
  intro hnil
  have hstmt : ∀ d, ¬ b.HasStmt d := by
    rintro d ⟨st, hst, -⟩
    rw [hnil] at hst
    cases hst
  cases h with
  | callStmt hhas => exact hstmt _ hhas
  | callExpr hhas | newMethod hhas | newConstructor hhas =>
    obtain ⟨d, hd, -⟩ := hhas
    exact hstmt d hd

theorem MayEnter.of_append_console {b b' : Body}
    (h : MayEnter (classes ++ [consoleClass]) b b') (hb : b'.statements ≠ []) :
    MayEnter classes b b' := by
  -- The console has one method, without statements, and no constructors.
  have hconsole : ∀ cls ∈ classes ++ [consoleClass], ∀ m ∈ cls.methods, m.statements ≠ [] →
      cls ∈ classes := by
    refine List.forall_mem_append.2 ⟨fun cls hcls _ _ _ => hcls, List.forall_mem_singleton.2 ?_⟩
    exact List.forall_mem_singleton.2 fun hne => absurd rfl hne
  cases h with
  | callStmt hhas hcls hm hname => exact .callStmt hhas (hconsole _ hcls _ hm hb) hm hname
  | callExpr hhas hcls hm hname => exact .callExpr hhas (hconsole _ hcls _ hm hb) hm hname
  | newMethod hhas hcls hname hm hstatements =>
    exact .newMethod hhas (hconsole _ hcls _ hm hb) hname hm hstatements
  | newConstructor hhas hcls hname hc =>
    rcases List.mem_append.1 hcls with hcls | hcls
    · exact .newConstructor hhas hcls hname hc
    · cases List.mem_singleton.1 hcls
      cases hc

/-- Bodies have ranks, those without statements the lowest. -/
theorem exists_rank_of_acyclic (h : ∀ b, ¬ Relation.TransGen (MayEnter classes) b b) :
    ∃ rank : Body → Nat, ∀ b b', MayEnter (classes ++ [consoleClass]) b b' →
      rank b' < rank b := by
  classical
  obtain ⟨rank, hrank⟩ := exists_rank (bodiesOf classes) (fun _ _ => MayEnter.mem_bodiesOf) h
  refine ⟨fun b => if b.statements = [] then 0 else rank b + 1, fun b b' henter => ?_⟩
  simp only [if_neg henter.statements_ne_nil]
  split
  · exact Nat.succ_pos _
  · exact Nat.succ_lt_succ (hrank b b' (henter.of_append_console ‹_›))

end Body

namespace Program

variable {p : Program}

theorem LoopFree.not_hasStmt (h : p.LoopFree) {b : Body}
    (hb : b ∈ bodiesOf (p.classes ++ [consoleClass])) (item : Option String) (source : Expr)
    (body : List Stmt) : ¬ b.HasStmt (.loop item source body) := by
  unfold bodiesOf at hb
  rw [List.flatMap_append, List.mem_append] at hb
  rcases hb with hb | hb
  · exact h b hb item source body
  · cases List.mem_singleton.1 hb
    rintro ⟨st, hst, -⟩
    cases hst

/-- A program without loops and without cycles has a ranking. -/
theorem exists_ranking (hloops : p.LoopFree) (hacyclic : p.Acyclic) :
    Nonempty (Ranking (p.classes ++ [consoleClass])) := by
  obtain ⟨rank, hrank⟩ := Body.exists_rank_of_acyclic hacyclic
  refine ⟨rank, fun b hb st hst => ?_⟩
  refine st.everywhere_of_contains (fun d hd => ?_) fun d hd e he e' he' => ?_
  · have hhas : b.HasStmt d := ⟨st, hst, hd⟩
    cases d with
    | assign | branch => trivial
    | call targets c =>
      exact fun cls hcls m hm hname => hrank b _ (.callStmt hhas hcls hm hname)
    | loop item source body => exact hloops.not_hasStmt hb item source body hhas
  · have hhas : b.HasExpr e' := ⟨d, ⟨st, hst, hd⟩, e, he, he'⟩
    cases e' with
    | call receiver method args =>
      exact fun cls hcls m hm hname => hrank b _ (.callExpr hhas hcls hm hname)
    | construct name args =>
      intro cls hcls hname
      exact ⟨fun m hm hstatements => hrank b _ (.newMethod hhas hcls hname hm hstatements),
        fun c hc => hrank b _ (.newConstructor hhas hcls hname hc)⟩
    | _ => trivial

end Program

/-- Every run of a program without loops, in which no body can come to enter itself, ends: from some
budget on its outcome is the same, and the budget is not used up. -/
theorem run_ends {p : Program} (hloops : p.LoopFree) (hacyclic : p.Acyclic)
    (constructionCall : Bool) :
    ∃ outcome, outcome ≠ .exhausted ∧ ∃ enough, ∀ budget ≥ enough,
      p.outcome constructionCall budget = outcome := by
  obtain ⟨enough, hne⟩ : ∃ enough, p.outcome constructionCall enough ≠ .exhausted := by
    unfold Program.outcome
    cases hs : Setup.ofProgram p constructionCall with
    | error f => exact ⟨0, by simp⟩
    | ok s =>
      obtain ⟨R⟩ := Program.exists_ranking hloops hacyclic
      rw [← Context.classes_of_ofProgram (Setup.of_ofProgram hs).1] at R
      cases hentry : s.context.entry? with
      | none =>
        refine ⟨0, ?_⟩
        simp only [Setup.outcome_of_none hentry]
        simp
      | some entry =>
        obtain ⟨cls, m⟩ := entry
        refine ⟨R.need (.method m), ?_⟩
        simp only [Setup.outcome_of_entry hentry]
        rw [Ne, Outcome.ofResult_eq_exhausted_iff]
        have hstart : (knownClasses s).world .start := fun id i hi => by cases hi
        have henough : (Task.invoke .entry cls m none []).Enough R (R.need (.method m)) :=
          Nat.le_refl _
        exact henough.not_exhausts hstart (Setup.task_entry hentry)
  exact ⟨_, hne, enough, fun budget hle => Program.outcome_eq_of_le hne hle⟩

namespace Ranking

variable {p : Program}

theorem everywhere_of_hasStmt (R : Ranking p.classes) {b : Body} (hb : b ∈ bodiesOf p.classes)
    {d : Stmt} (h : b.HasStmt d) : d.Everywhere (.below p.classes R.rank (R.rank b)) := by
  obtain ⟨st, hst, hcontains⟩ := h
  exact (R.enters b hb st hst).of_contains hcontains

theorem entersBelow_of_hasExpr (R : Ranking p.classes) {b : Body} (hb : b ∈ bodiesOf p.classes)
    {e : Expr} (h : b.HasExpr e) : e.EntersBelow p.classes R.rank (R.rank b) := by
  obtain ⟨d, hd, e', he', hcontains⟩ := h
  exact ((R.everywhere_of_hasStmt hb hd).inExprs e' he').of_contains hcontains

theorem rank_lt (R : Ranking p.classes) {b b' : Body} (hb : b ∈ bodiesOf p.classes)
    (h : Body.MayEnter p.classes b b') : R.rank b' < R.rank b := by
  cases h with
  | callStmt hhas hcls hm hname => exact (R.everywhere_of_hasStmt hb hhas).here _ hcls _ hm hname
  | callExpr hhas hcls hm hname => exact R.entersBelow_of_hasExpr hb hhas _ hcls _ hm hname
  | newMethod hhas hcls hname hm hstatements =>
    exact (R.entersBelow_of_hasExpr hb hhas _ hcls hname).1 _ hm hstatements
  | newConstructor hhas hcls hname hc =>
    exact (R.entersBelow_of_hasExpr hb hhas _ hcls hname).2 _ hc

/-- A program with a ranking has no loops. -/
theorem loopFree (R : Ranking p.classes) : p.LoopFree :=
  fun _ hb _ _ _ h => (R.everywhere_of_hasStmt hb h).here

/-- In a program with a ranking no body can come to enter itself. -/
theorem acyclic (R : Ranking p.classes) : p.Acyclic := by
  have hlt : ∀ b b', Relation.TransGen (Body.MayEnter p.classes) b b' →
      b ∈ bodiesOf p.classes → R.rank b' < R.rank b := by
    intro b b' h
    induction h using Relation.TransGen.head_induction_on with
    | single h => exact fun hb => R.rank_lt hb h
    | head h _ ih => exact fun hb => Nat.lt_trans (ih h.mem_bodiesOf) (R.rank_lt hb h)
  intro b h
  -- A body on a cycle is entered, so it is one of the program's.
  obtain ⟨c, -, hc⟩ := Relation.TransGen.tail'_iff.1 h
  exact Nat.lt_irrefl _ (hlt b b h hc.mem_bodiesOf)

end Ranking

namespace Lamp

def method (name : String) (isShared : Bool) (locals : List Declaration) (body : List Stmt) :
    Method :=
  ⟨name, isShared, false, false, [], [], locals, .statements body⟩

def say (text : String) : Stmt := .call [] ⟨some "console", "write", [.string text]⟩

/-- A lamp reports that it was made, and that it is lit. -/
def lamp : Class :=
  ⟨"Lamp", [], [], [⟨[], [], [say "made"]⟩], [method "light" false [] [say "lit"]]⟩

def user : Class :=
  ⟨"Main", [], [], [],
    [method "report" true [] [say "done"],
      method "start" true [⟨"Lamp", "l"⟩]
        [.assign "l" (.construct "Lamp" []), .call [] ⟨none, "report", []⟩]]⟩

def lamps : Program := ⟨[lamp, user], []⟩

/-- Only the entry method enters other bodies of the program. -/
def rank : Body → Nat
  | .method m => if m.name = "start" then 1 else 0
  | .constructor _ => 0

theorem callsBelow_write : CallsBelow lamps.classes rank 0 "write" := by
  unfold CallsBelow
  decide

theorem callsBelow_report : CallsBelow lamps.classes rank 1 "report" := by
  unfold CallsBelow
  decide

theorem makesBelow_lamp : MakesBelow lamps.classes rank 1 "Lamp" := by
  unfold MakesBelow
  decide

theorem say_below (text : String) :
    ∀ st ∈ [say text], st.Everywhere (.below lamps.classes rank 0) :=
  List.forall_mem_singleton.2 (.intro callsBelow_write
    (List.forall_mem_singleton.2 (.leaf rfl trivial)) (List.forall_mem_nil _))

theorem start_below :
    ∀ st ∈ [Stmt.assign "l" (.construct "Lamp" []), .call [] ⟨none, "report", []⟩],
    st.Everywhere (.below lamps.classes rank 1) := by
  refine List.forall_mem_cons.2 ⟨.intro trivial ?_ (List.forall_mem_nil _),
    List.forall_mem_singleton.2 (.intro callsBelow_report (List.forall_mem_nil _)
      (List.forall_mem_nil _))⟩
  exact List.forall_mem_singleton.2 (.leaf rfl makesBelow_lamp)

def ranking : Ranking lamps.classes where
  rank := rank
  enters := by
    refine List.forall_mem_cons.2 ⟨say_below "lit", List.forall_mem_cons.2 ⟨say_below "made", ?_⟩⟩
    exact List.forall_mem_cons.2 ⟨say_below "done", List.forall_mem_singleton.2 start_below⟩
end Lamp

open Lamp in
theorem run_ends_lamps :
    lamps.LoopFree ∧ lamps.Acyclic ∧ lamps.outcome true 20 = .finished ["made", "lit", "done"] ∧
    ∃ outcome, outcome ≠ .exhausted ∧ ∃ enough, ∀ budget ≥ enough,
      lamps.outcome true budget = outcome :=
  ⟨ranking.loopFree, ranking.acyclic, rfl, run_ends ranking.loopFree ranking.acyclic true⟩

end Offside
