import Offside.Proofs.Execution.Request

/-!
The call that comes with a new object. If no class has a method for the arguments with which it is
made, there is nothing to call: the code of every task is then the same whether new objects call a
method or not, because the arguments are as many as the text says. So the two kinds of runs are the
same, step by step.
-/
namespace Offside

/-- An object that is made here has no method that takes as many arguments as there are. -/
def Expr.MakesQuietly (classes : List Class) : Expr → Prop
  | .construct name args => ∀ cls ∈ classes, cls.name = name →
      ∀ m ∈ cls.methods, m.hasStatements = true → m.params.length ≠ args.length
  | _ => True

/-- No object that is made calls a method. -/
def Conditions.quiet (classes : List Class) : Conditions where
  declaration _ := True
  method _ := True
  statement _ := True
  expression := Expr.MakesQuietly classes

/-- The objects that the bodies of the first classes make are of classes among the second ones
without a method to call. -/
structure Quiet (bodies classes : List Class) : Prop where
  methods : ∀ cls ∈ bodies, ∀ m ∈ cls.methods, ∀ st ∈ m.statements,
    st.Everywhere (.quiet classes)
  constructors : ∀ cls ∈ bodies, ∀ c ∈ cls.constructors, ∀ st ∈ c.body,
    st.Everywhere (.quiet classes)

/-- No body of the program makes an object that could call a method. -/
def Program.Quiet (p : Program) : Prop := Offside.Quiet p.classes p.classes

namespace Task

/-- The text that a task works on makes no object that could call a method. -/
def Quiet (classes : List Class) : Task → Prop
  | expr _ e => e.Everywhere (Expr.MakesQuietly classes)
  | call _ c => ∀ e ∈ c.args, e.Everywhere (Expr.MakesQuietly classes)
  | construct _ name args => (Expr.construct name args).Everywhere (Expr.MakesQuietly classes)
  | stmt _ st => st.Everywhere (.quiet classes)
  | iterate _ m _ _ body _ => (∀ st ∈ m.statements, st.Everywhere (.quiet classes)) ∧
      ∀ st ∈ body, st.Everywhere (.quiet classes)
  | repeatWhile source _ body _ _ => source.Everywhere (Expr.MakesQuietly classes) ∧
      ∀ st ∈ body, st.Everywhere (.quiet classes)
  | invoke _ _ m _ _ => ∀ st ∈ m.statements, st.Everywhere (.quiet classes)
  | runConstructor _ cls _ _ => ∀ c ∈ cls.constructors, ∀ st ∈ c.body,
      st.Everywhere (.quiet classes)

variable {s : Setup} {classes : List Class} {t u : Task} {w : World}

theorem quiet_invoke (hs : Offside.Quiet s.context.classes classes) {route : Route} {cls : Class}
    {m : Method} {this : Option ObjectId} {args : List Value}
    (h : (knownClasses s).task w (.invoke route cls m this args)) :
    (invoke route cls m this args).Quiet classes :=
  hs.methods cls h.1 m h.2.2.mem_methods

/-- A quiet task asks for quiet tasks only. -/
theorem Quiet.asks (hs : Offside.Quiet s.context.classes classes) (ht : t.Quiet classes)
    (h : t.Asks s u) (hu : (knownClasses s).task w u) : u.Quiet classes := by
  cases h with
  | operand hc => exact ht.inside _ hc
  | exprCall => exact ht.inside
  | exprConstruct => exact ht
  | argument he => exact ht _ he
  | method | constructionMethod | iterateMethod => exact quiet_invoke hs hu
  | methodStmt hst => exact ht _ hst
  | constructArgument he => exact ht.inside _ he
  | constructor => exact hs.constructors _ hu.2.1
  | constructorStmt hc hst => exact ht _ hc _ hst
  | stmtExpr he => exact ht.inExprs _ he
  | stmtCall => exact ht.inExprs
  | stmtInside hc => exact ht.inside _ hc
  | @loopIterate f _ _ _ cls m =>
    have hlegit : (Event.invoked (.iterator f.cls) cls m 0).Legit s := hu.2.2 f.cls
    exact ⟨hs.methods cls hu.2.1 m hlegit.mem_methods, ht.inside⟩
  | loopRepeat => exact ⟨ht.inExprs _ (by simp [Stmt.exprs]), ht.inside⟩
  | iterateStmt hst => exact ht.2 _ hst
  | iterateNext => exact ht
  | repeatStmt hst => exact ht.2 _ hst
  | repeatExpr => exact ht.1
  | repeatNext => exact ht

end Task

namespace Code

/-- There are as many values as expressions, so code that follows may rely on it. -/
theorem exprs_bind_congr {β : Type} {f : Frame} {es : List Expr} {k k' : List Value → Code β}
    (h : ∀ vs, vs.length = es.length → k vs = k' vs) :
    exprs f es >>= k = exprs f es >>= k' := by
  induction es generalizing k k' with
  | nil => exact h [] rfl
  | cons e es ih =>
    simp only [exprs, List.mapM_cons, bind_assoc, pure_bind]
    refine bind_congr fun v => ih fun vs hvs => h (v :: vs) ?_
    rw [List.length_cons, List.length_cons, hvs]

end Code

theorem Class.constructionMethod?_eq_none {cls : Class} {args : List Value}
    (h : ∀ m ∈ cls.methods, m.hasStatements = true → m.params.length ≠ args.length) :
    cls.constructionMethod? args = none := by
  refine List.find?_eq_none.2 fun m hm htakes => ?_
  rw [Bool.and_eq_true, beq_iff_eq] at htakes
  exact h m hm htakes.1 htakes.2

namespace Code

/-- A quiet object is made by the same code whether new objects call a method or not. -/
theorem ofConstruct_eq_of_quiet {ctx : Context} {f : Frame} {name : String} {es : List Expr}
    (h : (Expr.construct name es).MakesQuietly ctx.classes) :
    ofConstruct ⟨ctx, true⟩ f name es = ofConstruct ⟨ctx, false⟩ f name es := by
  unfold ofConstruct
  simp only
  cases hfind : ctx.find? name with
  | none => rfl
  | some cls =>
    have hname : cls.name = name := by simpa using List.find?_some hfind
    have hnone := h cls (List.mem_of_find?_eq_some hfind) hname
    refine bind_congr fun heap => bind_congr fun id => exprs_bind_congr fun vs hvs => ?_
    rw [← hvs] at hnone
    rw [Class.constructionMethod?_eq_none hnone]
    rfl

end Code

namespace Task

variable {ctx : Context} {t : Task} {w : World}

theorem Quiet.code_eq (ht : t.Quiet ctx.classes) : t.code ⟨ctx, true⟩ = t.code ⟨ctx, false⟩ := by
  cases t with
  | construct f name args => exact Code.ofConstruct_eq_of_quiet ht.here
  | _ => rfl

/-- A quiet task does the same whether new objects call a method or not. -/
theorem Quiet.run_eq (hctx : Offside.Quiet ctx.classes ctx.classes) (n : Nat)
    (hw : (knownClasses ⟨ctx, true⟩).world w) (ht : (knownClasses ⟨ctx, true⟩).task w t)
    (hquiet : t.Quiet ctx.classes) : t.run ⟨ctx, false⟩ n w = t.run ⟨ctx, true⟩ n w := by
  induction n generalizing t w with
  | zero => rw [run_zero, run_zero]
  | succ n ih =>
    rw [run_succ, run_succ, ← hquiet.code_eq]
    refine (only_code _ t).run_eq (Invariant.safe_code _ hw ht) fun u w' hw' hu hasks => ?_
    exact ih hw' hu (hquiet.asks hctx hasks hu)

end Task

/-- The console makes no objects, and a new console has no method to call. -/
theorem Quiet.append_console {classes : List Class} (h : Quiet classes classes) :
    Quiet (classes ++ [consoleClass]) (classes ++ [consoleClass]) := by
  have hexpr : ∀ e, Expr.MakesQuietly classes e →
      Expr.MakesQuietly (classes ++ [consoleClass]) e := by
    intro e he
    cases e with
    | construct name args =>
      refine List.forall_mem_append.2 ⟨he, List.forall_mem_singleton.2 fun _ => ?_⟩
      exact List.forall_mem_singleton.2 fun hstatements => by cases hstatements
    | _ => trivial
  have hstmt : ∀ st : Stmt, st.Everywhere (.quiet classes) →
      st.Everywhere (.quiet (classes ++ [consoleClass])) :=
    fun st hst => hst.mono (fun _ _ => trivial) hexpr
  refine ⟨?_, ?_⟩ <;> simp only [List.forall_mem_append, List.forall_mem_singleton]
  · refine ⟨fun cls hcls m hm st hst => hstmt st (h.methods cls hcls m hm st hst), ?_⟩
    simp [consoleClass, Method.statements]
  · refine ⟨fun cls hcls c hc st hst => hstmt st (h.constructors cls hcls c hc st hst), ?_⟩
    simp [consoleClass]

/-- If no body makes an object that could call a method, runs in which new objects call a method and
runs in which they do not have the same outcome. -/
theorem outcome_of_quiet {p : Program} (hp : p.Quiet) (budget : Nat) :
    p.outcome true budget = p.outcome false budget := by
  unfold Program.outcome Setup.ofProgram
  cases hctx : Context.ofProgram p with
  | error f => rfl
  | ok ctx =>
    have hquiet : Quiet ctx.classes ctx.classes := by
      rw [Context.classes_of_ofProgram hctx]
      exact hp.append_console
    show (Setup.start ⟨ctx, true⟩ budget).1 = (Setup.start ⟨ctx, false⟩ budget).1
    cases hentry : ctx.entry? with
    | none => rw [Setup.outcome_of_none hentry, Setup.outcome_of_none hentry]
    | some entry =>
      obtain ⟨cls, m⟩ := entry
      have hstart : (knownClasses ⟨ctx, true⟩).world .start := fun id i hi => by cases hi
      have htask : (knownClasses ⟨ctx, true⟩).task .start (.invoke .entry cls m none []) :=
        Setup.task_entry hentry
      rw [Setup.outcome_of_entry hentry, Setup.outcome_of_entry hentry,
        Task.Quiet.run_eq hquiet budget hstart htask (Task.quiet_invoke hquiet htask)]

namespace Note

/-- Writes the text of a note. -/
def showMethod : Method :=
  { name := "show"
    isShared := false
    isPrivate := false
    isVariadic := false
    params := []
    returns := []
    locals := []
    body := .statements [.call [] ⟨some "console", "write", [.var "text"]⟩] }

/-- Sets the text of a note. -/
def noteConstructor : Constructor := ⟨[⟨"string", "t"⟩], [], [.assign "text" (.var "t")]⟩

def note : Class :=
  ⟨"Note", [], [⟨⟨"string", "text"⟩, none, none⟩], [noteConstructor], [showMethod]⟩

/-- Makes a note with a text and shows it. -/
def startMethod : Method :=
  { name := "start"
    isShared := true
    isPrivate := false
    isVariadic := false
    params := []
    returns := []
    locals := [⟨"Note", "n"⟩]
    body := .statements
      [.assign "n" (.construct "Note" [.string "hello"]), .call [] ⟨some "n", "show", []⟩] }

def notes : Program := ⟨[note, ⟨"Main", [], [], [], [startMethod]⟩], []⟩

theorem show_quiet : ∀ st ∈ showMethod.statements, st.Everywhere (.quiet notes.classes) :=
  List.forall_mem_singleton.2
    (.intro trivial (List.forall_mem_singleton.2 (.leaf rfl trivial)) (List.forall_mem_nil _))

theorem noteConstructor_quiet : ∀ st ∈ noteConstructor.body, st.Everywhere (.quiet notes.classes) :=
  List.forall_mem_singleton.2
    (.intro trivial (List.forall_mem_singleton.2 (.leaf rfl trivial)) (List.forall_mem_nil _))

/-- A note is made with one argument, and its only method takes none. -/
theorem makesQuietly_note (text : String) :
    (Expr.construct "Note" [.string text]).MakesQuietly notes.classes := by
  refine List.forall_mem_cons.2 ⟨fun _ => ?_, List.forall_mem_singleton.2 fun hname => ?_⟩
  · exact List.forall_mem_singleton.2 fun _ => Nat.zero_ne_one
  · exact absurd hname (by decide)

theorem start_quiet : ∀ st ∈ startMethod.statements, st.Everywhere (.quiet notes.classes) := by
  have hmake : (Expr.construct "Note" [.string "hello"]).Everywhere
      (Expr.MakesQuietly notes.classes) :=
    .intro (makesQuietly_note "hello") (List.forall_mem_singleton.2 (.leaf rfl trivial))
  refine List.forall_mem_cons.2 ⟨?_, List.forall_mem_singleton.2 ?_⟩
  · exact .intro trivial (List.forall_mem_singleton.2 hmake) (List.forall_mem_nil _)
  · exact .intro trivial (List.forall_mem_nil _) (List.forall_mem_nil _)

theorem notes_quiet : notes.Quiet where
  methods := List.forall_mem_cons.2
    ⟨List.forall_mem_singleton.2 show_quiet,
      List.forall_mem_singleton.2 (List.forall_mem_singleton.2 start_quiet)⟩
  constructors := List.forall_mem_cons.2
    ⟨List.forall_mem_singleton.2 noteConstructor_quiet,
      List.forall_mem_singleton.2 (List.forall_mem_nil _)⟩

end Note

open Note in
theorem outcome_of_quiet_notes :
    notes.Quiet ∧ notes.outcome true 12 = .finished ["hello"] ∧
      notes.outcome true 12 = notes.outcome false 12 :=
  ⟨notes_quiet, rfl, outcome_of_quiet notes_quiet 12⟩

end Offside
