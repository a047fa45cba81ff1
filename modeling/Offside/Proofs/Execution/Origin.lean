import Offside.Proofs.Execution.Budget
import Offside.Proofs.Execution.Passage
import Offside.Proofs.Execution.Resolution

/-!
Where faults come from. A run is a tree of evaluations, each begun by the code of another
(`Setup.Begins`), and a fault that ends the run was raised by one of them: its own code came to the
fault (`Setup.exists_raises_of_failed`). Which faults that can be depends on the task alone
(`Task.MayRaise`), given that a method returns as many values as it declares.
-/
namespace Offside

variable {s : Setup} {n k : Nat} {α : Type} {t u : Task} {w w' : World} {e : Fault}

/-- The evaluation of the first task begins an evaluation of the second, here or further inside. The
numbers are the budgets that are left to them. -/
inductive Task.Begins (s : Setup) : Nat → Task → World → Nat → Task → World → Prop where
  | here {n : Nat} {t : Task} {w : World} : Begins s n t w n t w
  | inside {n k : Nat} {t u v : Task} {next : u.Answer → Code t.Answer} {ds : List Datum}
      {w w' w'' : World} : (t.code s).Reaches s n w ds (.task u next) w' →
      Begins s n u w' k v w'' → Begins s (n + 1) t w k v w''

/-- A run begins an evaluation of the task in this world, with this budget left. -/
def Setup.Begins (s : Setup) (budget k : Nat) (t : Task) (w : World) : Prop :=
  ∃ cls m, s.context.entry? = some (cls, m) ∧
    (Task.invoke .entry cls m none []).Begins s budget .start k t w

/-- A run comes to the fault in an evaluation of the task, by its own code and not inside another
evaluation that it asks for. -/
def Setup.Raises (s : Setup) (budget : Nat) (t : Task) (e : Fault) : Prop :=
  ∃ k ds w w', s.Begins budget (k + 1) t w ∧
    (t.code s).Reaches s k w ds (.halt (.fault e)) w'

/-- What an invariant asks of a task that begins holds wherever an evaluation begins. -/
theorem Task.Begins.good {J : Invariant s} (h : t.Begins s n w k u w') (hw : J.world w)
    (ht : J.task w t) : J.world w' ∧ J.task w' u := by
  induction h with
  | here => exact ⟨hw, ht⟩
  | inside hreach _ ih =>
    obtain ⟨hsafe, -, -⟩ := hreach.safe (J.safe_code hw ht)
    exact ih hsafe.1 hsafe.2.1

theorem Setup.Begins.good {J : Invariant s} {budget : Nat} (h : s.Begins budget k t w)
    (hstart : J.world .start) : J.world w ∧ J.task w t := by
  obtain ⟨cls, m, hentry, hbegins⟩ := h
  exact hbegins.good hstart (task_entry hentry)

/-- Code fails where it comes to a fault, or where a task that it asks for fails. -/
theorem Code.exists_of_fault {c : Code α} (h : c.run (Task.run s n) w = .error (.fault e) w') :
    (∃ ds, c.Reaches s n w ds (.halt (.fault e)) w') ∨
      ∃ ds u next w₁, c.Reaches s n w ds (.task u next) w₁ ∧
        u.run s n w₁ = .error (.fault e) w' := by
  induction c generalizing w with
  | done a => cases h
  | halt stop =>
    cases h
    exact .inl ⟨[], .here⟩
  | effect x next ih =>
    rcases ih _ (w := (x.apply w).2) h with ⟨ds, hreach⟩ | ⟨ds, u, next', w₁, hreach, hu⟩
    · exact .inl ⟨_, .effect hreach⟩
    · exact .inr ⟨_, u, next', w₁, .effect hreach, hu⟩
  | task t next ih =>
    cases hrun : t.run s n w with
    | ok a w₁ =>
      have hnext := (Machine.bind_ok hrun).symm.trans h
      rcases ih a hnext with ⟨ds, hreach⟩ | ⟨ds, u, next', w₂, hreach, hu⟩
      · exact .inl ⟨_, .task hrun hreach⟩
      · exact .inr ⟨_, u, next', w₂, .task hrun hreach, hu⟩
    | error stop w₁ =>
      cases (Machine.bind_error hrun).symm.trans h
      exact .inr ⟨[], t, next, w, .here, hrun⟩

/-- An evaluation that fails began one whose own code came to the fault. -/
theorem Task.exists_origin (h : t.run s n w = .error (.fault e) w') :
    ∃ k u ds w₁, t.Begins s n w (k + 1) u w₁ ∧
      (u.code s).Reaches s k w₁ ds (.halt (.fault e)) w' := by
  induction n generalizing t w with
  | zero =>
    rw [t.run_zero] at h
    cases h
  | succ n ih =>
    rw [t.run_succ] at h
    rcases Code.exists_of_fault h with ⟨ds, hreach⟩ | ⟨ds, u, next, w₁, hreach, hu⟩
    · exact ⟨n, t, ds, w, .here, hreach⟩
    · obtain ⟨k, v, ds', w₂, hbegins, hhalt⟩ := ih hu
      exact ⟨k, v, ds', w₂, .inside hreach hbegins, hhalt⟩

/-- A run that fails found no entry method, or one of its evaluations raised the fault. -/
theorem Setup.exists_raises_of_failed {budget : Nat} (h : (s.start budget).1 = .failed e) :
    e = .noEntryPoint ∨ ∃ t, s.Raises budget t e := by
  cases hentry : s.context.entry? with
  | none =>
    rw [outcome_of_none hentry] at h
    cases h
    exact .inl rfl
  | some entry =>
    obtain ⟨cls, m⟩ := entry
    rw [outcome_of_entry hentry] at h
    cases hrun : (Task.invoke .entry cls m none []).run s budget .start with
    | ok vs w =>
      rw [hrun] at h
      cases h
    | error stop w =>
      rw [hrun] at h
      cases stop with
      | exhausted => cases h
      | fault e' =>
        cases h
        obtain ⟨k, t, ds, w₁, hbegins, hreach⟩ := Task.exists_origin hrun
        exact .inr ⟨t, k, ds, w₁, w, ⟨cls, m, hentry, hbegins⟩, hreach⟩

namespace Task

/-- A method made of statements returns as many values as it declares. -/
def Counted : (t : Task) → t.Answer → Prop
  | invoke _ _ m _ _, vs => m.hasStatements = true → vs.length = m.returns.length
  | expr .., _ | call .., _ | construct .., _ | runConstructor .., _ | stmt .., _ | iterate .., _
  | repeatWhile .., _ => True

/-- The faults that an evaluation of the task can raise by itself. -/
def MayRaise : Task → Fault → Prop
  | expr .., .undefinedVariable _ | expr .., .unsupportedOperation .. | expr .., .noReturnValue _
  | call .., .undefinedVariable _ | call .., .notAnObject .. | call .., .unknownMethod ..
  | call .., .argumentCount .. | call .., .argumentTypes _
  | construct .., .undefinedClass _ | runConstructor .., .noConstructor .. => True
  | invoke _ _ m _ args, .argumentCount .. =>
    m.hasStatements = true ∧ m.params.length ≠ args.length
  | invoke .., .unassignedReturn .. => True
  | stmt .., .undefinedVariable _ | stmt .., .tooManyTargets .. | stmt .., .notIterable _
  | stmt .., .conditionNotBoolean _ | repeatWhile .., .conditionNotBoolean _ => True
  | iterate .., .brokenIterator _ (.flagType _) => True
  | iterate _ m .., .brokenIterator _ (.valueCount found) =>
    found ≠ 2 ∧ (m.hasStatements = true → found = m.returns.length)
  | _, _ => False

/-- What the code of the task keeps to: it may ask for anything and comes to the faults of the task
only, given that methods return as many values as they declare. -/
def raising (t : Task) : Contract := ⟨fun _ => True, Counted, t.MayRaise⟩

end Task

theorem forall₂_of_mapM_ok {ε α β : Type} {g : α → Except ε β} {l : List α} {bs : List β}
    (h : l.mapM g = .ok bs) : List.Forall₂ (fun a b => g a = .ok b) l bs := by
  induction l generalizing bs with
  | nil =>
    rw [List.mapM_nil] at h
    cases h
    exact .nil
  | cons a l ih =>
    rw [List.mapM_cons] at h
    cases ha : g a with
    | error e =>
      rw [ha] at h
      cases h
    | ok b =>
      rw [ha] at h
      cases hl : l.mapM g with
      | error e =>
        rw [hl] at h
        cases h
      | ok rest =>
        rw [hl] at h
        cases h
        exact .cons ha (ih hl)

theorem Task.counted_of_run {a : t.Answer} (h : t.run s n w = .ok a w') : t.Counted a := by
  cases t with
  | expr | call | construct | runConstructor | stmt | iterate | repeatWhile => trivial
  | invoke route cls m this args =>
    intro hstatements
    cases n with
    | zero =>
      rw [run_zero] at h
      cases h
    | succ n =>
      change Offside.invoke s (n + 1) route cls m this args w = _ at h
      rw [Offside.invoke] at h
      obtain ⟨-, w₁, -, h⟩ := Machine.exists_of_bind h
      cases hbody : m.body with
      | consoleWrite =>
        rw [Method.hasStatements, hbody] at hstatements
        cases hstatements
      | statements body =>
        rw [hbody] at h
        simp only at h
        split at h
        · obtain ⟨f, w₂, -, h⟩ := Machine.exists_of_bind h
          cases hresults : f.results m with
          | error e =>
            rw [hresults] at h
            cases h
          | ok vs =>
            rw [hresults] at h
            cases h
            exact (forall₂_of_mapM_ok hresults).length_eq.symm
        · cases h

namespace Contract

variable {C : Contract} {J : Invariant s} {f : Frame}

theorem meets_exprs (hC : ∀ t, C.requires t) (es : List Expr) :
    C.Meets J w (.exprs f es) fun _ => True :=
  .mapM es fun _ _ _ => (Meets.ask (hC _)).mono fun _ _ => trivial

theorem meets_stmts (hC : ∀ t, C.requires t) (body : List Stmt) :
    C.Meets J w (.stmts f body) fun _ => True :=
  .foldlM body trivial fun _ _ _ _ _ => (Meets.ask (hC _)).mono fun _ _ => trivial

theorem meets_store (name : String) (v : Value) (h : C.admits (.undefinedVariable name)) :
    C.Meets J w (.store f name v) fun _ => True := by
  refine .bind_heap ?_
  split
  · exact trivial
  · exact .fail h

theorem meets_storeItem (v : Value) (item : Option String) :
    C.Meets J w (.storeItem f v item) fun _ => True := by
  cases item with
  | none => exact trivial
  | some name => exact .bind_heap trivial

theorem meets_condition (v : Value) (h : ∀ name, C.admits (.conditionNotBoolean name)) :
    C.Meets J w (.condition v) fun _ => True := by
  unfold Code.condition
  split
  · exact trivial
  · exact .bind_heap (.fail (h _))

theorem meets_ask (hC : ∀ t, C.requires t) (t : Task) :
    C.Meets J w (.ask t) fun _ => True := (Meets.ask (hC t)).mono fun _ _ => trivial

theorem meets_operation (hC : ∀ t, C.requires t) (l r : Expr)
    {op : Heap → Value → Value → Except Fault Value}
    (hop : ∀ h a b e, op h a b = .error e → C.admits e) :
    C.Meets J w (.operation f l r op) fun _ => True := by
  refine (meets_ask hC (.expr f l)).bind fun a w₁ _ => ?_
  refine (meets_ask hC (.expr f r)).bind fun b w₂ _ => .bind_heap ?_
  exact .ofExcept (fun _ _ => trivial) fun e he => hop _ a b e he

/-- Code that meets a contract does so from each of its points on, as long as the answers that it
gets are as ensured. -/
theorem Meets.of_reaches {c c' : Code α} {ds : List Datum} {Q : α → Prop} {R : α → World → Prop}
    (hn : ∀ (t : Task) {w w' a}, t.run s n w = .ok a w' → C.ensures t a)
    (h : c.Reaches s n w ds c' w') (hsafe : J.Safe w c R) (hc : C.Meets J w c Q) :
    C.Meets J w' c' Q := by
  induction h with
  | here => exact hc
  | effect _ ih => exact ih hsafe.2.2.2 hc
  | @task t a next c w w₁ w' ds hrun _ ih =>
    obtain ⟨hw, ht, hnext⟩ := hsafe
    have hkeeps := J.sound n t w hw ht
    have hw₁ := hkeeps.world
    have hl := hkeeps.later
    rw [Machine.final_ok hrun] at hw₁ hl
    have ha := hkeeps.result hrun
    exact ih (hnext a w₁ hw₁ hl ha) (hc.2 a w₁ hw₁ hl ha (hn t hrun))

end Contract

theorem LogicOp.eq_unsupported {op : LogicOp} {h : Heap} {a b : Value}
    (he : op.apply h a b = .error e) : ∃ l r, e = unsupported h op.symbol l r := by
  unfold LogicOp.apply at he
  split at he <;> cases he
  exact ⟨_, _, rfl⟩

theorem CompareOp.eq_unsupported {op : CompareOp} {h : Heap} {a b : Value}
    (he : op.apply h a b = .error e) : ∃ l r, e = unsupported h op.symbol l r := by
  unfold CompareOp.apply at he
  split at he <;> cases he
  exact ⟨_, _, rfl⟩

theorem ArithOp.eq_unsupported {op : ArithOp} {h : Heap} {a b : Value}
    (he : op.apply h a b = .error e) : ∃ l r, e = unsupported h op.symbol l r := by
  unfold ArithOp.apply at he
  split at he <;> cases he
  exact ⟨_, _, rfl⟩

namespace Task

variable {J : Invariant s} {f : Frame} {cls : Class} {m : Method} {id : ObjectId}
  {item : Option String} {body : List Stmt}

theorem mayRaise_of_receiver {c : Call} {h : Heap} {receiver : Option String}
    (he : f.receiver s.context h receiver = .error e) : (call f c).MayRaise e := by
  unfold Frame.receiver at he
  split at he
  · cases he
  · split at he
    · split at he <;> cases he
      trivial
    · split at he <;> cases he
      trivial

theorem mayRaise_of_resolve {c : Call} {standing : Standing} {name : String} {args : List Value}
    (he : cls.resolve standing name args = .error e) : (call f c).MayRaise e := by
  have hresolves := Class.resolve_eq_iff.1 he
  cases e with
  | unknownMethod | argumentCount | argumentTypes => trivial
  | _ => exact hresolves.elim

theorem meets_ofExpr (e : Expr) :
    (expr f e).raising.Meets J w (.ofExpr f e) fun _ => True := by
  cases e with
  | boolean | number | string | character => exact .pure trivial
  | var name =>
    refine .bind_heap ?_
    split
    · exact .pure trivial
    · exact .fail trivial
  | logic op l r =>
    refine Contract.meets_operation (fun _ => trivial) l r fun h a b e he => ?_
    obtain ⟨_, _, rfl⟩ := LogicOp.eq_unsupported he
    trivial
  | compare op l r =>
    refine Contract.meets_operation (fun _ => trivial) l r fun h a b e he => ?_
    obtain ⟨_, _, rfl⟩ := CompareOp.eq_unsupported he
    trivial
  | arith op l r =>
    refine Contract.meets_operation (fun _ => trivial) l r fun h a b e he => ?_
    obtain ⟨_, _, rfl⟩ := ArithOp.eq_unsupported he
    trivial
  | call receiver method args =>
    refine (Contract.meets_ask (fun _ => trivial) (.call f ⟨receiver, method, args⟩)).bind
      fun vs w₁ _ => ?_
    split
    · exact .pure trivial
    · exact .fail trivial
  | construct name args => exact Contract.meets_ask (fun _ => trivial) (.construct f name args)

theorem meets_ofCall (c : Call) :
    (call f c).raising.Meets J w (.ofCall s f c) fun _ => True := by
  refine (Contract.meets_exprs (fun _ => trivial) c.args).bind fun args w₁ _ => .bind_heap ?_
  refine .bind_ofExcept (fun found _ => ?_) fun e he => mayRaise_of_receiver he
  refine .bind_ofExcept (fun m _ => ?_) fun e he => mayRaise_of_resolve he
  exact Contract.meets_ask (fun _ => trivial) _

theorem meets_ofInvoke {route : Route} {this : Option ObjectId} {args : List Value} :
    (invoke route cls m this args).raising.Meets J w (.ofInvoke route cls m this args)
      fun _ => True := by
  refine (Contract.Meets.record _).bind fun _ w₁ _ => ?_
  split
  · exact (Contract.Meets.writeLine args).bind fun _ _ _ => .pure trivial
  · rename_i body hbody
    split
    · refine (Contract.meets_stmts (fun _ => trivial) body).bind fun f' w₂ _ => ?_
      refine .ofExcept (fun _ _ => trivial) fun e he => ?_
      obtain ⟨d, -, hd⟩ := exists_of_mapM_error he
      split at hd <;> cases hd
      trivial
    · rename_i hlength
      exact .fail ⟨by rw [Method.hasStatements, hbody], hlength⟩

theorem meets_ofConstruct {name : String} {es : List Expr} :
    (construct f name es).raising.Meets J w (.ofConstruct s f name es) fun _ => True := by
  unfold Code.ofConstruct
  split
  · exact .fail trivial
  · rename_i cls _
    refine .bind_heap ((Contract.Meets.allocate _).bind fun id w₁ _ => ?_)
    refine (Contract.meets_exprs (fun _ => trivial) es).bind fun vs w₂ _ => ?_
    refine (Contract.meets_ask (fun _ => trivial) (.runConstructor f cls id vs)).bind
      fun _ w₃ _ => ?_
    split
    · split
      · exact (Contract.meets_ask (fun _ => trivial) (.invoke _ cls _ (some id) vs)).bind
          fun _ _ _ => .pure trivial
      · exact .pure trivial
    · exact .pure trivial

theorem meets_ofRunConstructor {args : List Value} :
    (runConstructor f cls id args).raising.Meets J w (.ofRunConstructor f cls id args)
      fun _ => True := by
  unfold Code.ofRunConstructor
  split
  · exact .pure trivial
  · split
    · exact .fail trivial
    · refine (Contract.Meets.record _).bind fun _ w₁ _ => ?_
      exact (Contract.meets_stmts (fun _ => trivial) _).bind fun _ _ _ => .pure trivial

theorem meets_ofStmt (st : Stmt) : (stmt f st).raising.Meets J w (.ofStmt f st) fun _ => True := by
  have hany : ∀ t, (stmt f st).raising.requires t := fun _ => trivial
  cases st with
  | assign target value =>
    refine (Contract.meets_ask hany (.expr f value)).bind fun v w₁ _ => ?_
    exact Contract.meets_store target v trivial
  | call targets c =>
    refine (Contract.meets_ask hany (.call f c)).bind fun vs w₁ _ => ?_
    split
    · exact .fail trivial
    · exact .foldlM _ trivial fun x _ _ _ _ => Contract.meets_store x.1 x.2 trivial
  | loop item source body =>
    refine (Contract.meets_ask hany (.expr f source)).bind fun v w₁ _ => ?_
    split
    · exact Contract.meets_ask hany (.repeatWhile source item body v f)
    · refine .bind_heap ?_
      split
      · exact .fail trivial
      · split
        · exact .fail trivial
        · exact Contract.meets_ask hany (.iterate _ _ _ item body f)
    · exact .bind_heap (.fail trivial)
  | branch condition thenBody elseBody =>
    refine (Contract.meets_ask hany (.expr f condition)).bind fun v w₁ _ => ?_
    refine (Contract.meets_condition v fun _ => trivial).bind fun b w₂ _ => ?_
    split
    · exact Contract.meets_stmts hany thenBody
    · exact Contract.meets_stmts hany (elseBody.getD [])

/-- A loop complains about the count of values only if the method of its iterator does not return
two, which it declared if it is made of statements. -/
theorem meets_ofIterate :
    (iterate cls m id item body f).raising.Meets J w (.ofIterate cls m id item body f)
      fun _ => True := by
  have hany : ∀ t, (iterate cls m id item body f).raising.requires t := fun _ => trivial
  have hinvoke : (iterate cls m id item body f).raising.Meets J w
      (.invoke (.iterator f.cls) cls m (some id) [])
      fun vs => m.hasStatements = true → vs.length = m.returns.length := .ask trivial
  refine hinvoke.bind fun vs w₁ hcount => ?_
  split
  · split
    · exact .pure trivial
    · refine (Contract.meets_storeItem _ item).bind fun f₂ w₂ _ => ?_
      refine (Contract.meets_stmts hany body).bind fun f₃ w₃ _ => ?_
      exact Contract.meets_ask hany (.iterate cls m id item body f₃)
    · exact .bind_heap (.fail trivial)
  · rename_i hne
    refine .fail ⟨fun htwo => ?_, hcount⟩
    obtain ⟨flag, v, rfl⟩ := List.length_eq_two.1 htwo
    exact hne flag v rfl

theorem meets_ofRepeatWhile {source : Expr} {v : Value} :
    (repeatWhile source item body v f).raising.Meets J w (.ofRepeatWhile source item body v f)
      fun _ => True := by
  have hany : ∀ t, (repeatWhile source item body v f).raising.requires t := fun _ => trivial
  refine (Contract.meets_condition v fun _ => trivial).bind fun b w₁ _ => ?_
  split
  · refine (Contract.meets_storeItem v item).bind fun f₂ w₂ _ => ?_
    refine (Contract.meets_stmts hany body).bind fun f₃ w₃ _ => ?_
    refine (Contract.meets_ask hany (.expr f₃ source)).bind fun v' w₄ _ => ?_
    exact Contract.meets_ask hany (.repeatWhile source item body v' f₃)
  · exact .pure trivial

theorem meets_code (s : Setup) (J : Invariant s) (t : Task) (w : World) :
    t.raising.Meets J w (t.code s) fun _ => True := by
  cases t with
  | expr f e => exact meets_ofExpr e
  | call f c => exact meets_ofCall c
  | invoke => exact meets_ofInvoke
  | construct => exact meets_ofConstruct
  | runConstructor => exact meets_ofRunConstructor
  | stmt f st => exact meets_ofStmt st
  | iterate => exact meets_ofIterate
  | repeatWhile => exact meets_ofRepeatWhile

end Task

/-- What an evaluation of a task raises is one of the faults of the task. -/
theorem Setup.Raises.mayRaise {budget : Nat} (h : s.Raises budget t e) : t.MayRaise e := by
  obtain ⟨k, ds, w, w', hbegins, hreach⟩ := h
  have hstart : (lawfulJournal s).world .start := fun e he => absurd he List.not_mem_nil
  obtain ⟨hw, ht⟩ := hbegins.good hstart
  have hhalt := Contract.Meets.of_reaches (fun _ => Task.counted_of_run) hreach
    ((lawfulJournal s).safe_code hw ht) (t.meets_code s (lawfulJournal s) w)
  exact hhalt e rfl

end Offside
