import Offside.Proofs.Grammar.Composition
import Offside.Proofs.Grammar.Refusal
import Offside.Proofs.Grammar.Shape

/-!
Lines that assign an expression. The choice between an assignment and a call statement is made by
the first two tokens of the expression, a name and a parenthesis or not, before its end is seen. So
every expression may be assigned, except one that begins with a call without receiver and goes on
behind it: such a line is refused at the operator that follows the call.
-/
namespace Offside

/-- Whether an expression joins two others. -/
def Expr.isOperation : Expr → Bool
  | logic .. | compare .. | arith .. => true
  | _ => false

namespace Call

theorem isOperation_toExpr (c : Call) : c.toExpr.isOperation = false := rfl

theorem eq_of_toExpr {c c' : Call} (h : c.toExpr = c'.toExpr) : c = c' := by
  cases c
  cases c'
  cases h
  rfl

end Call

namespace Grammar

open Rule

/-- Whether a token of the kind joins two operands. -/
def isOperator (k : Kind) : Bool :=
  (arithOp? k).isSome || (compareOp? k).isSome || (logicOp? k).isSome

/-- What is read behind a first operand: nothing more, or an operator with what follows it. -/
def Continues (first : Expr) (mid : List Token) (e : Expr) (rest : List Token) : Prop :=
  e = first ∧ rest = mid ∨
    e.isOperation = true ∧ ∃ t more, mid = t :: more ∧ isOperator t.kind = true

theorem Continues.trans {a b c : Expr} {ts us rest : List Token} (h₁ : Continues a ts b us)
    (h₂ : Continues b us c rest) : Continues a ts c rest := by
  rcases h₁ with ⟨rfl, rfl⟩ | ⟨hb, hoperator⟩
  · exact h₂
  · refine .inr ⟨?_, hoperator⟩
    rcases h₂ with ⟨rfl, -⟩ | ⟨hc, -⟩
    · exact hb
    · exact hc

theorem exists_of_operator {ω : Type} {op : Kind → Option ω} {ts : List Token} {o : ω}
    (hop : ∀ k o, op k = some o → isOperator k = true) (h : (headKind ts).bind op = some o) :
    ∃ t more, ts = t :: more ∧ isOperator t.kind = true := by
  obtain ⟨k, hk, ho⟩ := Option.bind_eq_some_iff.1 h
  obtain ⟨t, more, rfl, rfl⟩ := exists_cons_of_headKind hk
  exact ⟨t, more, rfl, hop _ o ho⟩

/-- A chain is its first operand, or it goes on with an operator. -/
theorem continues_of_chain {ω : Type} {op : Kind → Option ω} {join : ω → Expr → Expr → Expr}
    {p : Rule Expr} (hp : Advances p) (hop : ∀ k o, op k = some o → isOperator k = true)
    (hjoin : ∀ o l r, (join o l r).isOperation = true) {ts rest : List Token} {e : Expr}
    (h : chain op join p ts = .ok (e, rest)) :
    ∃ first mid, p ts = .ok (first, mid) ∧ Continues first mid e rest := by
  obtain ⟨first, mid, hfirst, h⟩ := bind_eq_ok.1 h
  obtain ⟨steps, left, hsteps, h⟩ := bind_eq_ok.1 h
  cases h
  refine ⟨first, mid, hfirst, ?_⟩
  rw [operations_eq hp, peekKind_head_bind] at hsteps
  cases ho : (headKind mid).bind op with
  | none =>
    rw [ho] at hsteps
    cases hsteps
    exact .inl ⟨rfl, rfl⟩
  | some o =>
    refine .inr ⟨?_, exists_of_operator hop ho⟩
    rw [ho] at hsteps
    obtain ⟨_, _, _, hsteps⟩ := bind_eq_ok.1 hsteps
    obtain ⟨second, _, _, hsteps⟩ := bind_eq_ok.1 hsteps
    obtain ⟨more, _, _, hsteps⟩ := bind_eq_ok.1 hsteps
    cases hsteps
    rcases List.eq_nil_or_concat more with rfl | ⟨init, last, rfl⟩
    · exact hjoin ..
    · rw [List.concat_eq_append, ← List.cons_append, List.foldl_append]
      exact hjoin ..

theorem continues_of_comparison {ts rest : List Token} {e : Expr}
    (h : comparison expr ts = .ok (e, rest)) :
    ∃ left mid, arithmetic expr ts = .ok (left, mid) ∧ Continues left mid e rest := by
  obtain ⟨left, mid, hleft, h⟩ := bind_eq_ok.1 h
  refine ⟨left, mid, hleft, ?_⟩
  rw [peekKind_head_bind] at h
  cases ho : (headKind mid).bind compareOp? with
  | none =>
    rw [ho] at h
    cases h
    exact .inl ⟨rfl, rfl⟩
  | some o =>
    refine .inr ⟨?_, exists_of_operator (fun k o h => by simp [isOperator, h]) ho⟩
    rw [ho] at h
    obtain ⟨_, _, _, h⟩ := bind_eq_ok.1 h
    obtain ⟨right, _, _, h⟩ := bind_eq_ok.1 h
    cases h
    rfl

/-- An expression is its first operand, or it goes on with an operator. -/
theorem continues_of_expr {ts rest : List Token} {e : Expr} (h : expr ts = .ok (e, rest)) :
    ∃ first mid, operand expr ts = .ok (first, mid) ∧ Continues first mid e rest := by
  have hexpr := expr_advances.leaves
  rw [expr_eq] at h
  obtain ⟨e₁, us, h₁, hlogic⟩ := continues_of_chain (comparison_advances hexpr)
    (fun k o h => by simp [isOperator, h]) (fun _ _ _ => rfl) h
  obtain ⟨e₂, vs, h₂, hcompare⟩ := continues_of_comparison h₁
  obtain ⟨first, mid, hfirst, harith⟩ := continues_of_chain (operand_advances hexpr)
    (fun k o h => by simp [isOperator, h]) (fun _ _ _ => rfl) h₂
  exact ⟨first, mid, hfirst, harith.trans (hcompare.trans hlogic)⟩

/-- The tokens begin like a call without receiver. -/
def StartsCall (ts : List Token) : Prop :=
  headKind ts = some .word ∧ ts[1]?.map Token.kind = some .lparen

theorem operand_of_startsCall {ts : List Token} (hts : StartsCall ts) :
    operand expr ts = (call expr >>= fun c => pure c.toExpr : Rule Expr) ts := by
  have hne : headKind ts ≠ some .lparen := by
    rw [hts.1]
    decide
  have hatom : operand expr ts = atom expr ts := accept_bind_of_ne hne _
  rw [hatom, atom, peekKind_head_bind, peekKind_bind, hts.1, hts.2]

/-- An expression that begins like a call is the call, or goes on behind the call with an
operator. -/
theorem continues_of_startsCall {ts rest : List Token} {e : Expr} (hts : StartsCall ts)
    (h : expr ts = .ok (e, rest)) :
    ∃ c mid, call expr ts = .ok (c, mid) ∧ c.receiver = none ∧ Continues c.toExpr mid e rest := by
  obtain ⟨first, mid, hfirst, hgo⟩ := continues_of_expr h
  rw [operand_of_startsCall hts] at hfirst
  obtain ⟨c, left, hcall, hdone⟩ := bind_eq_ok.1 hfirst
  cases hdone
  exact ⟨c, mid, hcall, call_receiver hts.2 hcall, hgo⟩

/-- The end of a body, with what is left behind it: line breaks, and then a dedent or the end of the
input. -/
inductive BodyEnd : List Token → List Token → Prop where
  | input : BodyEnd [] []
  | dedent {t : Token} (rest : List Token) : t.kind = .dedent → BodyEnd (t :: rest) rest
  | newline {t : Token} {ts rest : List Token} : t.kind = .newline → BodyEnd ts rest →
      BodyEnd (t :: ts) rest

namespace BodyEnd

variable {tail rest : List Token}

theorem closing (h : BodyEnd tail rest) : headKind tail ∈ closingKinds := by
  cases h with
  | input => decide
  | dedent rest ht | newline ht h =>
    rw [headKind_cons, ht]
    decide

theorem exists_skipNewlines (h : BodyEnd tail rest) :
    ∃ left, skipNewlines tail = .ok ((), left) ∧ BodyEnd left rest := by
  induction h with
  | input => exact ⟨[], rfl, .input⟩
  | @dedent t rest ht =>
    exact ⟨t :: rest, skipNewlines_eq_ok.2 ⟨by simp [ht], [], rfl, by simp⟩, .dedent rest ht⟩
  | @newline t ts rest ht h ih =>
    obtain ⟨left, hskip, hleft⟩ := ih
    obtain ⟨hhead, breaks, rfl, hbreaks⟩ := skipNewlines_eq_ok.1 hskip
    refine ⟨left, skipNewlines_eq_ok.2 ⟨hhead, t :: breaks, rfl, ?_⟩, hleft⟩
    exact List.forall_mem_cons.2 ⟨ht, hbreaks⟩

theorem exists_lineEnd (h : BodyEnd tail rest) :
    ∃ left, lineEnd tail = .ok ((), left) ∧ BodyEnd left rest := by
  cases h with
  | input => exact ⟨[], rfl, .input⟩
  | dedent rest ht =>
    refine ⟨_, lineEnd_eq_ok.2 (.inr ⟨rfl, .inr ?_⟩), .dedent rest ht⟩
    exact congrArg some ht
  | newline ht h =>
    obtain ⟨left, hskip, hleft⟩ := (newline ht h).exists_skipNewlines
    exact ⟨left, lineEnd_eq_ok.2 (.inl ⟨congrArg some ht, hskip⟩), hleft⟩

/-- A body that is at its end has no more lines. -/
theorem lines_eq_nil {α : Type} {item : Rule α} (hitem : Advances item) (h : BodyEnd tail rest) :
    lines item tail = .ok ([], rest) := by
  obtain ⟨left, hskip, hleft⟩ := h.exists_skipNewlines
  rw [lines_eq hitem, bind_of_ok hskip]
  have hhead := (skipNewlines_eq_ok.1 hskip).1
  cases hleft with
  | input => rfl
  | dedent rest ht => exact blockEnd_bind_of_eq ht _ _
  | newline ht _ => exact absurd (congrArg some ht) hhead

end BodyEnd

/-- What is read of a line is read also if the line ends later. -/
theorem append_of_enters {α : Type} {p : Rule α} (hp : ∀ L, Carries L (true, 0) p (true, 0))
    (hleaves : LeavesSuffix p) {ts rest tail : List Token} {a : α} (h : p ts = .ok (a, rest))
    (htail : headKind tail ∈ closingKinds) : p (ts ++ tail) = .ok (a, rest ++ tail) := by
  obtain ⟨used, rfl⟩ := hleaves _ _ _ h
  rw [List.append_assoc]
  refine exchange_of_enters hp h ?_
  cases rest with
  | nil => exact .inr htail
  | cons t rest => exact .inl rfl

section Line

variable {x a : Token} {value tail left : List Token} {e : Expr} {c : Call}

theorem startsCall_append (hvalue : value ≠ []) (htail : headKind tail ∈ closingKinds) :
    StartsCall (value ++ tail) ↔ StartsCall value := by
  obtain ⟨t, more, rfl⟩ := List.exists_cons_of_ne_nil hvalue
  cases more with
  | cons u more => exact Iff.rfl
  | nil =>
    refine ⟨fun h => ?_, fun h => by cases h.2⟩
    have hparen : headKind tail = some .lparen := h.2
    rw [hparen] at htail
    exact absurd htail (by decide)

theorem value_ne_nil (hvalue : expr value = .ok (e, [])) : value ≠ [] := by
  rintro rfl
  exact absurd (expr_advances _ _ _ hvalue).2 (by simp)

theorem stmt_of_value (hx : x.kind = .word) (ha : a.kind = .assign)
    (hvalue : expr value = .ok (e, [])) (hstart : ¬ StartsCall value)
    (htail : headKind tail ∈ closingKinds) (hend : lineEnd tail = .ok ((), left)) :
    stmt (x :: a :: (value ++ tail)) = .ok (.assign x.content e, left) := by
  have hassigned : stmt (x :: a :: (value ++ tail)) = assignment (x :: a :: (value ++ tail)) :=
    stmt_of_assigned (congrArg some hx) (congrArg some ha)
      (mt (startsCall_append (value_ne_nil hvalue) htail).1 hstart)
  have hequal : expect .assign "'='" (a :: (value ++ tail)) = .ok (a, value ++ tail) := by
    simp [expect, ha]
  have hread := append_of_enters (fun L => expr_carries true 0) expr_advances.leaves hvalue htail
  rw [hassigned, assignment, word_bind_of_eq hx, bind_of_ok hequal, bind_of_ok hread]
  exact bind_of_ok hend _

/-- Behind the assignment mark, a name and a parenthesis begin a call statement. -/
theorem stmt_of_startsCall (hx : x.kind = .word) (ha : a.kind = .assign) {mid : List Token}
    (hstart : StartsCall value) (hcall : call expr value = .ok (c, mid))
    (htail : headKind tail ∈ closingKinds) :
    stmt (x :: a :: (value ++ tail)) =
      (lineEnd >>= fun _ => pure (.call [x.content] c) : Rule Stmt) (mid ++ tail) := by
  have hne : value ≠ [] := by
    rintro rfl
    cases hstart.1
  have hstart' := (startsCall_append hne htail).2 hstart
  have hcalled : stmt (x :: a :: (value ++ tail)) = callStatement (x :: a :: (value ++ tail)) :=
    stmt_of_assignedCall (congrArg some hx) (congrArg some ha) hstart'.1 hstart'.2
  have hread := append_of_enters (fun L => call_carries expr_carries true 0)
    (call_advances expr_advances.leaves).leaves hcall htail
  rw [hcalled, callStatement, bind_of_ok (targets_of_assign hx ha _), bind_of_ok hread]

theorem bodyLine_of_assign (ha : a.kind = .assign) (ts : List Token) :
    bodyLine (x :: a :: ts) = (stmt >>= fun s => pure (.statement s) : Rule BodyLine)
      (x :: a :: ts) := by
  rw [bodyLine, startsWith_bind]
  simp [ha]

end Line

section Enclosing

/-- The first line of a method, without its end. -/
def methodHead : Rule ((Bool × Bool) × Signature) := do
  let mods ← modifiers
  let name ← word "method name"
  let params ← parameters
  let returns ← returns
  return (mods, ⟨name, params, returns⟩)

/-- The method with this first line and the lines of this body. -/
def methodOf (head : (Bool × Bool) × Signature) (body : List BodyLine) : Method :=
  ⟨head.2.name, head.1.1, head.1.2, false, head.2.params, head.2.returns, BodyLine.locals body,
    .statements (BodyLine.statements body)⟩

/-- The tokens of a class with one method, which has these tokens for its first line and for its
body. -/
def soleMethod (name : Token) (head body : List Token) : List Token :=
  Kind.keyClass.token :: name :: Kind.newline.token :: Kind.indent.token ::
    (head ++ Kind.newline.token :: Kind.indent.token :: body)

variable {ts body rest : List Token} {head : (Bool × Bool) × Signature}

theorem bind_eq_of_eq {α β : Type} {p q : Rule α} {ts us : List Token} (h : p ts = q us)
    (f : α → Rule β) : (p >>= f) ts = (q >>= f) us := by
  rw [bind_apply, bind_apply, h]

theorem lineEnd_newline_indent (ts : List Token) :
    lineEnd (Kind.newline.token :: Kind.indent.token :: ts) =
      .ok ((), Kind.indent.token :: ts) := rfl

theorem method_of_head
    (h : methodHead ts = .ok (head, Kind.newline.token :: Kind.indent.token :: body)) :
    method ts = (lines bodyLine >>= fun ls => pure (methodOf head ls) : Rule Method) body := by
  obtain ⟨⟨isShared, isPrivate⟩, us, hmods, h⟩ := bind_eq_ok.1 h
  obtain ⟨name, vs, hname, h⟩ := bind_eq_ok.1 h
  obtain ⟨params, ws, hparams, h⟩ := bind_eq_ok.1 h
  obtain ⟨results, left, hreturns, h⟩ := bind_eq_ok.1 h
  cases h
  rw [method, bind_of_ok hmods]
  simp only
  rw [bind_of_ok hname, bind_of_ok hparams, bind_of_ok hreturns,
    bind_of_ok (lineEnd_newline_indent body), bind_assoc]
  exact accept_bind_of_eq (Kind.kind_token .indent) _ _

/-- The first line of a method begins with a modifier, or with a name before its parameters. -/
theorem methodHead_start (h : methodHead ts = .ok (head, rest)) :
    headKind ts = some .keyShared ∨ headKind ts = some .keyPrivate ∨ StartsCall ts := by
  obtain ⟨mods, us, hmods, h⟩ := bind_eq_ok.1 h
  obtain ⟨name, vs, hname, h⟩ := bind_eq_ok.1 h
  obtain ⟨params, ws, hparams, -⟩ := bind_eq_ok.1 h
  by_cases hshared : headKind ts = some .keyShared
  · exact .inl hshared
  by_cases hprivate : headKind ts = some .keyPrivate
  · exact .inr (.inl hprivate)
  have hnone : modifiers ts = .ok ((false, false), ts) := by
    rw [modifiers_eq, peekKind_head_bind]
    generalize headKind ts = first at hshared hprivate
    rcases first with _ | kind
    · rfl
    · cases kind <;> first | rfl | exact absurd rfl hshared | exact absurd rfl hprivate
  cases hnone.symm.trans hmods
  obtain ⟨t, rfl, ht, -⟩ := word_eq_ok.1 hname
  obtain ⟨u, _, hu, -⟩ := bind_eq_ok.1 hparams
  obtain ⟨rfl, hkind⟩ := expect_eq_ok.1 hu
  exact .inr (.inr ⟨congrArg some ht, congrArg some hkind⟩)

theorem feature_of_head (h : methodHead ts = .ok (head, rest)) :
    feature ts = (method >>= fun m => pure (.method m) : Rule Feature) ts := by
  rw [feature, peekKind_head_bind, peekKind_bind]
  rcases methodHead_start h with hfirst | hfirst | ⟨hfirst, hsecond⟩
  · rw [hfirst]
  · rw [hfirst]
  · rw [hfirst, hsecond]

theorem lines_feature_of_head
    (h : methodHead ts = .ok (head, Kind.newline.token :: Kind.indent.token :: body)) :
    lines feature ts = (do
      let ls ← lines bodyLine
      let fs ← lines feature
      return .method (methodOf head ls) :: fs : Rule (List Feature)) body := by
  have hstart := methodHead_start h
  have hkind : headKind ts ≠ some .newline ∧ headKind ts ≠ some .dedent ∧ headKind ts ≠ none := by
    rcases hstart with hfirst | hfirst | ⟨hfirst, -⟩ <;> rw [hfirst] <;> decide
  obtain ⟨hnewline, hdedent, hnone⟩ := hkind
  obtain ⟨kind, hfirst⟩ := Option.ne_none_iff_exists'.1 hnone
  obtain ⟨t, more, rfl, rfl⟩ := exists_cons_of_headKind hfirst
  have hskip : skipNewlines (t :: more) = .ok ((), t :: more) :=
    skipNewlines_eq_ok.2 ⟨hnewline, [], rfl, by simp⟩
  have hdedent : t.kind ≠ .dedent := fun heq => hdedent (congrArg some heq)
  conv => lhs; rw [lines_eq feature_advances]
  rw [bind_of_ok hskip, blockEnd_bind_of_ne hdedent]
  refine (bind_eq_of_eq (feature_of_head h) _).trans ?_
  rw [bind_assoc]
  refine (bind_eq_of_eq (method_of_head h) _).trans ?_
  rw [bind_assoc]
  rfl

theorem classBody_of_lines {name : Token} (hname : name.kind = .word) (ts : List Token) :
    classBody (name :: Kind.newline.token :: Kind.indent.token :: ts) = (do
      let fs ← lines feature
      return ⟨name.content, [], Feature.members fs, Feature.constructors fs,
        Feature.methods fs⟩ : Rule Class) ts := by
  have hplain : headKind (Kind.newline.token :: Kind.indent.token :: ts) ≠ some .keyImplements := by
    rw [headKind_cons, Kind.kind_token]
    decide
  rw [classBody, word_bind_of_eq hname, bind_assoc]
  refine (accept_bind_of_ne hplain _).trans ?_
  refine (bind_of_ok (pure_apply [] _) _).trans ?_
  refine (bind_of_ok (lineEnd_newline_indent ts) _).trans ?_
  rw [bind_assoc]
  exact accept_bind_of_eq (Kind.kind_token .indent) _ _

/-- A class with one method is read as its body is. -/
theorem topLevel_soleMethod {name : Token} {first : List Token} (hname : name.kind = .word)
    (h : methodHead (first ++ Kind.newline.token :: Kind.indent.token :: body) =
      .ok (head, Kind.newline.token :: Kind.indent.token :: body)) :
    topLevel (soleMethod name first body) = (do
      let ls ← lines bodyLine
      let fs ← lines feature
      let ds ← topLevel
      return .cls ⟨name.content, [], Feature.members (.method (methodOf head ls) :: fs),
        Feature.constructors (.method (methodOf head ls) :: fs),
        Feature.methods (.method (methodOf head ls) :: fs)⟩ :: ds : Rule (List TopLevel)) body := by
  have hclass := (classBody_of_lines hname _).trans
    (bind_eq_of_eq (lines_feature_of_head h) _)
  rw [soleMethod, topLevel_declared (.inl rfl)]
  rw [declared, if_pos (Kind.kind_token .keyClass), bind_assoc]
  refine (bind_eq_of_eq hclass _).trans ?_
  simp only [bind_assoc]
  rfl

section

variable {name : Token} {first : List Token} (hname : name.kind = .word)
  (h : methodHead (first ++ Kind.newline.token :: Kind.indent.token :: body) =
    .ok (head, Kind.newline.token :: Kind.indent.token :: body))
include hname h

theorem ofTokens_soleMethod {ls : List BodyLine} (hbody : lines bodyLine body = .ok (ls, rest))
    (hrest : BodyEnd rest []) :
    Program.ofTokens (soleMethod name first body) =
      .ok ⟨[⟨name.content, [], [], [], [methodOf head ls]⟩], []⟩ := by
  have htop : topLevel (soleMethod name first body) =
      .ok ([.cls ⟨name.content, [], [], [], [methodOf head ls]⟩], []) := by
    rw [topLevel_soleMethod hname h, bind_of_ok hbody,
      bind_of_ok (hrest.lines_eq_nil feature_advances)]
    rfl
  rw [Program.ofTokens, program_of_topLevel htop]
  rfl

theorem ofTokens_soleMethod_error {r : Refusal} (hbody : lines bodyLine body = .error r) :
    Program.ofTokens (soleMethod name first body) =
      .error (r.toError (soleMethod name first body)) := by
  have htop : topLevel (soleMethod name first body) = .error r := by
    rw [topLevel_soleMethod hname h, bind_of_error hbody]
  have hprogram : program (soleMethod name first body) = .error r := bind_of_error htop _
  rw [Program.ofTokens, hprogram]

end

end Enclosing

/-- A body with no other line is this statement; and a class whose one method has such a body is a
program. -/
structure IsSoleLine (line : List Token) (s : Stmt) : Prop where
  body : ∀ {tail rest : List Token}, BodyEnd tail rest →
    lines bodyLine (line ++ tail) = .ok ([.statement s], rest)
  program : ∀ {name : Token} {first tail rest : List Token} {head : (Bool × Bool) × Signature},
    name.kind = .word →
    methodHead (first ++ Kind.newline.token :: Kind.indent.token :: (line ++ tail)) =
      .ok (head, Kind.newline.token :: Kind.indent.token :: (line ++ tail)) →
    BodyEnd tail rest → BodyEnd rest [] →
    Program.ofTokens (soleMethod name first (line ++ tail)) =
      .ok ⟨[⟨name.content, [], [], [], [methodOf head [.statement s]]⟩], []⟩

/-- A body with no other line is refused, and so is a class whose one method has such a body: the
line should end before this token. -/
structure IsRefusedLine (line : List Token) (t : Token) (more : List Token) : Prop where
  body : ∀ {tail rest : List Token}, BodyEnd tail rest →
    lines bodyLine (line ++ tail) = .error ⟨.expected "end of line", t :: (more ++ tail)⟩
  program : ∀ {name : Token} {first tail rest : List Token} {head : (Bool × Bool) × Signature},
    name.kind = .word →
    methodHead (first ++ Kind.newline.token :: Kind.indent.token :: (line ++ tail)) =
      .ok (head, Kind.newline.token :: Kind.indent.token :: (line ++ tail)) →
    BodyEnd tail rest →
    Program.ofTokens (soleMethod name first (line ++ tail)) =
      .error ⟨.expected "end of line", some t, t.position⟩

section Assigned

variable {x a t : Token} {value more ts : List Token} {e : Expr} {s : Stmt}

theorem lines_of_assign (hx : x.kind = .word) (ha : a.kind = .assign) (ts : List Token) :
    lines bodyLine (x :: a :: ts) = (do
      let s ← stmt
      let ls ← lines bodyLine
      return .statement s :: ls : Rule (List BodyLine)) (x :: a :: ts) := by
  have hskip : skipNewlines (x :: a :: ts) = .ok ((), x :: a :: ts) :=
    skipNewlines_eq_ok.2 ⟨by simp [hx], [], rfl, by simp⟩
  have hdedent : x.kind ≠ .dedent := by
    rw [hx]
    decide
  conv => lhs; rw [lines_eq bodyLine_advances]
  rw [bind_of_ok hskip, blockEnd_bind_of_ne hdedent]
  refine (bind_eq_of_eq (bodyLine_of_assign ha ts) _).trans ?_
  rw [bind_assoc]
  rfl

theorem isSoleLine_of_stmt (hx : x.kind = .word) (ha : a.kind = .assign)
    (hstmt : ∀ tail left, headKind tail ∈ closingKinds → lineEnd tail = .ok ((), left) →
      stmt (x :: a :: (value ++ tail)) = .ok (s, left)) : IsSoleLine (x :: a :: value) s := by
  have hbody : ∀ {tail rest : List Token}, BodyEnd tail rest →
      lines bodyLine (x :: a :: value ++ tail) = .ok ([.statement s], rest) := by
    intro tail rest htail
    obtain ⟨left, hend, hleft⟩ := htail.exists_lineEnd
    refine (lines_of_assign hx ha _).trans ?_
    refine (bind_of_ok (hstmt tail left htail.closing hend) _).trans ?_
    exact bind_of_ok (hleft.lines_eq_nil bodyLine_advances) _
  exact ⟨hbody, fun hname hhead htail hrest => ofTokens_soleMethod hname hhead (hbody htail) hrest⟩

theorem isRefusedLine_of_stmt (hx : x.kind = .word) (ha : a.kind = .assign)
    (hstmt : ∀ tail, headKind tail ∈ closingKinds →
      stmt (x :: a :: (value ++ tail)) = .error ⟨.expected "end of line", t :: (more ++ tail)⟩) :
    IsRefusedLine (x :: a :: value) t more := by
  have hbody : ∀ {tail rest : List Token}, BodyEnd tail rest →
      lines bodyLine (x :: a :: value ++ tail) =
        .error ⟨.expected "end of line", t :: (more ++ tail)⟩ := by
    intro tail rest htail
    refine (lines_of_assign hx ha _).trans ?_
    exact bind_of_error (hstmt tail htail.closing) _
  exact ⟨hbody, fun hname hhead htail => ofTokens_soleMethod_error hname hhead (hbody htail)⟩

theorem lineEnd_of_isOperator (ht : isOperator t.kind = true) (ts : List Token) :
    lineEnd (t :: ts) = .error ⟨.expected "end of line", t :: ts⟩ := by
  have hne : ∀ k, isOperator k = false → headKind (t :: ts) ≠ some k := by
    intro k hk hhead
    cases hhead
    rw [hk] at ht
    cases ht
  exact lineEnd_eq_error (hne _ rfl) (by simp) (hne _ rfl)

/-- Take a line that assigns an expression to a name. If the expression does not begin with a name
and a parenthesis, the line is the assignment. If it does, and is a call and no more, the line is
the call statement with this one target. If it goes on behind the call, the line is refused at the
operator that follows the call: the token that is left first when the call is read. -/
theorem line_of_assigned (hx : x.kind = .word) (ha : a.kind = .assign)
    (hvalue : expr value = .ok (e, [])) :
    (¬ StartsCall value → IsSoleLine (x :: a :: value) (.assign x.content e)) ∧
    (StartsCall value → ∀ c : Call, e = c.toExpr →
      c.receiver = none ∧ IsSoleLine (x :: a :: value) (.call [x.content] c)) ∧
    (StartsCall value → (∀ c : Call, e ≠ c.toExpr) →
      ∃ c t more, call expr value = .ok (c, t :: more) ∧ c.receiver = none ∧
        t :: more <:+ value ∧ isOperator t.kind = true ∧
        IsRefusedLine (x :: a :: value) t more) := by
  refine ⟨fun hstart => ?_, fun hstart c hc => ?_, fun hstart hne => ?_⟩
  · refine isSoleLine_of_stmt hx ha fun tail left htail hend => ?_
    exact stmt_of_value hx ha hvalue hstart htail hend
  · obtain ⟨c', mid, hcall, hreceiver, hgo⟩ := continues_of_startsCall hstart hvalue
    rcases hgo with ⟨heq, rfl⟩ | ⟨hoperation, -⟩
    · obtain rfl : c' = c := Call.eq_of_toExpr (heq.symm.trans hc)
      refine ⟨hreceiver, isSoleLine_of_stmt hx ha fun tail left htail hend => ?_⟩
      rw [stmt_of_startsCall hx ha hstart hcall htail]
      exact bind_of_ok hend _
    · rw [hc, Call.isOperation_toExpr] at hoperation
      cases hoperation
  · obtain ⟨c, mid, hcall, hreceiver, hgo⟩ := continues_of_startsCall hstart hvalue
    rcases hgo with ⟨heq, -⟩ | ⟨-, t, more, rfl, ht⟩
    · exact absurd heq (hne c)
    · have hsuffix := (call_advances expr_advances.leaves).leaves _ _ _ hcall
      refine ⟨c, t, more, hcall, hreceiver, hsuffix, ht, ?_⟩
      refine isRefusedLine_of_stmt hx ha fun tail htail => ?_
      rw [stmt_of_startsCall hx ha hstart hcall htail]
      exact bind_of_error (lineEnd_of_isOperator ht _) _

end Assigned

end Grammar

namespace Assigned

def target : Token := ⟨.word, ⟨3, 8⟩, some "x"⟩

def equals : Token := ⟨.assign, ⟨3, 10⟩, none⟩

def plus : Token := ⟨.plus, ⟨3, 16⟩, none⟩

/-- The call of a method without arguments. -/
def called : List Token :=
  [⟨.word, ⟨3, 12⟩, some "f"⟩, ⟨.lparen, ⟨3, 13⟩, none⟩, ⟨.rparen, ⟨3, 14⟩, none⟩]

def summand : Token := ⟨.word, ⟨3, 18⟩, some "y"⟩

/-- A call, and a variable added to it. -/
def added : List Token := called ++ [plus, summand]

def startHead : List Token :=
  [⟨.keyShared, ⟨2, 4⟩, none⟩, ⟨.word, ⟨2, 11⟩, some "start"⟩, ⟨.lparen, ⟨2, 16⟩, none⟩,
    ⟨.rparen, ⟨2, 17⟩, none⟩]

/-- The end of the method and of its class. -/
def ends : List Token :=
  [⟨.newline, ⟨3, 19⟩, none⟩, ⟨.dedent, ⟨4, 0⟩, none⟩, ⟨.dedent, ⟨4, 0⟩, none⟩]

theorem startsCall_called : Grammar.StartsCall called := ⟨rfl, rfl⟩

theorem startsCall_added : Grammar.StartsCall added := ⟨rfl, rfl⟩

end Assigned

open Grammar Assigned in
theorem line_of_assigned_call :
    expr called = .ok (.call none "f" [], []) ∧
      IsSoleLine (target :: equals :: called) (.call ["x"] ⟨none, "f", []⟩) ∧
    call expr added = .ok (⟨none, "f", []⟩, [plus, summand]) ∧
      IsRefusedLine (target :: equals :: added) plus [summand] := by
  have hcalled : expr called = .ok (.call none "f" [], []) := rfl
  have hadded : expr added = .ok (.arith .add (.call none "f" []) (.var "y"), []) := rfl
  have hfirst : call expr added = .ok (⟨none, "f", []⟩, [plus, summand]) := rfl
  refine ⟨hcalled, ?_, hfirst, ?_⟩
  · exact ((line_of_assigned rfl rfl hcalled).2.1 startsCall_called ⟨none, "f", []⟩ rfl).2
  · obtain ⟨c, t, more, hcall, -, -, -, hrefused⟩ :=
      (line_of_assigned (x := target) (a := equals) rfl rfl hadded).2.2 startsCall_added
        fun c hc => by cases hc
    cases hfirst.symm.trans hcall
    exact hrefused

open Grammar Assigned in
/-- A sum that begins with a call is an expression, and a program that assigns it is refused. -/
theorem assigned_sum_refused :
    expr added = .ok (.arith .add (.call none "f" []) (.var "y"), []) ∧
    Program.ofTokens (soleMethod ⟨.word, ⟨1, 6⟩, some "Main"⟩ startHead
        (target :: equals :: added ++ ends)) =
      .error ⟨.expected "end of line", some plus, ⟨3, 16⟩⟩ :=
  ⟨rfl, rfl⟩

end Offside
