import Offside.Proofs.Grammar.Progress
import Offside.Proofs.Program.Shape

/-!
What the grammar yields. A rule yields values of a kind if every value it gives is of that kind,
whatever the tokens; this is shown rule by rule along the grammar. Main statement: every program
that is read from tokens has the shape of written programs.
-/
namespace Offside.Rule

variable {α β : Type}

/-- Every value the rule gives meets the condition. -/
def Yields (p : Rule α) (Q : α → Prop) : Prop := ∀ ts rest a, p ts = .ok (a, rest) → Q a

theorem Yields.bind {p : Rule α} {f : α → Rule β} {Q : α → Prop} {R : β → Prop}
    (hp : Yields p Q) (hf : ∀ a, Q a → Yields (f a) R) : Yields (p >>= f) R := by
  intro ts rest b h
  obtain ⟨a, mid, ha, hb⟩ := bind_eq_ok.1 h
  exact hf a (hp ts mid a ha) mid rest b hb

/-- A part about whose value nothing is asked. -/
theorem Yields.skip {p : Rule α} {f : α → Rule β} {R : β → Prop}
    (hf : ∀ a, Yields (f a) R) : Yields (p >>= f) R := by
  intro ts rest b h
  obtain ⟨a, mid, -, hb⟩ := bind_eq_ok.1 h
  exact hf a mid rest b hb

theorem Yields.pure {a : α} {Q : α → Prop} (h : Q a) : Yields (pure a : Rule α) Q := by
  intro ts rest b hb
  cases hb
  exact h

theorem Yields.refuse {what : String} {Q : α → Prop} : Yields (refuse what : Rule α) Q := by
  intro ts rest a h
  cases h

theorem Yields.mono {p : Rule α} {Q R : α → Prop} (hp : Yields p Q) (h : ∀ a, Q a → R a) :
    Yields p R := fun ts rest a ha => h a (hp ts rest a ha)

theorem Yields.fix {f : Rule α → Rule α} {Q : α → Prop}
    (hf : ∀ p, Yields p Q → Yields (f p) Q) : Yields (fix f) Q := by
  have hrounds : ∀ n, Yields (unroll f n) Q := by
    intro n
    induction n with
    | zero => exact Yields.refuse
    | succ n ih => exact hf _ ih
  intro ts
  exact hrounds (ts.length + 1) ts

theorem Yields.commaSeparated {item : Rule α} {Q : α → Prop} (h : Yields item Q) :
    Yields (commaSeparated item) (fun as => ∀ a ∈ as, Q a) := by
  refine Yields.fix fun p hp => h.bind fun first hfirst => Yields.skip fun comma => ?_
  cases comma with
  | none =>
    refine Yields.pure fun a ha => ?_
    rw [List.mem_singleton] at ha
    exact ha ▸ hfirst
  | some _ => exact hp.bind fun more hmore => Yields.pure (List.forall_mem_cons.2 ⟨hfirst, hmore⟩)

theorem Yields.lines {item : Rule α} {Q : α → Prop} (h : Yields item Q) :
    Yields (lines item) (fun as => ∀ a ∈ as, Q a) := by
  refine Yields.fix fun p hp => Yields.skip fun _ => Yields.skip fun ended => ?_
  cases ended with
  | true => exact Yields.pure (List.forall_mem_nil Q)
  | false =>
    refine h.bind fun first hfirst => hp.bind fun more hmore => ?_
    exact Yields.pure (List.forall_mem_cons.2 ⟨hfirst, hmore⟩)

theorem Yields.operations {ω : Type} {op : Kind → Option ω} {operand : Rule α} {Q : α → Prop}
    (h : Yields operand Q) :
    Yields (operations op operand) (fun steps => ∀ s ∈ steps, Q s.2) := by
  refine Yields.fix fun p hp => Yields.skip fun kind => ?_
  cases kind.bind op with
  | none => exact Yields.pure (List.forall_mem_nil _)
  | some o =>
    refine Yields.skip fun _ => h.bind fun first hfirst => hp.bind fun more hmore => ?_
    exact Yields.pure (List.forall_mem_cons.2 ⟨hfirst, hmore⟩)

/-- What the first operand has and each join keeps, the chain has. -/
theorem Yields.chain {ω : Type} {op : Kind → Option ω} {join : ω → α → α → α} {operand : Rule α}
    {Q R : α → Prop} (h : Yields operand Q) (hfirst : ∀ a, Q a → R a)
    (hjoin : ∀ o l r, R l → Q r → R (join o l r)) : Yields (chain op join operand) R := by
  refine h.bind fun first hq => (Yields.operations h).bind fun steps hsteps => Yields.pure ?_
  have hR := hfirst first hq
  clear hq
  induction steps generalizing first with
  | nil => exact hR
  | cons s steps ih =>
    obtain ⟨hs, hrest⟩ := List.forall_mem_cons.1 hsteps
    exact ih (join s.1 first s.2) hrest (hjoin s.1 first s.2 hR hs)

end Offside.Rule

namespace Offside.Grammar

open Rule

theorem arguments_yields {p : Rule Expr} {Q : Expr → Prop} (h : Yields p Q) :
    Yields (arguments p) (fun args => ∀ a ∈ args, Q a) := by
  refine Yields.skip fun _ => Yields.skip fun close => ?_
  cases close with
  | some _ => exact Yields.pure (List.forall_mem_nil Q)
  | none => exact h.commaSeparated.bind fun args hargs => Yields.skip fun _ => Yields.pure hargs

theorem call_yields {p : Rule Expr} {Q : Expr → Prop} (h : Yields p Q) :
    Yields (call p) (fun c => ∀ a ∈ c.args, Q a) := by
  refine Yields.skip fun qualified => ?_
  cases qualified with
  | true =>
    refine Yields.skip fun receiver => Yields.skip fun _ => Yields.skip fun method => ?_
    refine Yields.skip fun kind => ?_
    split
    · exact (arguments_yields h).bind fun args hargs => Yields.pure hargs
    · exact Yields.pure (List.forall_mem_nil Q)
  | false =>
    exact Yields.skip fun method => (arguments_yields h).bind fun args hargs => Yields.pure hargs

/-- What an operand is: an expression of the right shape that may stand in a group. -/
structure IsOperand (e : Expr) : Prop where
  everywhere : e.Everywhere Expr.Layered
  operand : e.isOperand
  flat : e.isFlat

/-- An operand that is no operation. -/
structure IsAtom (e : Expr) : Prop extends IsOperand e where
  single : e.isArith = false

theorem isAtom_of_children {e : Expr} (hop : e.isOperand) (harith : e.isArith = false)
    (h : ∀ c ∈ e.children, c.Everywhere Expr.Layered) : IsAtom e := by
  cases e with
  | arith _ _ _ => cases harith
  | compare _ _ _ => cases hop
  | logic _ _ _ => cases hop
  | _ => exact ⟨⟨.intro trivial h, rfl, rfl⟩, rfl⟩

theorem atom_yields {p : Rule Expr} (h : Yields p (Expr.Everywhere Expr.Layered)) :
    Yields (atom p) IsAtom := by
  have hleaf : ∀ e : Expr, e.isOperand → e.isArith = false → e.children = [] → IsAtom e := by
    intro e hop harith hnone
    refine isAtom_of_children hop harith ?_
    rw [hnone]
    exact List.forall_mem_nil _
  refine Yields.skip fun first => Yields.skip fun second => ?_
  split
  case h_1 => exact Yields.skip fun x => Yields.pure (hleaf _ rfl rfl rfl)
  case h_2 => exact Yields.skip fun _ => Yields.skip fun x => Yields.pure (hleaf _ rfl rfl rfl)
  case h_3 => exact Yields.skip fun t => Yields.pure (hleaf _ rfl rfl rfl)
  case h_4 => exact Yields.skip fun t => Yields.pure (hleaf _ rfl rfl rfl)
  case h_5 => exact Yields.skip fun _ => Yields.pure (hleaf _ rfl rfl rfl)
  case h_6 => exact Yields.skip fun _ => Yields.pure (hleaf _ rfl rfl rfl)
  case h_7 =>
    refine Yields.skip fun _ => Yields.skip fun cls => ?_
    refine (arguments_yields h).bind fun args hargs => Yields.pure ?_
    exact isAtom_of_children rfl rfl hargs
  case h_8 =>
    exact (call_yields h).bind fun c hc => Yields.pure (isAtom_of_children rfl rfl hc)
  case h_9 =>
    exact (call_yields h).bind fun c hc => Yields.pure (isAtom_of_children rfl rfl hc)
  case h_10 => exact Yields.skip fun name => Yields.pure (hleaf _ rfl rfl rfl)
  case h_11 => exact Yields.refuse

theorem groupOperand_yields {p : Rule Expr} (h : Yields p (Expr.Everywhere Expr.Layered)) :
    Yields (groupOperand p) IsAtom := by
  intro ts rest e he
  unfold groupOperand at he
  split at he
  · cases he
  · exact atom_yields h _ _ _ he

theorem everywhere_arith {op : ArithOp} {l r : Expr} (hl : l.Everywhere Expr.Layered)
    (hlop : l.isOperand) (hr : IsOperand r) : (Expr.arith op l r).Everywhere Expr.Layered := by
  exact .pair rfl ⟨hlop, hr.operand, hr.flat⟩ hl hr.everywhere

/-- In a group every right operand is an atom, so the chain is flat. -/
theorem group_yields {p : Rule Expr} (h : Yields p (Expr.Everywhere Expr.Layered)) :
    Yields (chain arithOp? .arith (groupOperand p)) IsOperand := by
  refine (groupOperand_yields h).chain (fun e he => he.toIsOperand) fun op l r hl hr => ?_
  refine ⟨everywhere_arith hl.everywhere hl.operand hr.toIsOperand, rfl, ?_⟩
  simp only [Expr.isFlat, hr.single, hl.flat, Bool.not_false, Bool.and_self]

theorem operand_yields {p : Rule Expr} (h : Yields p (Expr.Everywhere Expr.Layered)) :
    Yields (operand p) IsOperand := by
  refine Yields.skip fun group => ?_
  cases group with
  | some _ =>
    exact (group_yields h).bind fun inner hinner => Yields.skip fun _ => Yields.pure hinner
  | none => exact (atom_yields h).mono fun e he => he.toIsOperand

theorem arithmetic_yields {p : Rule Expr} (h : Yields p (Expr.Everywhere Expr.Layered)) :
    Yields (arithmetic p) (fun e => e.Everywhere Expr.Layered ∧ e.isOperand) := by
  refine (operand_yields h).chain (fun e he => ⟨he.everywhere, he.operand⟩) fun op l r hl hr => ?_
  exact ⟨everywhere_arith hl.1 hl.2 hr, rfl⟩

theorem comparison_yields {p : Rule Expr} (h : Yields p (Expr.Everywhere Expr.Layered)) :
    Yields (comparison p) (fun e => e.Everywhere Expr.Layered ∧ e.isLogic = false) := by
  refine (arithmetic_yields h).bind fun left hleft => Yields.skip fun kind => ?_
  cases kind.bind compareOp? with
  | none =>
    refine Yields.pure ⟨hleft.1, ?_⟩
    have hop := hleft.2
    simp only [Expr.isOperand, Bool.and_eq_true, Bool.not_eq_true'] at hop
    exact hop.2
  | some op =>
    refine Yields.skip fun _ => (arithmetic_yields h).bind fun right hright => Yields.pure ⟨?_, rfl⟩
    exact .pair rfl ⟨hleft.2, hright.2⟩ hleft.1 hright.1

theorem expr_yields : Yields expr (Expr.Everywhere Expr.Layered) := by
  refine Yields.fix fun p h => ?_
  refine (comparison_yields h).chain (fun e he => he.1) fun op l r hl hr => ?_
  exact .pair rfl hr.2 hl hr.1

/-- Without a target before a comma no token is taken. -/
theorem commaTargets_nil {ts mid : List Token} (h : commaTargets ts = .ok ([], mid)) :
    mid = ts := by
  rw [commaTargets_eq, startsWith_bind] at h
  split at h
  · obtain ⟨target, mid₁, -, h⟩ := bind_eq_ok.1 h
    obtain ⟨_, mid₂, -, h⟩ := bind_eq_ok.1 h
    obtain ⟨others, mid₃, -, h⟩ := bind_eq_ok.1 h
    cases h
  · cases h
    rfl

/-- A single target is a name before an assignment mark. -/
theorem targets_single {ts mid : List Token} {names : List String} (hlen : names.length = 1)
    (h : targets ts = .ok (names, mid)) :
    ∃ target mark, ts = target :: mark :: mid ∧ mark.kind = .assign := by
  obtain ⟨first, mid₁, hfirst, h⟩ := bind_eq_ok.1 h
  rw [startsWith_bind] at h
  split at h
  · rename_i hstart
    obtain ⟨target, mid₂, htarget, h⟩ := bind_eq_ok.1 h
    obtain ⟨_, mid₃, hnext, h⟩ := bind_eq_ok.1 h
    cases h
    have hempty : first = [] := by
      rw [List.length_append, List.length_singleton] at hlen
      exact List.length_eq_zero_iff.1 (by omega)
    subst hempty
    obtain rfl := commaTargets_nil hfirst
    obtain ⟨t, rfl, -⟩ := word_eq_ok.1 htarget
    have hmark : mid₂[0]?.map Token.kind = some .assign := (of_decide_eq_true hstart).2
    cases mid₂ with
    | nil => cases hmark
    | cons mark rest =>
      cases hnext
      exact ⟨t, mark, rfl, Option.some.inj hmark⟩
  · split at h
    · cases h
      cases hlen
    · cases h

/-- A call that starts with a name before a parenthesis has no receiver. -/
theorem call_receiver {p : Rule Expr} {ts rest : List Token} {c : Call}
    (hkind : ts[1]?.map Token.kind = some .lparen) (h : call p ts = .ok (c, rest)) :
    c.receiver = none := by
  rw [call, startsWith_bind] at h
  have hplain : ¬ (ts[0]?.map Token.kind = some .word ∧ ts[1]?.map Token.kind = some .dot) := by
    rw [hkind]
    rintro ⟨-, hdot⟩
    cases hdot
  rw [decide_eq_false hplain] at h
  obtain ⟨method, mid, -, h⟩ := bind_eq_ok.1 h
  obtain ⟨args, mid', -, h⟩ := bind_eq_ok.1 h
  cases h
  rfl

/-- A call statement with one target is shaped if a call without receiver was seen ahead. -/
theorem callStatement_everywhere {ts rest : List Token} {s : Stmt}
    (hahead : ts[1]?.map Token.kind = some .assign → ts[3]?.map Token.kind = some .lparen)
    (h : callStatement ts = .ok (s, rest)) : s.Everywhere .shape := by
  obtain ⟨names, mid, hnames, h⟩ := bind_eq_ok.1 h
  obtain ⟨c, mid', hc, h⟩ := bind_eq_ok.1 h
  obtain ⟨_, mid'', -, h⟩ := bind_eq_ok.1 h
  cases h
  refine .intro (fun hlen => ?_) (call_yields expr_yields _ _ _ hc) (List.forall_mem_nil _)
  obtain ⟨target, mark, rfl, hmark⟩ := targets_single hlen hnames
  have hparen := hahead (congrArg some hmark)
  exact call_receiver hparen hc

theorem assignment_yields : Yields assignment (Stmt.Everywhere .shape) := by
  refine Yields.skip fun target => Yields.skip fun _ => expr_yields.bind fun value hvalue => ?_
  refine Yields.skip fun _ => Yields.pure ?_
  exact .intro trivial (List.forall_mem_singleton.2 hvalue) (List.forall_mem_nil _)

theorem block_yields {α : Type} {item : Rule α} {Q : α → Prop} (h : Yields item Q) :
    Yields (block item) (fun as => ∀ a ∈ as, Q a) := Yields.skip fun _ => h.lines

theorem loop_yields {p : Rule Stmt} (h : Yields p (Stmt.Everywhere .shape)) :
    Yields (loop p) (Stmt.Everywhere .shape) := by
  refine Yields.skip fun _ => Yields.skip fun item => expr_yields.bind fun source hsource => ?_
  refine Yields.skip fun _ => (block_yields h).bind fun body hbody => Yields.pure ?_
  exact .intro trivial (List.forall_mem_singleton.2 hsource) hbody

theorem everywhere_branch {condition : Expr} {thenBody : List Stmt} {elseBody : Option (List Stmt)}
    (hcondition : condition.Everywhere Expr.Layered)
    (hthen : ∀ s ∈ thenBody, s.Everywhere .shape)
    (helse : ∀ s ∈ elseBody.getD [], s.Everywhere .shape) :
    (Stmt.branch condition thenBody elseBody).Everywhere .shape :=
  .intro trivial (List.forall_mem_singleton.2 hcondition) (List.forall_mem_append.2 ⟨hthen, helse⟩)

theorem branch_yields {p : Rule Stmt} (h : Yields p (Stmt.Everywhere .shape)) :
    Yields (branch p) (Stmt.Everywhere .shape) := by
  refine Yields.skip fun _ => expr_yields.bind fun condition hcondition => Yields.skip fun _ => ?_
  refine (block_yields h).bind fun thenBody hthen => Yields.skip fun alternative => ?_
  cases alternative with
  | none => exact Yields.pure (everywhere_branch hcondition hthen (List.forall_mem_nil _))
  | some _ =>
    refine Yields.skip fun kind => ?_
    split
    · refine h.bind fun s hs => Yields.pure ?_
      exact everywhere_branch hcondition hthen (List.forall_mem_singleton.2 hs)
    · refine Yields.skip fun _ => (block_yields h).bind fun elseBody helse => Yields.pure ?_
      exact everywhere_branch hcondition hthen helse

theorem stmt_yields : Yields stmt (Stmt.Everywhere .shape) := by
  refine Yields.fix fun p h ts rest s hs => ?_
  rw [stmtWith, peekKind_bind] at hs
  generalize ts[0]?.map Token.kind = head at hs
  split at hs
  · exact loop_yields h _ _ _ hs
  · exact branch_yields h _ _ _ hs
  · rw [peekKind_bind, peekKind_bind, peekKind_bind] at hs
    generalize hsecond : ts[1]?.map Token.kind = second at hs
    generalize ts[2]?.map Token.kind = third at hs
    generalize hfourth : ts[3]?.map Token.kind = fourth at hs
    split at hs
    · exact callStatement_everywhere (fun _ => hfourth) hs
    · exact assignment_yields _ _ _ hs
    · exact callStatement_everywhere (fun hassign => by rw [hsecond] at hassign; cases hassign) hs
    · exact callStatement_everywhere (fun hassign => by rw [hsecond] at hassign; cases hassign) hs
    · exact callStatement_everywhere (fun hassign => by rw [hsecond] at hassign; cases hassign) hs
    · cases hs
  · cases hs

/-- The two words change places just where the second alone is the name of a scalar type. -/
theorem declaration_yields : Yields declaration Declaration.Settled := by
  refine Yields.skip fun first => Yields.skip fun second => ?_
  split
  · rename_i hswap
    refine Yields.pure fun hname => ?_
    simp only [Bool.and_eq_true, Bool.not_eq_true'] at hswap
    rw [← isScalarName_iff, hswap.2] at hname
    cases hname
  · rename_i hkeep
    refine Yields.pure fun hname => ?_
    rw [← isScalarName_iff] at hname ⊢
    simpa [hname] using hkeep

theorem parameters_yields : Yields parameters (fun ds => ∀ d ∈ ds, d.Settled) := by
  refine Yields.skip fun _ => Yields.skip fun close => ?_
  cases close with
  | some _ => exact Yields.pure (List.forall_mem_nil _)
  | none =>
    refine declaration_yields.commaSeparated.bind fun ds hds => ?_
    exact Yields.skip fun _ => Yields.pure hds

theorem returns_yields : Yields returns (fun ds => ∀ d ∈ ds, d.Settled) := by
  refine Yields.skip fun colon => ?_
  cases colon with
  | some _ => exact declaration_yields.commaSeparated
  | none => exact Yields.pure (List.forall_mem_nil _)

/-- What may stand in an indented block, or be left out with it. -/
theorem optionalLines_yields {α : Type} {item : Rule α} {Q : α → Prop} (h : Yields item Q) :
    Yields (do
      match ← accept .indent with
      | some _ => lines item
      | none => return [] : Rule (List α)) (fun as => ∀ a ∈ as, Q a) := by
  refine Yields.skip fun indent => ?_
  cases indent with
  | some _ => exact h.lines
  | none => exact Yields.pure (List.forall_mem_nil _)

/-- A line of a body that declares or does what a shaped program may. -/
def BodyLine.Shaped : BodyLine → Prop
  | .declared d => d.Settled
  | .statement s => s.Everywhere .shape

theorem bodyLine_yields : Yields bodyLine BodyLine.Shaped := by
  refine Yields.skip fun declares => ?_
  cases declares with
  | true =>
    exact declaration_yields.bind fun d hd => Yields.skip fun _ => Yields.pure hd
  | false => exact stmt_yields.bind fun s hs => Yields.pure hs

theorem locals_settled {ls : List BodyLine} (h : ∀ l ∈ ls, l.Shaped) :
    ∀ d ∈ BodyLine.locals ls, d.Settled := by
  intro d hd
  obtain ⟨l, hl, hdl⟩ := List.mem_filterMap.1 hd
  cases l with
  | declared d' =>
    cases hdl
    exact h _ hl
  | statement s => cases hdl

theorem statements_everywhere {ls : List BodyLine} (h : ∀ l ∈ ls, l.Shaped) :
    ∀ s ∈ BodyLine.statements ls, s.Everywhere .shape := by
  intro s hs
  obtain ⟨l, hl, hsl⟩ := List.mem_filterMap.1 hs
  cases l with
  | declared d => cases hsl
  | statement s' =>
    cases hsl
    exact h _ hl

theorem method_yields : Yields method (Method.Everywhere .shape) := by
  refine Yields.skip fun mods => Yields.skip fun name => ?_
  refine parameters_yields.bind fun params hparams => returns_yields.bind fun returns hreturns => ?_
  refine Yields.skip fun _ => (optionalLines_yields bodyLine_yields).bind fun body hbody => ?_
  apply Yields.pure
  exact ⟨⟨rfl, rfl⟩, hparams, hreturns, locals_settled hbody, statements_everywhere hbody⟩

theorem constructor_yields : Yields constructor (Constructor.Everywhere .shape) := by
  refine Yields.skip fun _ => parameters_yields.bind fun params hparams => Yields.skip fun _ => ?_
  refine Yields.skip fun _ => bodyLine_yields.lines.bind fun body hbody => ?_
  exact Yields.pure ⟨hparams, locals_settled hbody, statements_everywhere hbody⟩

theorem sectionBody_yields : Yields sectionBody (fun body => ∀ s ∈ body, s.Everywhere .shape) := by
  refine Yields.skip fun _ => Yields.skip fun _ => Yields.skip fun kind => ?_
  split
  · exact block_yields stmt_yields
  · exact Yields.pure (List.forall_mem_nil _)

/-- A section of a member whose statements are shaped. -/
def MemberSection.Shaped : MemberSection → Prop
  | .accessor body | .mutator body => ∀ s ∈ body, s.Everywhere .shape

theorem memberSection_yields : Yields memberSection MemberSection.Shaped := by
  refine Yields.skip fun kind => ?_
  split
  · exact Yields.skip fun _ => sectionBody_yields.bind fun body hbody => Yields.pure hbody
  · exact Yields.skip fun _ => sectionBody_yields.bind fun body hbody => Yields.pure hbody
  · exact Yields.refuse

theorem everywhere_addTo {m : Member} {part : MemberSection} (hm : m.Everywhere .shape)
    (hpart : part.Shaped) : (part.addTo m).Everywhere .shape := by
  cases part with
  | accessor body =>
    refine ⟨hm.declaration, fun b hb => ?_, hm.mutator⟩
    cases hb
    exact hpart
  | mutator body =>
    refine ⟨hm.declaration, hm.accessor, fun b hb => ?_⟩
    cases hb
    exact hpart

theorem member_yields : Yields member (Member.Everywhere .shape) := by
  refine declaration_yields.bind fun d hd => Yields.skip fun _ => ?_
  refine (optionalLines_yields memberSection_yields).bind fun parts hparts => Yields.pure ?_
  have hbare : (⟨d, none, none⟩ : Member).Everywhere .shape :=
    ⟨hd, fun body hbody => (nomatch hbody), fun body hbody => (nomatch hbody)⟩
  generalize (⟨d, none, none⟩ : Member) = m at hbare
  induction parts generalizing m with
  | nil => exact hbare
  | cons part parts ih =>
    obtain ⟨hpart, hrest⟩ := List.forall_mem_cons.1 hparts
    exact ih hrest _ (everywhere_addTo hbare hpart)

/-- A declaration of a class that is shaped. -/
def Feature.Shaped : Feature → Prop
  | .member m => m.Everywhere .shape
  | .constructor c => c.Everywhere .shape
  | .method m => m.Everywhere .shape

theorem feature_yields : Yields feature Feature.Shaped := by
  refine Yields.skip fun first => Yields.skip fun second => ?_
  split
  · exact constructor_yields.bind fun c hc => Yields.pure hc
  · exact method_yields.bind fun m hm => Yields.pure hm
  · exact method_yields.bind fun m hm => Yields.pure hm
  · exact method_yields.bind fun m hm => Yields.pure hm
  · exact member_yields.bind fun m hm => Yields.pure hm
  · exact Yields.refuse

theorem classBody_yields : Yields classBody (Class.Everywhere .shape) := by
  refine Yields.skip fun name => Yields.skip fun interfaces => Yields.skip fun _ => ?_
  refine (optionalLines_yields feature_yields).bind fun features hfeatures => Yields.pure ?_
  refine ⟨fun m hm => ?_, fun c hc => ?_, fun m hm => ?_⟩
  · obtain ⟨f, hf, hmf⟩ := List.mem_filterMap.1 hm
    cases f <;> cases hmf
    exact hfeatures _ hf
  · obtain ⟨f, hf, hcf⟩ := List.mem_filterMap.1 hc
    cases f <;> cases hcf
    exact hfeatures _ hf
  · obtain ⟨f, hf, hmf⟩ := List.mem_filterMap.1 hm
    cases f <;> cases hmf
    exact hfeatures _ hf

theorem signature_yields : Yields signature (Signature.Everywhere .shape) := by
  refine Yields.skip fun name => parameters_yields.bind fun params hparams => ?_
  refine returns_yields.bind fun returns hreturns => Yields.skip fun _ => ?_
  exact Yields.pure ⟨hparams, hreturns⟩

theorem interfaceBody_yields :
    Yields interfaceBody (fun i => ∀ s ∈ i.methods, s.Everywhere .shape) := by
  refine Yields.skip fun name => Yields.skip fun _ => Yields.skip fun _ => ?_
  exact signature_yields.lines.bind fun methods hmethods => Yields.pure hmethods

/-- A class or an interface that is shaped. -/
def TopLevel.Shaped : TopLevel → Prop
  | .cls c => c.Everywhere .shape
  | .interface i => ∀ s ∈ i.methods, s.Everywhere .shape

theorem topLevel_yields : Yields topLevel (fun us => ∀ u ∈ us, u.Shaped) := by
  refine Yields.fix fun p hp => Yields.skip fun _ => Yields.skip fun kind => ?_
  split
  · refine Yields.skip fun _ => classBody_yields.bind fun c hc => hp.bind fun more hmore => ?_
    exact Yields.pure (List.forall_mem_cons.2 ⟨hc, hmore⟩)
  · refine Yields.skip fun _ => interfaceBody_yields.bind fun i hi => hp.bind fun more hmore => ?_
    exact Yields.pure (List.forall_mem_cons.2 ⟨hi, hmore⟩)
  · exact Yields.pure (List.forall_mem_nil _)

theorem program_yields : Yields program Program.Shaped := by
  refine topLevel_yields.bind fun us hus => Yields.skip fun _ => Yields.skip fun ended => ?_
  split
  · refine Yields.pure ⟨fun c hc => ?_, fun i hi => ?_⟩
    · obtain ⟨u, hu, hcu⟩ := List.mem_filterMap.1 hc
      cases u <;> cases hcu
      exact hus _ hu
    · obtain ⟨u, hu, hiu⟩ := List.mem_filterMap.1 hi
      cases u <;> cases hiu
      exact hus _ hu
  · exact Yields.refuse

end Offside.Grammar

namespace Offside.Program

/-- Whatever the tokens, a program that is read from them is shaped. -/
theorem shaped_of_ofTokens {ts : List Token} {p : Program} (h : ofTokens ts = .ok p) :
    p.Shaped := by
  unfold ofTokens at h
  split at h
  · rename_i hp
    cases h
    exact Grammar.program_yields _ _ _ hp
  · cases h

/-- A class with a variable named before its type, an assignment whose argument compares a name
with a group times a number, and a call for one target. -/
theorem shaped_of_ofTokens_class : ∃ p,
    ofTokens ([(.keyClass, none), (.word, some "C"), (.newline, none), (.indent, none),
      (.word, some "m"), (.lparen, none), (.rparen, none), (.newline, none), (.indent, none),
      (.word, some "x"), (.word, some "number"), (.newline, none),
      (.word, some "x"), (.assign, none), (.word, some "o"), (.dot, none), (.word, some "f"),
      (.lparen, none), (.word, some "a"), (.less, none), (.lparen, none), (.word, some "b"),
      (.plus, none), (.word, some "c"), (.rparen, none), (.times, none), (.number, some "2"),
      (.rparen, none), (.newline, none), (.word, some "x"), (.assign, none), (.word, some "m"),
      (.lparen, none), (.rparen, none)].map
        fun (f : Kind × Option String) => ⟨f.1, Position.start, f.2⟩) = .ok p ∧ p.Shaped :=
  Exists.imp (fun _ h => ⟨h, shaped_of_ofTokens h⟩)
    ⟨⟨[⟨"C", [], [], [], [⟨"m", false, false, false, [], [], [⟨"number", "x"⟩], .statements
      [.assign "x" (.call (some "o") "f" [.compare .less (.var "a")
        (.arith .mul (.arith .add (.var "b") (.var "c")) (.number (Decimal.toFloat ⟨2, 0⟩)))]),
        .call ["x"] ⟨none, "m", []⟩]⟩]⟩], []⟩, rfl⟩

end Offside.Program
