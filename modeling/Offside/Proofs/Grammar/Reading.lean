import Offside.Proofs.Decimal.RoundTrip
import Offside.Proofs.Grammar.Progress
import Offside.Proofs.Rule.Reading

/-!
The grammar reads what was written. Expressions are followed from their atoms up: operands are
atoms and groups, chains of operands are arithmetic, and so on, each read before whatever cannot
belong to it.
-/
namespace Offside.Grammar

open Rule Face

theorem arithOp?_kind (op : ArithOp) : arithOp? op.kind = some op := by
  cases op <;> rfl

theorem compareOp?_kind (op : CompareOp) : compareOp? op.kind = some op := by
  cases op <;> rfl

theorem logicOp?_kind (op : LogicOp) : logicOp? op.kind = some op := by
  cases op <;> rfl

/-- What can stand after an operand: nothing that would make a call of a name. -/
structure AfterOperand (r : List Face) : Prop where
  dot : kindAt r 0 ≠ some .dot
  lparen : kindAt r 0 ≠ some .lparen

/-- What can stand after a chain of arithmetic. -/
structure AfterArith (r : List Face) : Prop extends AfterOperand r where
  arith : (kindAt r 0).bind arithOp? = none

/-- What can stand after a comparison. -/
structure AfterComparison (r : List Face) : Prop extends AfterArith r where
  compare : (kindAt r 0).bind compareOp? = none

/-- What can stand after an expression. -/
structure AfterExpr (r : List Face) : Prop extends AfterComparison r where
  logic : (kindAt r 0).bind logicOp? = none

theorem afterOperand_arith (op : ArithOp) (r : List Face) :
    AfterOperand (mark op.kind :: r) := by
  constructor <;> cases op <;> simp [mark, ArithOp.kind]

theorem afterArith_compare (op : CompareOp) (r : List Face) :
    AfterArith (mark op.kind :: r) := by
  refine ⟨⟨?_, ?_⟩, ?_⟩ <;> cases op <;> simp [mark, CompareOp.kind, arithOp?]

theorem afterComparison_logic (op : LogicOp) (r : List Face) :
    AfterComparison (mark op.kind :: r) := by
  refine ⟨⟨⟨?_, ?_⟩, ?_⟩, ?_⟩ <;> cases op <;>
    simp [mark, LogicOp.kind, arithOp?, compareOp?]

theorem afterExpr_comma (r : List Face) : AfterExpr (mark .comma :: r) := by
  refine ⟨⟨⟨⟨?_, ?_⟩, ?_⟩, ?_⟩, ?_⟩ <;> simp [mark, arithOp?, compareOp?, logicOp?]

theorem afterExpr_rparen (r : List Face) : AfterExpr (mark .rparen :: r) := by
  refine ⟨⟨⟨⟨?_, ?_⟩, ?_⟩, ?_⟩, ?_⟩ <;> simp [mark, arithOp?, compareOp?, logicOp?]

theorem afterExpr_newline (r : List Face) : AfterExpr (mark .newline :: r) := by
  refine ⟨⟨⟨⟨?_, ?_⟩, ?_⟩, ?_⟩, ?_⟩ <;> simp [mark, arithOp?, compareOp?, logicOp?]

/-- The kinds that an expression starts with when no group does. -/
def startsExpr : Kind → Bool
  | .keyTrue | .keyFalse | .number | .minus | .string | .character | .word | .keyNew => true
  | _ => false

theorem numberFaces_start (x : Float) :
    ∃ f w, numberFaces x = f :: w ∧ startsExpr f.1 = true := by
  unfold numberFaces
  split
  · exact ⟨_, _, rfl, rfl⟩
  · exact ⟨_, _, rfl, rfl⟩

theorem faces_start (e : Expr) : ∃ f w, e.faces = f :: w ∧ startsExpr f.1 = true := by
  have hleft : ∀ {l : Expr} {v : List Face}, (∃ f w, l.faces = f :: w ∧ startsExpr f.1 = true) →
      ∃ f w, l.faces ++ v = f :: w ∧ startsExpr f.1 = true := by
    rintro l v ⟨f, w, hw, hf⟩
    exact ⟨f, w ++ v, by rw [hw, List.cons_append], hf⟩
  match e with
  | .boolean true => exact ⟨_, _, rfl, rfl⟩
  | .boolean false => exact ⟨_, _, rfl, rfl⟩
  | .number x =>
    rw [Expr.faces]
    exact numberFaces_start x
  | .string _ => exact ⟨_, _, rfl, rfl⟩
  | .character _ => exact ⟨_, _, rfl, rfl⟩
  | .var _ => exact ⟨_, _, rfl, rfl⟩
  | .logic _ l _ =>
    rw [Expr.faces]
    exact hleft (faces_start l)
  | .compare _ l _ =>
    rw [Expr.faces]
    exact hleft (faces_start l)
  | .arith _ l _ =>
    rw [Expr.faces]
    exact hleft (faces_start l)
  | .call (some _) _ _ => exact ⟨_, _, rfl, rfl⟩
  | .call none _ _ => exact ⟨_, _, rfl, rfl⟩
  | .construct _ _ => exact ⟨_, _, rfl, rfl⟩

/-- An expression starts with a token that is no parenthesis. -/
theorem kindAt_faces (e : Expr) (r : List Face) {kind : Kind} (h : startsExpr kind = false) :
    kindAt (e.faces ++ r) 0 ≠ some kind := by
  obtain ⟨f, w, hw, hf⟩ := faces_start e
  rw [hw, List.cons_append, kindAt_cons_zero]
  intro heq
  rw [Option.some.inj heq, h] at hf
  cases hf

theorem number_reads {x : Float} {text : String} {r : List Face}
    (h : Decimal.read? text = some x) : Reads number [(.number, some text)] r x := by
  intro ts hts
  obtain ⟨t, mid, rfl, ht, hmid⟩ := List.map_eq_cons_iff.1 hts
  have hkind : t.kind = .number := congrArg Prod.fst ht
  have htext : t.content = text := by
    have h : t.text = some text := congrArg Prod.snd ht
    simp [Token.content, h]
  refine ⟨mid, hmid, ?_⟩
  rw [number, expect_eq_ok.2 ⟨rfl, hkind⟩]
  simp only [htext, h]

/-- Arguments are read if each of them is read before a comma or a parenthesis. -/
theorem arguments_reads {args : List Expr} {r : List Face}
    (h : ∀ a ∈ args, ∀ r, AfterExpr r → Reads expr a.faces r a) :
    Reads (arguments expr) (group (commas (args.map Expr.faces))) r args := by
  rw [group, List.cons_append]
  refine Reads.expect_bind fun _ _ => ?_
  cases args with
  | nil => exact Reads.accept_bind fun _ => Reads.pure [] r
  | cons a args =>
    refine Reads.accept_none_bind ?_ ?_
    · have hne := kindAt_faces a
      cases args with
      | nil =>
        rw [List.append_assoc]
        exact hne _ rfl
      | cons b args =>
        rw [List.append_assoc, List.map_cons, List.map_cons, commas, List.append_assoc]
        exact hne _ rfl
    · have hargs : Reads (commaSeparated expr) (commas ((a :: args).map Expr.faces))
          ([mark .rparen] ++ r) (a :: args) :=
        Reads.commaSeparated expr_advances.leaves afterExpr_comma (afterExpr_rparen r)
          (by simp [mark]) (List.cons_ne_nil _ _) h
      exact hargs.bind (Reads.expect_bind fun _ _ => Reads.pure _ r)

theorem call_reads {c : Call} {r : List Face}
    (h : ∀ a ∈ c.args, ∀ r, AfterExpr r → Reads expr a.faces r a) :
    Reads (call expr) c.toExpr.faces r c := by
  obtain ⟨receiver, method, args⟩ := c
  have hargs := arguments_reads (r := r) h
  simp only [Call.toExpr, Expr.faces, Expr.argFaces_eq]
  cases receiver with
  | none =>
    refine Reads.startsWith_bind ?_
    exact Reads.word_bind (hargs.map _)
  | some object =>
    refine Reads.startsWith_bind ?_
    refine Reads.word_bind (Reads.next_bind fun _ => Reads.word_bind (Reads.peekKind_bind ?_))
    exact hargs.map _

/-- An operand that is no operation is read as an atom. -/
def ReadsAtom (e : Expr) : Prop := ∀ r, AfterOperand r → Reads (atom expr) e.faces r e

theorem readsAtom_number {x : Float} (h : x.isNaN = false) : ReadsAtom (.number x) := by
  intro r _
  refine Reads.peekKind_bind (Reads.peekKind_bind ?_)
  rw [Expr.faces, numberFaces]
  by_cases hsign : signBit x = true
  · rw [if_pos hsign]
    have hread : Decimal.read? (numeral (-x)) = some (-x) := by
      refine Decimal.read?_magnitude (Fields.isNaN_neg h) ?_
      rw [Fields.signBit_neg h, hsign, Bool.not_true]
    have hnumber := (number_reads (r := r) hread).map fun y => Expr.number (-y)
    rw [Fields.neg_neg_eq h] at hnumber
    exact Reads.next_bind fun _ => hnumber
  · rw [if_neg hsign]
    have hread := Decimal.read?_magnitude h (Bool.eq_false_iff.2 hsign)
    exact (number_reads (r := r) hread).map Expr.number

theorem readsAtom_string (value : String) : ReadsAtom (.string value) := by
  intro r _
  refine Reads.peekKind_bind (Reads.peekKind_bind (Reads.expect_bind fun t ht => ?_))
  have htext : t.content = value := by
    have h : t.text = some value := congrArg Prod.snd ht
    simp [Token.content, h]
  rw [htext]
  exact Reads.pure _ r

theorem readsAtom_character (c : Char) : ReadsAtom (.character c) := by
  intro r _
  refine Reads.peekKind_bind (Reads.peekKind_bind (Reads.expect_bind fun t ht => ?_))
  have htext : t.content.toList.headD ' ' = c := by
    have h : t.text = some (String.ofList [c]) := congrArg Prod.snd ht
    simp [Token.content, h]
  rw [htext]
  exact Reads.pure _ r

theorem readsAtom_boolean (value : Bool) : ReadsAtom (.boolean value) := by
  intro r _
  refine Reads.peekKind_bind (Reads.peekKind_bind ?_)
  cases value with
  | true => exact Reads.next_bind fun _ => Reads.pure _ r
  | false => exact Reads.next_bind fun _ => Reads.pure _ r

/-- A name is no call if neither a dot nor a parenthesis follows. -/
theorem readsAtom_var (name : String) : ReadsAtom (.var name) := by
  intro r hr
  refine Reads.peekKind_bind (Reads.peekKind_bind ?_)
  have hfirst : kindAt ((Expr.var name).faces ++ r) 0 = some .word := rfl
  have hsecond : kindAt ((Expr.var name).faces ++ r) 1 = kindAt r 0 := rfl
  rw [hfirst, hsecond]
  have hdot := hr.dot
  have hparen := hr.lparen
  generalize kindAt r 0 = second at hdot hparen
  split
  case h_8 => exact absurd rfl hdot
  case h_9 => exact absurd rfl hparen
  case h_10 => exact Reads.word_bind (Reads.pure _ r)
  all_goals simp_all

theorem readsAtom_call {receiver : Option String} {method : String} {args : List Expr}
    (h : ∀ a ∈ args, ∀ r, AfterExpr r → Reads expr a.faces r a) :
    ReadsAtom (.call receiver method args) := by
  intro r _
  have hcall := call_reads (c := ⟨receiver, method, args⟩) (r := r) h
  refine Reads.peekKind_bind (Reads.peekKind_bind ?_)
  cases receiver with
  | none => exact hcall.map Call.toExpr
  | some object => exact hcall.map Call.toExpr

theorem readsAtom_construct {cls : String} {args : List Expr}
    (h : ∀ a ∈ args, ∀ r, AfterExpr r → Reads expr a.faces r a) :
    ReadsAtom (.construct cls args) := by
  intro r _
  refine Reads.peekKind_bind (Reads.peekKind_bind ?_)
  rw [Expr.faces, Expr.argFaces_eq]
  exact Reads.next_bind fun _ => Reads.word_bind ((arguments_reads h).map _)

/-- What is not an operation inside an expression, but not inside its arguments. -/
def leaves : Expr → List Expr
  | .logic _ l r | .compare _ l r | .arith _ l r => leaves l ++ leaves r
  | e => [e]

/-- What an expression says where it starts an assigned value, or elsewhere. -/
def facesAs (value : Bool) (e : Expr) : List Face := if value then e.valueFaces else e.faces

/-- What an operand to the right of an operator says. -/
def operandFaces (e : Expr) : List Face := if e.isArith then group e.faces else e.faces

theorem facesAs_arith (value : Bool) (op : ArithOp) (l r : Expr) :
    facesAs value (.arith op l r) = facesAs value l ++ mark op.kind :: operandFaces r := by
  cases value with
  | true => simp [facesAs, operandFaces, Expr.valueFaces]
  | false => simp [facesAs, operandFaces, Expr.faces]

theorem facesAs_compare (value : Bool) (op : CompareOp) (l r : Expr) :
    facesAs value (.compare op l r) = facesAs value l ++ mark op.kind :: r.faces := by
  cases value with
  | true => simp [facesAs, Expr.valueFaces]
  | false => simp [facesAs, Expr.faces]

theorem facesAs_logic (value : Bool) (op : LogicOp) (l r : Expr) :
    facesAs value (.logic op l r) = facesAs value l ++ mark op.kind :: r.faces := by
  cases value with
  | true => simp [facesAs, Expr.valueFaces]
  | false => simp [facesAs, Expr.faces]

theorem isOperand_leaf {e : Expr} (h : e.isArith = false) (hop : e.isOperand = true) :
    leaves e = [e] := by
  cases e with
  | arith _ _ _ => cases h
  | compare _ _ _ => cases hop
  | logic _ _ _ => cases hop
  | _ => rfl

/-- The operands to the right of an operator along a chain of arithmetic. -/
def rightOperands : Expr → List Expr
  | .arith _ l r => r :: rightOperands l
  | _ => []

theorem rightOperands_of_layered {e : Expr} (h : e.Everywhere Expr.Layered) :
    ∀ y ∈ rightOperands e, y.isOperand ∧ y.isFlat ∧ y.Everywhere Expr.Layered ∧
      (∀ x ∈ leaves y, x ∈ leaves e) ∧ (e.isFlat → y.isArith = false) := by
  match e with
  | .arith op l r =>
    obtain ⟨-, hr, hflat⟩ := h.here
    refine List.forall_mem_cons.2 ⟨⟨hr, hflat, ?_, ?_, ?_⟩, ?_⟩
    · exact h.inside r (List.mem_cons_of_mem _ List.mem_cons_self)
    · exact fun x hx => List.mem_append_right _ hx
    · intro hflat
      simp only [Expr.isFlat, Bool.and_eq_true, Bool.not_eq_true'] at hflat
      exact hflat.1
    · intro y hy
      obtain ⟨h1, h2, h3, h4, h5⟩ := rightOperands_of_layered (h.inside l List.mem_cons_self) y hy
      refine ⟨h1, h2, h3, fun x hx => List.mem_append_left _ (h4 x hx), fun hflat => h5 ?_⟩
      simp only [Expr.isFlat, Bool.and_eq_true] at hflat
      exact hflat.2
  | .boolean _ | .number _ | .string _ | .character _ | .var _ | .logic _ _ _ | .compare _ _ _
  | .call _ _ _ | .construct _ _ => exact List.forall_mem_nil _

/-- A chain of arithmetic, together with more steps after it, is read from its operands. -/
theorem chain_reads {item : Rule Expr} (hadvances : Advances item) (value : Bool) {e : Expr}
    (hop : e.isOperand = true) (hlayered : e.Everywhere Expr.Layered)
    (hleaf : ∀ x ∈ leaves e, x.isArith = false → x.isOperand = true → ∀ r, AfterOperand r →
      Reads item (facesAs value x) r x)
    (hright : ∀ y ∈ rightOperands e, ∀ r, AfterOperand r → Reads item (operandFaces y) r y)
    {steps : List (ArithOp × Expr)}
    (hsteps : ∀ s ∈ steps, ∀ r, AfterOperand r → Reads item (operandFaces s.2) r s.2)
    {r : List Face} (hr : AfterArith r) :
    Reads (chain arithOp? .arith item)
      (facesAs value e ++ steps.flatMap fun s => mark s.1.kind :: operandFaces s.2) r
      (steps.foldl (fun left s => .arith s.1 left s.2) e) := by
  cases harith : e.isArith with
  | false =>
    have hself : e ∈ leaves e := by
      rw [isOperand_leaf harith hop]
      exact List.mem_singleton_self e
    exact Reads.chain hadvances arithOp?_kind afterOperand_arith hr.toAfterOperand hr.arith
      (hleaf e hself harith hop) hsteps
  | true =>
    match e, harith with
    | .arith op left right, _ =>
      obtain ⟨hfirst, hmore⟩ := List.forall_mem_cons.1 hright
      have hboth : ∀ s ∈ (op, right) :: steps, ∀ r, AfterOperand r →
          Reads item (operandFaces s.2) r s.2 := List.forall_mem_cons.2 ⟨hfirst, hsteps⟩
      have hread := chain_reads hadvances value hlayered.here.1
        (hlayered.inside left List.mem_cons_self)
        (fun x hx => hleaf x (List.mem_append_left _ hx)) hmore hboth hr
      rw [facesAs_arith, List.append_assoc, List.cons_append]
      rwa [List.flatMap_cons, List.cons_append] at hread

theorem groupOperand_reads {e : Expr} (h : ReadsAtom e) {r : List Face} (hr : AfterOperand r) :
    Reads (groupOperand expr) e.faces r e := by
  intro ts hts
  obtain ⟨rest, hrest, hread⟩ := h r hr ts hts
  refine ⟨rest, hrest, ?_⟩
  have hkind : ts.head?.map Token.kind ≠ some .lparen := by
    rw [List.head?_eq_getElem?, ← kindAt_map_face, hts]
    exact kindAt_faces e r rfl
  unfold groupOperand
  split
  · exact absurd ‹_› hkind
  · exact hread

theorem group_reads {w r : List Face} {e : Expr}
    (h : Reads (chain arithOp? .arith (groupOperand expr)) w ([mark .rparen] ++ r) e) :
    Reads (operand expr) (group w) r e := by
  refine Reads.accept_bind fun _ => h.bind ?_
  exact Reads.expect_bind fun _ _ => Reads.pure e r

theorem afterArith_rparen (r : List Face) : AfterArith ([mark .rparen] ++ r) :=
  (afterExpr_rparen r).toAfterComparison.toAfterArith

theorem facesAs_leaf (value : Bool) {e : Expr} (harith : e.isArith = false)
    (hop : e.isOperand = true) : facesAs value e = e.faces ∨ facesAs value e = group e.faces := by
  cases value with
  | false => exact .inl rfl
  | true =>
    cases e with
    | arith _ _ _ => cases harith
    | compare _ _ _ => cases hop
    | logic _ _ _ => cases hop
    | call receiver _ _ =>
      cases receiver with
      | none => exact .inr rfl
      | some _ => exact .inl rfl
    | _ => exact .inl rfl

/-- An atom is read as an operand, also where it is the call that an assigned value starts with. -/
theorem operand_reads_leaf (value : Bool) {e : Expr} (h : ReadsAtom e) (harith : e.isArith = false)
    (hop : e.isOperand = true) (r : List Face) (hr : AfterOperand r) :
    Reads (operand expr) (facesAs value e) r e := by
  rcases facesAs_leaf value harith hop with heq | heq
  · rw [heq]
    exact Reads.accept_none_bind (kindAt_faces e r rfl) (h r hr)
  · rw [heq]
    have hend := afterArith_rparen r
    have hinner := groupOperand_reads h hend.toAfterOperand
    exact group_reads (Reads.chain_single (groupOperand_advances expr_advances.leaves) hend.arith
      hinner)

/-- An operand to the right of an operator is an atom or a group of atoms. -/
theorem operand_reads {e : Expr} (hop : e.isOperand = true) (hflat : e.isFlat = true)
    (hlayered : e.Everywhere Expr.Layered) (h : ∀ x ∈ leaves e, ReadsAtom x) (r : List Face)
    (hr : AfterOperand r) : Reads (operand expr) (operandFaces e) r e := by
  cases harith : e.isArith with
  | false =>
    have hself : ReadsAtom e := h e (by simp [isOperand_leaf harith hop])
    rw [operandFaces, harith]
    exact operand_reads_leaf false hself harith hop r hr
  | true =>
    rw [operandFaces, harith, if_pos rfl]
    refine group_reads ?_
    have hright : ∀ y ∈ rightOperands e, ∀ r, AfterOperand r →
        Reads (groupOperand expr) (operandFaces y) r y := by
      intro y hy r hr
      obtain ⟨hyop, -, -, hsub, hyarith⟩ := rightOperands_of_layered hlayered y hy
      have hself : ReadsAtom y := h y (hsub y (by simp [isOperand_leaf (hyarith hflat) hyop]))
      rw [operandFaces, hyarith hflat]
      exact groupOperand_reads hself hr
    have hread := chain_reads (groupOperand_advances expr_advances.leaves) false hop hlayered
      (fun x hx _ _ _ hr => groupOperand_reads (h x hx) hr) hright (List.forall_mem_nil _)
      (afterArith_rparen r)
    rwa [List.flatMap_nil, List.append_nil] at hread

theorem arithmetic_reads (value : Bool) {e : Expr} (hop : e.isOperand = true)
    (hlayered : e.Everywhere Expr.Layered) (h : ∀ x ∈ leaves e, ReadsAtom x) {r : List Face}
    (hr : AfterArith r) : Reads (arithmetic expr) (facesAs value e) r e := by
  have hright : ∀ y ∈ rightOperands e, ∀ r, AfterOperand r →
      Reads (operand expr) (operandFaces y) r y := by
    intro y hy
    obtain ⟨hyop, hyflat, hylayered, hsub, -⟩ := rightOperands_of_layered hlayered y hy
    exact operand_reads hyop hyflat hylayered fun x hx => h x (hsub x hx)
  have hread := chain_reads (operand_advances expr_advances.leaves) value hop hlayered
    (fun x hx => operand_reads_leaf value (h x hx)) hright (List.forall_mem_nil _) hr
  rwa [List.flatMap_nil, List.append_nil] at hread

theorem comparison_reads (value : Bool) {e : Expr} (hlogic : e.isLogic = false)
    (hlayered : e.Everywhere Expr.Layered) (h : ∀ x ∈ leaves e, ReadsAtom x) {r : List Face}
    (hr : AfterComparison r) : Reads (comparison expr) (facesAs value e) r e := by
  cases hcompare : e.isCompare with
  | false =>
    have hop : e.isOperand = true := by rw [Expr.isOperand, hcompare, hlogic]; rfl
    have hleft := arithmetic_reads value hop hlayered h hr.toAfterArith
    refine hleft.bind_nil (Reads.peekKind_bind ?_)
    rw [List.nil_append, hr.compare]
    exact Reads.pure e r
  | true =>
    match e, hcompare with
    | .compare op left right, _ =>
      obtain ⟨hl, hright⟩ := hlayered.here
      rw [facesAs_compare]
      have hleft := arithmetic_reads value hl (hlayered.inside left List.mem_cons_self)
        (fun x hx => h x (List.mem_append_left _ hx))
        (afterArith_compare op (right.faces ++ r))
      have hright := arithmetic_reads false hright
        (hlayered.inside right (List.mem_cons_of_mem _ List.mem_cons_self))
        (fun x hx => h x (List.mem_append_right _ hx)) hr.toAfterArith
      refine hleft.bind (Reads.peekKind_bind ?_)
      have hop : (kindAt (mark op.kind :: right.faces ++ r) 0).bind compareOp? = some op :=
        compareOp?_kind op
      rw [hop]
      exact Reads.next_bind fun _ => hright.map (Expr.compare op left)

/-- An expression, together with more steps after it, is read from the leaves of its parts. -/
theorem exprWith_reads (value : Bool) {e : Expr} (hlayered : e.Everywhere Expr.Layered)
    (h : ∀ x ∈ leaves e, ReadsAtom x) {steps : List (LogicOp × Expr)}
    (hsteps : ∀ s ∈ steps, ∀ r, AfterComparison r → Reads (comparison expr) s.2.faces r s.2)
    {r : List Face} (hr : AfterExpr r) :
    Reads (exprWith expr) (facesAs value e ++ steps.flatMap fun s => mark s.1.kind :: s.2.faces) r
      (steps.foldl (fun left s => .logic s.1 left s.2) e) := by
  cases hlogic : e.isLogic with
  | false =>
    exact Reads.chain (comparison_advances expr_advances.leaves) logicOp?_kind
      afterComparison_logic hr.toAfterComparison hr.logic
      (fun _ => comparison_reads value hlogic hlayered h) hsteps
  | true =>
    match e, hlogic with
    | .logic op left right, _ =>
      have hright : ∀ r, AfterComparison r → Reads (comparison expr) right.faces r right :=
        fun _ => comparison_reads false hlayered.here
          (hlayered.inside right (List.mem_cons_of_mem _ List.mem_cons_self))
          fun x hx => h x (List.mem_append_right _ hx)
      have hboth : ∀ s ∈ (op, right) :: steps, ∀ r, AfterComparison r →
          Reads (comparison expr) s.2.faces r s.2 := List.forall_mem_cons.2 ⟨hright, hsteps⟩
      have hread := exprWith_reads value (hlayered.inside left List.mem_cons_self)
        (fun x hx => h x (List.mem_append_left _ hx)) hboth hr
      rw [facesAs_logic, List.append_assoc, List.cons_append]
      rwa [List.flatMap_cons, List.cons_append] at hread

theorem expr_reads_of_leaves (value : Bool) {e : Expr} (hlayered : e.Everywhere Expr.Layered)
    (h : ∀ x ∈ leaves e, ReadsAtom x) {r : List Face} (hr : AfterExpr r) :
    Reads expr (facesAs value e) r e := by
  have hread := exprWith_reads value hlayered h (List.forall_mem_nil _) hr
  rw [List.flatMap_nil, List.append_nil] at hread
  rwa [expr_eq]

/-- The leaves of an expression of this shape are read, and so are their arguments: the induction
goes down through argument lists, and up again through the operators. -/
theorem leaves_readsAtom {e : Expr} (hlayered : e.Everywhere Expr.Layered)
    (hnumbers : e.Everywhere Expr.NotNaN) : ∀ x ∈ leaves e, ReadsAtom x := by
  induction hlayered with
  | @intro e here below ih =>
    have hargs : ∀ a ∈ e.children, ∀ r, AfterExpr r → Reads expr a.faces r a := by
      intro a ha r hr
      exact expr_reads_of_leaves false (below a ha) (ih a ha (hnumbers.inside a ha)) hr
    match e with
    | .logic _ l r | .compare _ l r | .arith _ l r =>
      intro x hx
      rcases List.mem_append.1 hx with hx | hx
      · exact ih l List.mem_cons_self (hnumbers.inside l List.mem_cons_self) x hx
      · have hr := List.mem_cons_of_mem l (List.mem_singleton_self r)
        exact ih r hr (hnumbers.inside r hr) x hx
    | .boolean value => exact List.forall_mem_singleton.2 (readsAtom_boolean value)
    | .number x => exact List.forall_mem_singleton.2 (readsAtom_number hnumbers.here)
    | .string value => exact List.forall_mem_singleton.2 (readsAtom_string value)
    | .character c => exact List.forall_mem_singleton.2 (readsAtom_character c)
    | .var name => exact List.forall_mem_singleton.2 (readsAtom_var name)
    | .call _ _ _ => exact List.forall_mem_singleton.2 (readsAtom_call hargs)
    | .construct _ _ => exact List.forall_mem_singleton.2 (readsAtom_construct hargs)

theorem expr_reads (value : Bool) {e : Expr} (hlayered : e.Everywhere Expr.Layered)
    (hnumbers : e.Everywhere Expr.NotNaN) (r : List Face) (hr : AfterExpr r) :
    Reads expr (facesAs value e) r e :=
  expr_reads_of_leaves value hlayered (leaves_readsAtom hlayered hnumbers) hr

/-- An expression that starts with a name has a dot, a parenthesis or an operator after it, or the
name is all of it. -/
theorem facesAs_second (value : Bool) (kind : Kind) (hdot : kind ≠ .dot)
    (hparen : kind = .lparen → value = true) (harith : arithOp? kind = none)
    (hcompare : compareOp? kind = none) (hlogic : logicOp? kind = none) (e : Expr) {r : List Face}
    (hr : kindAt r 0 ≠ some kind) :
    ¬(kindAt (facesAs value e ++ r) 0 = some .word ∧
      kindAt (facesAs value e ++ r) 1 = some kind) := by
  match e with
  | .arith op left right =>
    rw [facesAs_arith, List.append_assoc]
    refine facesAs_second value kind hdot hparen harith hcompare hlogic left fun h => ?_
    rw [← Option.some.inj h] at harith
    cases (arithOp?_kind op).symm.trans harith
  | .compare op left right =>
    rw [facesAs_compare, List.append_assoc]
    refine facesAs_second value kind hdot hparen harith hcompare hlogic left fun h => ?_
    rw [← Option.some.inj h] at hcompare
    cases (compareOp?_kind op).symm.trans hcompare
  | .logic op left right =>
    rw [facesAs_logic, List.append_assoc]
    refine facesAs_second value kind hdot hparen harith hcompare hlogic left fun h => ?_
    rw [← Option.some.inj h] at hlogic
    cases (logicOp?_kind op).symm.trans hlogic
  | .var name => cases value <;> exact fun h => hr h.2
  | .call (some object) method args =>
    cases value <;> exact fun h => hdot (Option.some.inj h.2).symm
  | .call none method args =>
    cases value with
    | true => exact fun h => nomatch Option.some.inj h.1
    | false => exact fun h => nomatch hparen (Option.some.inj h.2).symm
  | .number x =>
    have hfaces : facesAs value (.number x) = numberFaces x := by
      cases value <;> simp [facesAs, Expr.valueFaces, Expr.faces]
    rw [hfaces, numberFaces]
    split <;> exact fun h => nomatch Option.some.inj h.1
  | .boolean true | .boolean false | .string _ | .character _ | .construct _ _ =>
    cases value <;> exact fun h => nomatch Option.some.inj h.1

/-- A line end and an indented block, read before what follows the block. -/
theorem indented_reads {α β : Type} {item : Rule α} (hadvances : Advances item) {items : List α}
    {write : α → List Face} {f : List α → Rule β} {w r : List Face} {b : β}
    (h : ∀ a ∈ items, ReadsLine item (write a) a)
    (hf : Reads (f items) w r b) :
    Reads (lineEnd >>= fun _ => block item >>= f) (Face.block (items.flatMap write) ++ w) r b := by
  rw [Face.block, List.cons_append, List.cons_append]
  refine Reads.lineEnd_bind (by simp [mark]) ?_
  have hblock : Reads (block item) (mark .indent :: items.flatMap write ++ [mark .dedent]) (w ++ r)
      items := Reads.expect_bind fun _ _ => Reads.lines_map hadvances h
  exact hblock.bind hf

theorem indented_reads_map {α β : Type} {item : Rule α} (hadvances : Advances item)
    {items : List α} {write : α → List Face} (f : List α → β) {r : List Face}
    (h : ∀ a ∈ items, ReadsLine item (write a) a) :
    Reads (lineEnd >>= fun _ => block item >>= fun items => pure (f items))
      (Face.block (items.flatMap write)) r (f items) := by
  have hread := indented_reads (f := fun items => pure (f items)) hadvances h (Reads.pure _ r)
  rwa [List.append_nil] at hread

theorem startsLine_word (name : String) (w : List Face) : StartsLine (Face.word name :: w) := by
  refine ⟨List.cons_ne_nil _ _, ?_, ?_, ?_, ?_⟩ <;> simp [Face.word]

theorem assignment_reads {target : String} {value : Expr}
    (h : ∀ r, AfterExpr r → Reads expr value.valueFaces r value) :
    ReadsLine stmt (Stmt.assign target value).faces (.assign target value) := by
  rw [Stmt.faces]
  refine ⟨startsLine_word _ _, fun r hr => ?_⟩
  have hread : Reads assignment
      (Face.word target :: mark .assign :: (value.valueFaces ++ [mark .newline])) r
      (.assign target value) := by
    refine Reads.word_bind (Reads.expect_bind fun _ _ => ?_)
    exact (h _ (afterExpr_newline r)).bind (Reads.lineEnd_bind hr.newline (Reads.pure _ r))
  have hvalue : ¬(kindAt (value.valueFaces ++ (mark .newline :: r)) 0 = some .word ∧
      kindAt (value.valueFaces ++ (mark .newline :: r)) 1 = some .lparen) :=
    facesAs_second true .lparen (by decide) (fun _ => rfl) rfl rfl rfl value (by simp [mark])
  rw [stmt_eq]
  refine Reads.peekKind_bind (Reads.peekKind_bind (Reads.peekKind_bind (Reads.peekKind_bind ?_)))
  simp only [List.cons_append, List.append_assoc, List.nil_append, kindAt_cons_succ] at hread ⊢
  generalize kindAt (value.valueFaces ++ (mark .newline :: r)) 0 = third at hvalue ⊢
  generalize kindAt (value.valueFaces ++ (mark .newline :: r)) 1 = fourth at hvalue ⊢
  split
  case h_1 => exact absurd ⟨rfl, rfl⟩ hvalue
  case h_2 => exact hread
  all_goals simp_all [mark]

theorem targetFaces_concat (names : List String) (last : String) :
    Stmt.targetFaces (names ++ [last]) =
      (names.flatMap fun name => [Face.word name, mark .comma]) ++
        [Face.word last, mark .assign] := by
  induction names with
  | nil => rfl
  | cons name names ih =>
    rw [List.flatMap_cons, List.append_assoc, ← ih]
    cases names with
    | nil => rfl
    | cons next names => rfl

theorem commaTargets_reads (names : List String) {r : List Face}
    (hr : ¬(kindAt r 0 = some .word ∧ kindAt r 1 = some .comma)) :
    Reads commaTargets (names.flatMap fun name => [Face.word name, mark .comma]) r names := by
  induction names with
  | nil =>
    rw [commaTargets_eq]
    refine Reads.startsWith_bind ?_
    rw [List.flatMap_nil, List.nil_append, decide_eq_false hr]
    exact Reads.pure [] r
  | cons name names ih =>
    rw [commaTargets_eq]
    refine Reads.startsWith_bind ?_
    rw [List.flatMap_cons]
    exact Reads.word_bind (Reads.next_bind fun _ => ih.map (name :: ·))

/-- Targets are read before a call, which starts with a name that no target mark follows. -/
theorem targets_reads (names : List String) {r : List Face}
    (hcomma : ¬(kindAt r 0 = some .word ∧ kindAt r 1 = some .comma))
    (hassign : ¬(kindAt r 0 = some .word ∧ kindAt r 1 = some .assign)) :
    Reads targets (Stmt.targetFaces names) r names := by
  rcases List.eq_nil_or_concat names with rfl | ⟨others, last, rfl⟩
  · have hnone : Reads commaTargets [] r [] := commaTargets_reads [] hcomma
    refine hnone.bind_nil (Reads.startsWith_bind ?_)
    rw [List.nil_append, decide_eq_false hassign]
    exact Reads.pure [] r
  · rw [List.concat_eq_append, targetFaces_concat]
    have hlast : ¬(kindAt ([Face.word last, mark .assign] ++ r) 0 = some .word ∧
        kindAt ([Face.word last, mark .assign] ++ r) 1 = some .comma) := fun h => nomatch h.2
    refine (commaTargets_reads others hlast).bind (Reads.startsWith_bind ?_)
    exact Reads.word_bind (Reads.next_bind fun _ => Reads.pure _ r)

theorem call_faces (c : Call) : ∃ name w,
    c.toExpr.faces = Face.word name :: mark (if c.receiver.isNone then .lparen else .dot) :: w := by
  obtain ⟨receiver, method, args⟩ := c
  cases receiver with
  | none => exact ⟨_, _, rfl⟩
  | some object => exact ⟨_, _, rfl⟩

theorem stmt_reads_of_call {s : Stmt} {w r : List Face} (h : Reads callStatement w r s)
    (hfirst : kindAt (w ++ r) 0 = some .word)
    (hsecond : kindAt (w ++ r) 1 = some .comma ∨ kindAt (w ++ r) 1 = some .dot ∨
      kindAt (w ++ r) 1 = some .lparen ∨ (kindAt (w ++ r) 1 = some .assign ∧
        kindAt (w ++ r) 2 = some .word ∧ kindAt (w ++ r) 3 = some .lparen)) :
    Reads stmt w r s := by
  rw [stmt_eq]
  refine Reads.peekKind_bind ?_
  rw [hfirst]
  refine Reads.peekKind_bind (Reads.peekKind_bind (Reads.peekKind_bind ?_))
  rcases hsecond with hkind | hkind | hkind | ⟨hkind, hthird, hfourth⟩
  · rw [hkind]
    exact h
  · rw [hkind]
    exact h
  · rw [hkind]
    exact h
  · rw [hkind, hthird, hfourth]
    exact h

theorem callStatement_reads {names : List String} {c : Call}
    (hplain : names.length = 1 → c.receiver = none)
    (h : ∀ a ∈ c.args, ∀ r, AfterExpr r → Reads expr a.faces r a) :
    ReadsLine stmt (Stmt.call names c).faces (.call names c) := by
  obtain ⟨name, w, hw⟩ := call_faces c
  have hread : ∀ r, AtLine r → Reads callStatement (Stmt.call names c).faces r (.call names c) := by
    intro r hr
    rw [Stmt.faces, List.append_assoc]
    refine (targets_reads names ?_ ?_).bind ?_
    · rw [hw]
      cases c.receiver <;> exact fun h => nomatch h.2
    · rw [hw]
      cases c.receiver <;> exact fun h => nomatch h.2
    · exact (call_reads h).bind (Reads.lineEnd_bind hr.newline (Reads.pure _ r))
  rw [Stmt.faces, hw] at hread ⊢
  match names with
  | [] =>
    refine ⟨startsLine_word _ _, fun r hr => stmt_reads_of_call (hread r hr) rfl ?_⟩
    cases c.receiver with
    | none => exact .inr (.inr (.inl rfl))
    | some object => exact .inr (.inl rfl)
  | [target] =>
    rw [hplain rfl] at hread ⊢
    refine ⟨startsLine_word _ _, fun r hr => stmt_reads_of_call (hread r hr) rfl ?_⟩
    exact .inr (.inr (.inr ⟨rfl, rfl, rfl⟩))
  | target :: other :: others =>
    refine ⟨startsLine_word _ _, fun r hr => stmt_reads_of_call (hread r hr) rfl ?_⟩
    exact .inl rfl

theorem startsLine_mark {kind : Kind} (h : kind ∉ [.dedent, .newline, .indent, .keyElse])
    (w : List Face) : StartsLine (mark kind :: w) := by
  simp only [List.mem_cons, List.not_mem_nil, not_or] at h
  refine ⟨List.cons_ne_nil _ _, ?_, ?_, ?_, ?_⟩ <;> simp [mark, h]

theorem afterExpr_block (w r : List Face) : AfterExpr (Face.block w ++ r) := afterExpr_newline _

theorem loop_reads {item : Option String} {source : Expr} {body : List Stmt}
    (hsource : ∀ r, AfterExpr r → Reads expr source.faces r source)
    (hbody : ∀ s ∈ body, ReadsLine stmt s.faces s) :
    ReadsLine stmt (Stmt.loop item source body).faces (.loop item source body) := by
  cases item with
  | none =>
    rw [Stmt.faces, Stmt.bodyFaces_eq, List.cons_append, List.nil_append, List.cons_append]
    refine ⟨startsLine_mark (by decide) _, fun r hr => ?_⟩
    rw [stmt_eq]
    refine Reads.peekKind_bind (Reads.next_bind fun _ => ?_)
    refine Reads.nil_bind (a := none) ?_ ?_
    · refine Reads.startsWith_bind ?_
      have hitem : ¬(kindAt (source.faces ++ (Face.block (body.flatMap Stmt.faces) ++ r)) 0 =
          some .word ∧ kindAt (source.faces ++ (Face.block (body.flatMap Stmt.faces) ++ r)) 1 =
            some .assign) :=
        facesAs_second false .assign (by decide) (fun h => nomatch h) rfl rfl rfl source
          fun h => nomatch h
      rw [List.nil_append, List.append_assoc, decide_eq_false hitem]
      exact Reads.pure none _
    · refine (hsource _ (afterExpr_block _ r)).bind ?_
      exact indented_reads_map stmt_advances (Stmt.loop none source) hbody
  | some name =>
    rw [Stmt.faces, Stmt.bodyFaces_eq]
    refine ⟨startsLine_mark (by decide) _, fun r hr => ?_⟩
    rw [stmt_eq]
    refine Reads.peekKind_bind (Reads.next_bind fun _ => ?_)
    refine Reads.bind (u := [Face.word name, mark .assign]) (a := some name) ?_ ?_
    · exact Reads.startsWith_bind (Reads.word_bind (Reads.next_bind fun _ => Reads.pure _ _))
    · refine (hsource _ (afterExpr_block _ r)).bind ?_
      exact indented_reads_map stmt_advances (Stmt.loop (some name) source) hbody

theorem branch_reads {condition : Expr} {thenBody : List Stmt} {elseBody : Option (List Stmt)}
    (hcondition : ∀ r, AfterExpr r → Reads expr condition.faces r condition)
    (hthen : ∀ s ∈ thenBody, ReadsLine stmt s.faces s)
    (helse : ∀ body ∈ elseBody, ∀ s ∈ body, ReadsLine stmt s.faces s) :
    ReadsLine stmt (Stmt.branch condition thenBody elseBody).faces
      (.branch condition thenBody elseBody) := by
  cases elseBody with
  | none =>
    rw [Stmt.faces, Stmt.bodyFaces_eq]
    refine ⟨startsLine_mark (by decide) _, fun r hr => ?_⟩
    rw [stmt_eq, List.append_assoc]
    refine Reads.peekKind_bind (Reads.next_bind fun _ => ?_)
    refine (hcondition _ (afterExpr_newline _)).bind ?_
    refine indented_reads stmt_advances hthen ?_
    exact Reads.accept_none_bind hr.alternative (Reads.pure _ r)
  | some body =>
    rw [Stmt.faces, Stmt.bodyFaces_eq, Stmt.bodyFaces_eq]
    refine ⟨startsLine_mark (by decide) _, fun r hr => ?_⟩
    rw [stmt_eq, List.append_assoc]
    refine Reads.peekKind_bind (Reads.next_bind fun _ => ?_)
    refine (hcondition _ (afterExpr_newline _)).bind ?_
    refine indented_reads stmt_advances hthen ?_
    refine Reads.accept_bind fun _ => Reads.peekKind_bind ?_
    exact indented_reads_map stmt_advances (fun body => Stmt.branch condition thenBody (some body))
      (helse body rfl)

/-- Statements of this shape are read, at every depth. -/
theorem stmt_reads {s : Stmt} (hshape : s.Everywhere .shape)
    (hnumbers : s.Everywhere .numbers) : ReadsLine stmt s.faces s := by
  induction hshape with
  | @intro s here exprs below ih =>
    have hexprs : ∀ e ∈ s.exprs, ∀ value r, AfterExpr r → Reads expr (facesAs value e) r e :=
      fun e he value => expr_reads value (exprs e he) (hnumbers.inExprs e he)
    have hbodies : ∀ c ∈ s.children, ReadsLine stmt c.faces c :=
      fun c hc => ih c hc (hnumbers.inside c hc)
    match s with
    | .assign target value => exact assignment_reads (hexprs value List.mem_cons_self true)
    | .call names c => exact callStatement_reads here fun a ha => hexprs a ha false
    | .loop item source body => exact loop_reads (hexprs source List.mem_cons_self false) hbodies
    | .branch condition thenBody elseBody =>
      refine branch_reads (hexprs condition List.mem_cons_self false) ?_ ?_
      · exact fun c hc => hbodies c (List.mem_append_left _ hc)
      · rintro body rfl c hc
        exact hbodies c (List.mem_append_right _ hc)

end Offside.Grammar
