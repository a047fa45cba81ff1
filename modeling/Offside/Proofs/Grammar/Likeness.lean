import Offside.Proofs.Grammar.Progress
import Offside.Proofs.Rule.Likeness

/-!
The grammar carries every likeness: expressions and the other parts of a line inside the line,
statements and declarations from line to line and from block to block. The rules that look at more
than one token take, or refuse, all but the last of those they look at.
-/
namespace Offside.Grammar

open Rule

theorem declaration_two : TakesTwo declaration := by
  refine (word_advances _).bind_two fun first => (word_advances _).bind fun second => ?_
  split
  · exact pure_leaves _
  · exact pure_leaves _

theorem arithOp_operators : Operators arithOp? := ⟨by decide, by decide⟩

theorem compareOp_operators : Operators compareOp? := ⟨by decide, by decide⟩

theorem logicOp_operators : Operators logicOp? := ⟨by decide, by decide⟩

section Line

variable {L : Likeness}

theorem number_carries : Enters L number := by
  intro inside depth
  refine .of_head number_advances ?_
  intro t t' ts us x rest hface hts hlike hok hspared
  unfold number at hok ⊢
  have hkind := Token.kind_eq_of_face hface
  by_cases ht : t.kind = .number
  · simp only [expect, if_pos ht, if_pos (hkind.trans ht), Token.content_eq_of_face hface] at hok ⊢
    cases hread : Decimal.read? t.content with
    | none =>
      rw [hread] at hok
      cases hok
    | some y =>
      rw [hread] at hok
      cases hok
      exact ⟨us, rfl, L.word hlike hts (by rw [ht]; decide)⟩
  · simp only [expect, if_neg ht] at hok
    cases hok

theorem arguments_carries {p : Rule Expr} (h : Enters L p) : Enters L (arguments p) := by
  intro inside depth
  have hargs : Enters L (commaSeparated p) := Carries.commaSeparated h
  refine .expect_bind (L.passes (by decide)) (fun _ _ _ => rfl) fun _ => ?_
  refine .accept_bind (L.passes (by decide)) (.inr ?_) (fun _ _ => rfl) (fun _ => .pure []) ?_
  · refine (hargs true depth).leaves.bind_advances fun args => ?_
    exact (expect_advances _ _).bind fun _ => pure_leaves _
  · refine (hargs true depth).bind fun args => ?_
    exact .expect_bind (L.passes (by decide)) (fun _ _ _ => rfl) fun _ => .pure args

theorem call_two {p : Rule Expr} (h : LeavesSuffix p) : TakesTwo (call p) := by
  refine (startsWith_leaves _ _).bind_two fun qualified => ?_
  cases qualified with
  | true =>
    refine (word_advances _).bind_two fun receiver => next_leaves.bind_advances fun _ => ?_
    refine (word_advances _).bind fun method => (peekKind_leaves 0).bind fun kind => ?_
    split
    · exact (arguments_leaves h).bind fun args => pure_leaves _
    · exact pure_leaves _
  | false =>
    refine (word_advances _).bind_two fun method => ?_
    exact (arguments_advances h).bind fun args => pure_leaves _

theorem call_carries {p : Rule Expr} (h : Enters L p) : Enters L (call p) := by
  intro inside depth
  have hargs := arguments_carries h
  have hp : LeavesSuffix p := (h true depth).leaves
  refine .named_bind "object name" (by decide) (by decide) rfl (fun receiver => ?_) ?_
    (fun receiver => ?_) ?_
  · refine (word_advances _).bind fun method => (peekKind_leaves 0).bind fun kind => ?_
    split
    · exact (arguments_leaves hp).bind fun args => pure_leaves _
    · exact pure_leaves _
  · exact (word_advances _).bind fun method => (arguments_leaves hp).bind fun args => pure_leaves _
  · refine (Carries.word _ true depth).bind fun method => .choice (by decide) ?_ ?_ (.pure _)
    · exact (arguments_advances hp).bind fun args => pure_leaves _
    · exact (hargs true depth).map _
  · exact (Carries.word _ inside depth).bind fun method => (hargs true depth).map _

theorem atom_carries {p : Rule Expr} (h : Enters L p) : Enters L (atom p) := by
  intro inside depth
  have hp : LeavesSuffix p := (h true depth).leaves
  have hcall := (call_carries h inside depth).map Call.toExpr
  have htwo : TakesTwo (call p >>= fun c => pure c.toExpr : Rule Expr) :=
    (call_two hp).bind fun _ => pure_leaves _
  refine .of_head (atom_advances hp) ?_
  intro t t' ts us e rest hface hts hlike hok hspared
  have hkind : (t' :: us)[0]?.map Token.kind = (t :: ts)[0]?.map Token.kind :=
    congrArg some (Token.kind_eq_of_face hface)
  have hword : ∀ k, (t :: ts)[0]?.map Token.kind = some k → k ∉ layoutKinds →
      t.kind ∉ layoutKinds ∧ L.like (true, depth) ts us := by
    intro k hk hline
    have ht : t.kind ∉ layoutKinds := Option.some.inj hk ▸ hline
    exact ⟨ht, L.word hlike hts ht⟩
  rw [atom, peekKind_bind, peekKind_bind] at hok ⊢
  rw [hkind]
  generalize hfirst : (t :: ts)[0]?.map Token.kind = first at hok ⊢
  generalize hsecond : (t :: ts)[1]?.map Token.kind = second at hok
  generalize hsecond' : (t' :: us)[1]?.map Token.kind = second'
  split at hok
  case h_1 =>
    exact ((number_carries inside depth).map Expr.number).carry _ _ _ _ hlike hok hspared
  case h_2 =>
    have hline := (hword _ hfirst (by decide)).2
    obtain ⟨u, mid, rfl, hrest⟩ :=
      (number_advances.bind fun x => pure_leaves (Expr.number (-x))).exists_cons hok
    obtain ⟨u', us, rfl, hface'⟩ := L.same_of_suffix hline hrest hspared
    have hu : second' = some .number := by
      rw [← hsecond, ← hsecond']
      exact congrArg some (Token.kind_eq_of_face hface')
    rw [hu]
    exact ((number_carries true depth).map fun x => Expr.number (-x)).carry _ _ _ _ hline hok
      hspared
  case h_3 =>
    exact (Carries.literal (by decide) Expr.string inside depth).carry _ _ _ _ hlike hok hspared
  case h_4 =>
    exact (Carries.literal (by decide) (fun text => Expr.character (text.toList.headD ' '))
      inside depth).carry _ _ _ _ hlike hok hspared
  case h_5 =>
    have hline := (hword _ hfirst (by decide)).2
    exact (Carries.pure (Expr.boolean true)).carry _ _ _ _ hline hok hspared
  case h_6 =>
    have hline := (hword _ hfirst (by decide)).2
    exact (Carries.pure (Expr.boolean false)).carry _ _ _ _ hline hok hspared
  case h_7 =>
    have hline := (hword _ hfirst (by decide)).2
    refine ((Carries.word _ true depth).bind fun cls => ?_).carry _ _ _ _ hline hok hspared
    exact (arguments_carries h true depth).map (Expr.construct cls ·)
  case h_8 =>
    obtain ⟨hhead, hcalled⟩ :=
      hcall.carry_two htwo hlike (hword _ hfirst (by decide)).1 hok hspared
    have hu : second' = some .dot := by
      rw [← hsecond, ← hsecond']
      exact hhead
    rw [hu]
    exact hcalled
  case h_9 =>
    obtain ⟨hhead, hcalled⟩ :=
      hcall.carry_two htwo hlike (hword _ hfirst (by decide)).1 hok hspared
    have hu : second' = some .lparen := by
      rw [← hsecond, ← hsecond']
      exact hhead
    rw [hu]
    exact hcalled
  case h_10 hdot hparen =>
    have hline := (hword _ hfirst (by decide)).2
    subst hsecond hsecond'
    have hdot' : (t' :: us)[1]?.map Token.kind ≠ some .dot := L.headKind_ne hline hdot (by decide)
    have hparen' : (t' :: us)[1]?.map Token.kind ≠ some .lparen :=
      L.headKind_ne hline hparen (by decide)
    simp only
    exact ((Carries.word _ inside depth).map Expr.var).carry _ _ _ _ hlike hok hspared
  case h_11 => cases hok

theorem groupOperand_carries {p : Rule Expr} (h : Enters L p) : Enters L (groupOperand p) := by
  intro inside depth
  refine .of_head (groupOperand_advances (h true depth).leaves) ?_
  intro t t' ts us e rest hface hts hlike hok hspared
  unfold groupOperand at hok ⊢
  rw [List.head?_cons, Option.map_some] at hok ⊢
  rw [Token.kind_eq_of_face hface]
  split at hok
  · cases hok
  · exact (atom_carries h inside depth).carry _ _ _ _ hlike hok hspared

theorem operand_carries {p : Rule Expr} (h : Enters L p) : Enters L (operand p) := by
  intro inside depth
  have hp : LeavesSuffix p := (h true depth).leaves
  refine .accept_bind (L.passes (by decide)) (.inl (by decide)) (fun _ _ => rfl) (fun _ => ?_)
    (atom_carries h inside depth)
  refine (Carries.chain arithOp_operators (groupOperand_advances hp) (groupOperand_carries h)
    true depth).bind fun inner => ?_
  exact .expect_bind (L.passes (by decide)) (fun _ _ _ => rfl) fun _ => .pure inner

theorem arithmetic_carries {p : Rule Expr} (h : Enters L p) : Enters L (arithmetic p) :=
  Carries.chain arithOp_operators (operand_advances (h true 0).leaves) (operand_carries h)

theorem comparison_carries {p : Rule Expr} (h : Enters L p) : Enters L (comparison p) := by
  intro inside depth
  have harith := arithmetic_carries h
  refine (harith inside depth).bind fun left => ?_
  refine .operator_bind compareOp_operators (fun k hk => ?_) (fun k op hop => ?_) (.pure left)
    fun op => (harith true depth).map (.compare op left ·)
  · rw [hk]
  · rw [Option.bind_some, hop]

theorem expr_carries : Enters L expr := by
  intro inside depth
  refine .fix exprWith_guarded fun n => ?_
  induction n generalizing inside depth with
  | zero => exact .refuse _
  | succ n ih =>
    exact Carries.chain logicOp_operators (comparison_advances (ih true 0).leaves)
      (comparison_carries ih) inside depth

theorem declaration_carries : Enters L declaration := by
  intro inside depth
  refine (Carries.word _ inside depth).bind fun first => ?_
  refine (Carries.word _ true depth).bind fun second => ?_
  split
  · exact .pure _
  · exact .pure _

theorem parameters_carries : Enters L parameters := by
  intro inside depth
  have hparams : Enters L (commaSeparated declaration) := Carries.commaSeparated declaration_carries
  refine .expect_bind (L.passes (by decide)) (fun _ _ _ => rfl) fun _ => ?_
  refine .accept_bind (L.passes (by decide)) (.inr ?_) (fun _ _ => rfl) (fun _ => .pure []) ?_
  · refine (hparams true depth).leaves.bind_advances fun params => ?_
    exact (expect_advances _ _).bind fun _ => pure_leaves _
  · refine (hparams true depth).bind fun params => ?_
    exact .expect_bind (L.passes (by decide)) (fun _ _ _ => rfl) fun _ => .pure params

theorem returns_carries {depth : Nat} : Carries L (true, depth) returns (true, depth) := by
  refine .accept_bind (L.passes (by decide)) (.inl (by decide)) (fun _ _ => rfl) (fun _ => ?_)
    (.pure [])
  exact Carries.commaSeparated declaration_carries true depth

theorem interfaceNames_carries {depth : Nat} :
    Carries L (true, depth) (do
      match ← accept .keyImplements with
      | some _ => commaSeparated (word "interface name")
      | none => return [] : Rule (List String)) (true, depth) := by
  refine .accept_bind (L.passes (by decide)) (.inl (by decide)) (fun _ _ => rfl) (fun _ => ?_)
    (.pure [])
  exact Carries.commaSeparated (Carries.word _) true depth

end Line

section Blocks

variable {L : Layers} {inside : Bool} {depth : Nat}

theorem block_carries {α : Type} {item : Rule α} (hadvances : Advances item)
    (h : ∀ depth, Carries L.toLikeness (false, depth) item (false, depth)) :
    Carries L.toLikeness (false, depth) (block item) (false, depth) :=
  .expect_bind Layers.passes_indent (fun _ _ _ => rfl) fun _ => Layers.carries_lines hadvances h

theorem optionalLines_carries {α : Type} {item : Rule α} (hadvances : Advances item)
    (h : ∀ depth, Carries L.toLikeness (false, depth) item (false, depth)) :
    Carries L.toLikeness (false, depth) (do
      match ← accept .indent with
      | some _ => lines item
      | none => return [] : Rule (List α)) (false, depth) :=
  .accept_bind Layers.passes_indent (.inl (by decide)) (fun _ _ => rfl)
    (fun _ => Layers.carries_lines hadvances h) (.pure [])

theorem assignment_carries :
    Carries L.toLikeness (inside, depth) assignment (false, depth) := by
  refine (Carries.word _ inside depth).bind fun target => ?_
  refine .expect_bind (L.passes (by decide)) (fun _ _ _ => rfl) fun _ => ?_
  exact (expr_carries true depth).bind fun value => Layers.carries_lineEnd.map _

/-- Targets are read on as long as something must follow them. -/
theorem commaTargets_bind_carries {α : Type} {s' : Bool × Nat} {f : List String → Rule α}
    (hadvances : ∀ names, Advances (f names))
    (h : ∀ inside names, Carries L.toLikeness (inside, depth) (f names) s') :
    Carries L.toLikeness (inside, depth) (commaTargets >>= f) s' := by
  refine .of_unroll commaTargets_guarded (F := fun p => p >>= f)
    (fun n p q hpq => hpq.bind fun names => .refl (hadvances names).leaves n) fun n => ?_
  induction n generalizing inside f with
  | zero => exact (Carries.refuse _).bind (h true)
  | succ n ih =>
    rw [unroll, bind_assoc]
    have hagain := unroll_leaves commaTargets_guarded.leaves n
    refine .named_bind "variable name" (by decide) (by decide) ?_
      (fun name => hagain.bind_advances fun more => hadvances (name :: more)) (hadvances [])
      (fun name => ih (fun more => hadvances (name :: more)) fun inside more =>
        h inside (name :: more)) (h inside [])
    simp only [if_true, bind_assoc]
    rfl

theorem targets_bind_carries {α : Type} {s' : Bool × Nat} {f : List String → Rule α}
    (hadvances : ∀ names, Advances (f names))
    (h : ∀ inside names, Carries L.toLikeness (inside, depth) (f names) s') :
    Carries L.toLikeness (inside, depth) (targets >>= f) s' := by
  rw [targets, bind_assoc]
  refine commaTargets_bind_carries (fun first => ?_) fun inside first => ?_
  · exact (lastTarget_leaves first).bind_advances hadvances
  · rw [bind_assoc]
    refine .named_bind "variable name" (by decide) (by decide) ?_
      (fun name => hadvances (first ++ [name])) ?_ (fun name => h true (first ++ [name])) ?_
    · simp only [if_true, bind_assoc]
      rfl
    · cases first with
      | nil => exact hadvances []
      | cons name more => exact (refuse_advances _).bind fun names => (hadvances names).leaves
    · cases first with
      | nil => exact h inside []
      | cons name more => exact (Carries.refuse _).bind (h true)

theorem callStatement_carries :
    Carries L.toLikeness (inside, depth) callStatement (false, depth) := by
  refine targets_bind_carries (fun names => ?_) fun inside names => ?_
  · refine (call_advances expr_advances.leaves).bind fun target => ?_
    exact lineEnd_leaves.bind fun _ => pure_leaves _
  · exact (call_carries expr_carries inside depth).bind fun target => Layers.carries_lineEnd.map _

theorem loopItem_bind_carries {α : Type} {s' : Bool × Nat} {f : Option String → Rule α}
    (hadvances : ∀ item, Advances (f item))
    (h : ∀ inside item, Carries L.toLikeness (inside, depth) (f item) s') :
    Carries L.toLikeness (inside, depth) ((do
      if ← startsWith .word .assign then do
        let name ← word "loop variable"
        let _ ← next
        return some name
      else return none : Rule (Option String)) >>= f) s' := by
  rw [bind_assoc]
  refine .named_bind "loop variable" (by decide) (by decide) ?_
    (fun name => hadvances (some name)) (hadvances none) (fun name => h true (some name))
    (h inside none)
  simp only [if_true, bind_assoc]
  rfl

theorem loop_carries {p : Rule Stmt} (hadvances : Advances p)
    (h : ∀ inside depth, Carries L.toLikeness (inside, depth) p (false, depth)) :
    CarriesWord L.toLikeness depth (loop p) (false, depth) := by
  refine Carries.next_bind (fun _ _ => rfl) fun _ => loopItem_bind_carries (fun item => ?_)
    fun inside item => ?_
  · refine expr_advances.bind fun source => lineEnd_leaves.bind fun _ => ?_
    exact (block_advances hadvances.leaves).leaves.bind fun body => pure_leaves _
  · refine (expr_carries inside depth).bind fun source => Layers.carries_lineEnd.bind fun _ => ?_
    exact (block_carries hadvances (h false)).map _

theorem branch_carries {p : Rule Stmt} (hadvances : Advances p)
    (h : ∀ inside depth, Carries L.toLikeness (inside, depth) p (false, depth)) :
    CarriesWord L.toLikeness depth (branch p) (false, depth) := by
  have hblock : Carries L.toLikeness (false, depth) (block p) (false, depth) :=
    block_carries hadvances (h false)
  refine Carries.next_bind (fun _ _ => rfl) fun _ => ?_
  refine (expr_carries true depth).bind fun condition => ?_
  refine Layers.carries_lineEnd.bind fun _ => hblock.bind fun thenBody => ?_
  refine .accept_bind (L.passes (by decide)) (.inl (by decide)) (fun _ _ => rfl) (fun _ => ?_)
    (.pure _)
  refine .choice (by decide) (hadvances.bind fun s => pure_leaves _) ((h true depth).map _) ?_
  exact Layers.carries_lineEnd.bind fun _ => hblock.map _

theorem targets_of_assign {t u : Token} (ht : t.kind = .word) (hu : u.kind = .assign)
    (ts : List Token) : targets (t :: u :: ts) = .ok ([t.content], ts) := by
  have hnone : commaTargets (t :: u :: ts) = .ok ([], t :: u :: ts) := by
    rw [commaTargets_eq, startsWith_bind]
    simp [hu]
  rw [targets, bind_of_ok hnone, startsWith_bind]
  simp only [List.getElem?_cons_zero, List.getElem?_cons_succ, Option.map_some, ht, hu,
    and_self, decide_true, if_true]
  rw [word_bind_of_eq ht]
  rfl

theorem callStatement_two : TakesTwo callStatement := by
  refine targets_leaves.bind_two fun names => (call_two expr_advances.leaves).bind fun target => ?_
  exact lineEnd_leaves.bind fun _ => pure_leaves _

/-- What an assignment takes up to the first token of its value. -/
theorem exists_of_assignment {t : Token} {ts rest : List Token} {s : Stmt}
    (h : assignment (t :: ts) = .ok (s, rest)) :
    ∃ u v mid, ts = u :: v :: mid ∧ rest <:+ mid := by
  obtain ⟨target, after, hword, hafter⟩ := bind_eq_ok.1 h
  obtain ⟨t, heq, -⟩ := word_eq_ok.1 hword
  cases heq
  have htwo : TakesTwo (expect .assign "'='" >>= fun _ => expr >>= fun value =>
      lineEnd >>= fun _ => pure (.assign target value) : Rule Stmt) :=
    (expect_advances _ _).bind_two fun _ => expr_advances.bind fun value =>
      lineEnd_leaves.bind fun _ => pure_leaves _
  exact htwo _ _ _ hafter

/-- What a call statement with one target takes up to its argument list. -/
theorem exists_of_callStatement {t u : Token} {ts rest : List Token} {s : Stmt}
    (ht : t.kind = .word) (hu : u.kind = .assign)
    (h : callStatement (t :: u :: ts) = .ok (s, rest)) :
    ∃ v w mid, ts = v :: w :: mid ∧ rest <:+ mid := by
  have htwo : TakesTwo (call expr >>= fun target => lineEnd >>= fun _ =>
      pure (.call [t.content] target) : Rule Stmt) :=
    (call_two expr_advances.leaves).bind fun _ => lineEnd_leaves.bind fun _ => pure_leaves _
  rw [callStatement, bind_of_ok (targets_of_assign ht hu ts)] at h
  exact htwo _ _ _ h

theorem stmtWith_carries {p : Rule Stmt} (hadvances : Advances p)
    (h : ∀ inside depth, Carries L.toLikeness (inside, depth) p (false, depth)) :
    Carries L.toLikeness (inside, depth) (stmtWith p) (false, depth) := by
  refine .of_head (stmtWith_advances hadvances.leaves) ?_
  intro t t' ts us s rest hface hts hlike hok hspared
  have hkind : (t' :: us)[0]?.map Token.kind = (t :: ts)[0]?.map Token.kind :=
    congrArg some (Token.kind_eq_of_face hface)
  have hline : ∀ k, (t :: ts)[0]?.map Token.kind = some k → k ∉ layoutKinds →
      t.kind ∉ layoutKinds := fun k hk hmem => Option.some.inj hk ▸ hmem
  rw [stmtWith, peekKind_bind] at hok ⊢
  rw [hkind]
  generalize hfirst : (t :: ts)[0]?.map Token.kind = first at hok ⊢
  split at hok
  case h_1 =>
    exact loop_carries hadvances h inside t t' ts us s rest (hline _ hfirst (by decide)) hlike hok
      hspared
  case h_2 =>
    exact branch_carries hadvances h inside t t' ts us s rest (hline _ hfirst (by decide)) hlike
      hok hspared
  case h_3 =>
    have ht : t.kind = .word := Option.some.inj hfirst
    have hword := hline _ hfirst (by decide)
    rw [peekKind_bind, peekKind_bind, peekKind_bind] at hok ⊢
    generalize hsecond : (t :: ts)[1]?.map Token.kind = second at hok
    generalize hthird : (t :: ts)[2]?.map Token.kind = third at hok
    generalize hfourth : (t :: ts)[3]?.map Token.kind = fourth at hok
    split at hok
    case h_1 =>
      obtain ⟨u, ts, rfl, hu⟩ := exists_cons_of_headKind hsecond
      obtain ⟨v, w, mid, rfl, hrest⟩ := exists_of_callStatement ht hu hok
      have hv : v.kind = .word := Option.some.inj hthird
      have hcalled := callStatement_carries.carry _ _ _ _ hlike hok hspared
      have hus := L.word hlike hts hword
      obtain ⟨u', us, rfl, hface₁, hus⟩ := L.step hus (by rw [hu]; decide)
        (hrest.trans (List.suffix_append [v, w] mid)) hspared
      obtain ⟨v', us, rfl, hface₂, hus⟩ := L.step hus (by rw [hv]; decide)
        (hrest.trans (List.suffix_cons w mid)) hspared
      obtain ⟨w', us, rfl, hface₃⟩ := L.same_of_suffix hus hrest hspared
      simp only [List.getElem?_cons_succ, List.getElem?_cons_zero, Option.map_some,
        Token.kind_eq_of_face hface₁, Token.kind_eq_of_face hface₂, Token.kind_eq_of_face hface₃,
        hu, hv, Option.some.inj hfourth]
      exact hcalled
    case h_2 hnot =>
      obtain ⟨u, v, mid, rfl, hrest⟩ := exists_of_assignment hok
      have hu : u.kind = .assign := Option.some.inj hsecond
      have hassigned := assignment_carries.carry _ _ _ _ hlike hok hspared
      have hus := L.word hlike hts hword
      obtain ⟨u', us, rfl, hface₁, hus⟩ := L.step hus (by rw [hu]; decide)
        (hrest.trans (List.suffix_cons v mid)) hspared
      have hnot' : (t' :: u' :: us)[2]?.map Token.kind = some .word →
          (t' :: u' :: us)[3]?.map Token.kind = some .lparen → False := by
        intro hthird' hfourth'
        obtain ⟨v', us, rfl, hface₂⟩ := L.same_of_suffix hus hrest hspared
        have hv : v.kind = .word :=
          (Token.kind_eq_of_face hface₂).symm.trans (Option.some.inj hthird')
        have hus := L.word hus (L.spared_of_suffix hrest hspared) (by rw [hv]; decide)
        refine L.headKind_ne hus (fun hparen => ?_) (by decide) hfourth'
        exact hnot (hthird.symm.trans (congrArg some hv)) (hfourth.symm.trans hparen)
      have hsecond' : (t' :: u' :: us)[1]?.map Token.kind = some .assign :=
        congrArg some ((Token.kind_eq_of_face hface₁).trans hu)
      rw [hsecond']
      generalize (t' :: u' :: us)[2]?.map Token.kind = third' at hnot' ⊢
      generalize (t' :: u' :: us)[3]?.map Token.kind = fourth' at hnot' ⊢
      simp only
      exact hassigned
    case h_6 => cases hok
    all_goals
      obtain ⟨hhead, hcalled⟩ :=
        callStatement_carries.carry_two callStatement_two hlike hword hok hspared
      have hsecond' : (t' :: us)[1]?.map Token.kind = (t :: ts)[1]?.map Token.kind := hhead
      rw [hsecond', hsecond]
      exact hcalled
  case h_4 => cases hok

theorem stmt_carries : Carries L.toLikeness (inside, depth) stmt (false, depth) := by
  refine .fix stmtWith_guarded fun n => ?_
  induction n generalizing inside depth with
  | zero => exact .refuse _
  | succ n ih =>
    exact stmtWith_carries (unroll_advances (fun _ h => stmtWith_advances h) n) fun _ _ => ih

theorem bodyLine_carries : Carries L.toLikeness (inside, depth) bodyLine (false, depth) := by
  have hdeclared : Carries L.toLikeness (inside, depth)
      (declaration >>= fun d => lineEnd >>= fun _ => pure (.declared d) : Rule BodyLine)
      (false, depth) :=
    (declaration_carries inside depth).bind fun d => Layers.carries_lineEnd.map _
  refine .startsWith_bind (by decide) (by decide) ?_ ?_ ?_ (stmt_carries.map _)
  · exact declaration_two.bind fun d => lineEnd_leaves.bind fun _ => pure_leaves _
  · exact stmt_advances.bind fun s => pure_leaves _
  · exact fun t u ts us a rest _ _ => hdeclared.carry _ _ _ _

/-- Whether a word before a method's name is the one that makes it shared. -/
def modifier? : Kind → Option Bool
  | .keyShared => some true
  | .keyPrivate => some false
  | _ => none

theorem modifier_operators : Operators modifier? := ⟨by decide, by decide⟩

/-- The words before a method's name are read on as long as there are any. -/
theorem modifiers_bind_carries {α : Type} {s' : Bool × Nat} {f : Bool × Bool → Rule α}
    (h : ∀ inside mods, Carries L.toLikeness (inside, depth) (f mods) s') :
    Carries L.toLikeness (inside, depth) (modifiers >>= f) s' := by
  refine .of_unroll modifiers_guarded (F := fun p => p >>= f)
    (fun n p q hpq => hpq.bind fun mods => .refl (h true mods).leaves n) fun n => ?_
  induction n generalizing inside f with
  | zero => exact (Carries.refuse _).bind (h true)
  | succ n ih =>
    rw [unroll, bind_assoc]
    refine .operator_bind modifier_operators (fun k hk => ?_) (fun k shared hk => ?_)
      (h inside (false, false)) fun shared => ih fun inside mods =>
        h inside (if shared then (true, mods.2) else (mods.1, true))
    · rcases k with _ | k
      · rfl
      · cases k <;> first | rfl | cases hk
    · cases k <;> cases hk
      all_goals
        simp only [bind_assoc]
        rfl

theorem method_carries : Carries L.toLikeness (inside, depth) method (false, depth) := by
  refine modifiers_bind_carries fun inside mods => ?_
  refine (Carries.word _ inside depth).bind fun name => ?_
  refine (parameters_carries true depth).bind fun params => returns_carries.bind fun returns => ?_
  refine Layers.carries_lineEnd.bind fun _ => ?_
  exact (optionalLines_carries bodyLine_advances fun _ => bodyLine_carries).map _

theorem constructor_carries : CarriesWord L.toLikeness depth constructor (false, depth) := by
  refine Carries.next_bind (fun _ _ => rfl) fun _ => (parameters_carries true depth).bind
    fun params => Layers.carries_lineEnd.bind fun _ => ?_
  refine .expect_bind Layers.passes_indent (fun _ _ _ => rfl) fun _ => ?_
  exact (Layers.carries_lines bodyLine_advances fun _ => bodyLine_carries).map _

theorem sectionBody_carries :
    Carries L.toLikeness (inside, depth) sectionBody (false, depth) := by
  refine .expect_bind (L.passes (by decide)) (fun _ _ _ => rfl) fun _ => ?_
  refine Layers.carries_lineEnd.bind fun _ => .choice (by decide) ?_ ?_ (.pure [])
  · exact block_advances stmt_advances.leaves
  · exact block_carries stmt_advances fun _ => stmt_carries

theorem memberSection_carries :
    Carries L.toLikeness (inside, depth) memberSection (false, depth) := by
  refine .of_head memberSection_advances ?_
  intro t t' ts us m rest hface hts hlike hok hspared
  have hkind : (t' :: us)[0]?.map Token.kind = (t :: ts)[0]?.map Token.kind :=
    congrArg some (Token.kind_eq_of_face hface)
  have hline : ∀ k, (t :: ts)[0]?.map Token.kind = some k → k ∉ layoutKinds →
      t.kind ∉ layoutKinds := fun k hk hmem => Option.some.inj hk ▸ hmem
  rw [memberSection, peekKind_bind] at hok ⊢
  rw [hkind]
  generalize hfirst : (t :: ts)[0]?.map Token.kind = first at hok ⊢
  split at hok
  case h_1 =>
    exact Carries.next_bind (fun _ _ => rfl) (fun _ => sectionBody_carries.map _) inside t t' ts us
      m rest (hline _ hfirst (by decide)) hlike hok hspared
  case h_2 =>
    exact Carries.next_bind (fun _ _ => rfl) (fun _ => sectionBody_carries.map _) inside t t' ts us
      m rest (hline _ hfirst (by decide)) hlike hok hspared
  case h_3 => cases hok

theorem member_carries : Carries L.toLikeness (inside, depth) member (false, depth) := by
  refine (declaration_carries inside depth).bind fun d => Layers.carries_lineEnd.bind fun _ => ?_
  exact (optionalLines_carries memberSection_advances fun _ => memberSection_carries).map _

theorem method_two : TakesTwo method := by
  refine modifiers_leaves.bind_two fun mods => (word_advances _).bind_two fun name => ?_
  refine parameters_advances.bind fun params => returns_leaves.bind fun returns => ?_
  refine lineEnd_leaves.bind fun _ => ?_
  exact (optionalLines_leaves bodyLine_advances.leaves).bind fun body => pure_leaves _

theorem member_two : TakesTwo member := by
  refine declaration_two.bind fun d => lineEnd_leaves.bind fun _ => ?_
  exact (optionalLines_leaves memberSection_advances.leaves).bind fun sections => pure_leaves _

theorem feature_carries : Carries L.toLikeness (inside, depth) feature (false, depth) := by
  have hmethod : Carries L.toLikeness (inside, depth)
      (method >>= fun m => pure (.method m) : Rule Feature) (false, depth) := method_carries.map _
  have hmember : Carries L.toLikeness (inside, depth)
      (member >>= fun m => pure (.member m) : Rule Feature) (false, depth) := member_carries.map _
  refine .of_head feature_advances ?_
  intro t t' ts us m rest hface hts hlike hok hspared
  have hkind : (t' :: us)[0]?.map Token.kind = (t :: ts)[0]?.map Token.kind :=
    congrArg some (Token.kind_eq_of_face hface)
  have hline : ∀ k, (t :: ts)[0]?.map Token.kind = some k → k ∉ layoutKinds →
      t.kind ∉ layoutKinds := fun k hk hmem => Option.some.inj hk ▸ hmem
  rw [feature, peekKind_bind, peekKind_bind] at hok ⊢
  rw [hkind]
  generalize hfirst : (t :: ts)[0]?.map Token.kind = first at hok ⊢
  generalize hsecond : (t :: ts)[1]?.map Token.kind = second at hok
  split at hok
  case h_1 =>
    exact Carries.map_word constructor_carries _ inside t t' ts us m rest
      (hline _ hfirst (by decide)) hlike hok hspared
  case h_2 => exact hmethod.carry _ _ _ _ hlike hok hspared
  case h_3 => exact hmethod.carry _ _ _ _ hlike hok hspared
  case h_4 =>
    obtain ⟨hhead, hread⟩ := hmethod.carry_two (method_two.bind fun m => pure_leaves _) hlike
      (hline _ hfirst (by decide)) hok hspared
    have hsecond' : (t' :: us)[1]?.map Token.kind = (t :: ts)[1]?.map Token.kind := hhead
    rw [hsecond', hsecond]
    exact hread
  case h_5 =>
    obtain ⟨hhead, hread⟩ := hmember.carry_two (member_two.bind fun m => pure_leaves _) hlike
      (hline _ hfirst (by decide)) hok hspared
    have hsecond' : (t' :: us)[1]?.map Token.kind = (t :: ts)[1]?.map Token.kind := hhead
    rw [hsecond', hsecond]
    exact hread
  case h_6 => cases hok

theorem classBody_carries : Carries L.toLikeness (inside, depth) classBody (false, depth) := by
  refine (Carries.word _ inside depth).bind fun name => ?_
  refine interfaceNames_carries.bind fun interfaces => Layers.carries_lineEnd.bind fun _ => ?_
  exact (optionalLines_carries feature_advances fun _ => feature_carries).map _

theorem signature_carries : Carries L.toLikeness (inside, depth) signature (false, depth) := by
  refine (Carries.word _ inside depth).bind fun name => ?_
  refine (parameters_carries true depth).bind fun params => returns_carries.bind fun returns => ?_
  exact Layers.carries_lineEnd.map _

theorem interfaceBody_carries :
    Carries L.toLikeness (inside, depth) interfaceBody (false, depth) := by
  refine (Carries.word _ inside depth).bind fun name => Layers.carries_lineEnd.bind fun _ => ?_
  refine .expect_bind Layers.passes_indent (fun _ _ _ => rfl) fun _ => ?_
  exact (Layers.carries_lines signature_advances fun _ => signature_carries).map _

theorem topLevel_skipNewlines {ts mid : List Token} (h : skipNewlines ts = .ok ((), mid)) :
    topLevel ts = topLevel mid := by
  have hagain : skipNewlines mid = .ok ((), mid) :=
    skipNewlines_eq_ok.2 ⟨(skipNewlines_eq_ok.1 h).1, [], rfl, by simp⟩
  rw [topLevel_eq, bind_of_ok h, bind_of_ok hagain]

theorem topLevel_leaves : LeavesSuffix topLevel := by
  refine fix_leaves fun p hp => (skip_leaves _).bind fun _ => ?_
  refine (peekKind_leaves 0).bind fun kind => ?_
  split
  · refine next_leaves.bind fun _ => classBody_advances.leaves.bind fun c => ?_
    exact hp.bind fun more => pure_leaves _
  · refine next_leaves.bind fun _ => interfaceBody_advances.leaves.bind fun i => ?_
    exact hp.bind fun more => pure_leaves _
  · exact pure_leaves _

/-- A declaration of a program behind its keyword. -/
def declared (keyword : Kind) : Rule TopLevel :=
  if keyword = .keyClass then do return .cls (← classBody)
  else do return .interface (← interfaceBody)

theorem declared_advances (keyword : Kind) : Advances (declared keyword) := by
  unfold declared
  split
  · exact classBody_advances.bind fun c => pure_leaves _
  · exact interfaceBody_advances.bind fun i => pure_leaves _

theorem declared_carries (keyword : Kind) :
    Carries L.toLikeness (inside, depth) (declared keyword) (false, depth) := by
  unfold declared
  split
  · exact classBody_carries.map _
  · exact interfaceBody_carries.map _

theorem topLevel_declared {t : Token} (ht : t.kind = .keyClass ∨ t.kind = .keyInterface)
    (ts : List Token) :
    topLevel (t :: ts) = (do
      let d ← declared t.kind
      return d :: (← topLevel) : Rule (List TopLevel)) ts := by
  have hskip : skipNewlines (t :: ts) = .ok ((), t :: ts) :=
    skipNewlines_eq_ok.2 ⟨by rcases ht with ht | ht <;> simp [ht], [], rfl, by simp⟩
  conv => lhs; rw [topLevel_eq]
  rw [bind_of_ok hskip, peekKind_bind]
  simp only [List.getElem?_cons_zero, Option.map_some]
  rcases ht with ht | ht <;>
    simp only [ht, declared, if_true, reduceCtorEq, if_false, bind_assoc] <;> rfl

/-- No declaration starts with any other token. -/
theorem topLevel_of_headKind {ts : List Token} (hnewline : headKind ts ≠ some .newline)
    (hclass : headKind ts ≠ some .keyClass) (hinterface : headKind ts ≠ some .keyInterface) :
    topLevel ts = .ok ([], ts) := by
  have hskip : skipNewlines ts = .ok ((), ts) := skipNewlines_eq_ok.2 ⟨hnewline, [], rfl, by simp⟩
  rw [topLevel_eq, bind_of_ok hskip, peekKind_bind]
  have hclass : ts[0]?.map Token.kind ≠ some .keyClass := hclass
  have hinterface : ts[0]?.map Token.kind ≠ some .keyInterface := hinterface
  generalize ts[0]?.map Token.kind = first at hclass hinterface
  rcases first with _ | kind
  · rfl
  · cases kind <;> first | rfl | exact absurd rfl hclass | exact absurd rfl hinterface

/-- What the declarations at the head of a list are: none, or one behind its keyword and then
others. -/
theorem topLevel_cases {ts rest : List Token} {ds : List TopLevel}
    (h : topLevel ts = .ok (ds, rest)) (hhead : headKind ts ≠ some .newline) :
    (ds = [] ∧ rest = ts ∧ headKind ts ≠ some .keyClass ∧ headKind ts ≠ some .keyInterface) ∨
    ∃ t mid after d more, ts = t :: mid ∧ (t.kind = .keyClass ∨ t.kind = .keyInterface) ∧
      declared t.kind mid = .ok (d, after) ∧ topLevel after = .ok (more, rest) ∧
      ds = d :: more := by
  by_cases hkeyword : headKind ts = some .keyClass ∨ headKind ts = some .keyInterface
  · obtain ⟨t, mid, rfl, ht⟩ : ∃ t mid, ts = t :: mid ∧
        (t.kind = .keyClass ∨ t.kind = .keyInterface) := by
      rcases hkeyword with hk | hk
      · obtain ⟨t, mid, rfl, ht⟩ := exists_cons_of_headKind hk
        exact ⟨t, mid, rfl, .inl ht⟩
      · obtain ⟨t, mid, rfl, ht⟩ := exists_cons_of_headKind hk
        exact ⟨t, mid, rfl, .inr ht⟩
    rw [topLevel_declared ht] at h
    obtain ⟨d, after, hd, h⟩ := bind_eq_ok.1 h
    obtain ⟨more, last, hmore, h⟩ := bind_eq_ok.1 h
    cases h
    exact .inr ⟨t, mid, after, d, more, rfl, ht, hd, hmore, rfl⟩
  · refine .inl ?_
    obtain ⟨hclass, hinterface⟩ := not_or.1 hkeyword
    rw [topLevel_of_headKind hhead hclass hinterface] at h
    cases h
    exact ⟨rfl, rfl, hclass, hinterface⟩

/-- The declarations at the heads of both lists are the same. What else the second list declares
stands behind them. -/
theorem topLevel_carry {ts us rest : List Token} {ds : List TopLevel}
    (hlike : L.like (false, depth) ts us) (hok : topLevel ts = .ok (ds, rest))
    (hspared : L.spared rest) :
    ∃ rest', L.like (false, depth) rest rest' ∧ headKind rest ≠ some .newline ∧
      ∀ more last, topLevel rest' = .ok (more, last) → topLevel us = .ok (ds ++ more, last) := by
  induction hn : ts.length using Nat.strongRecOn generalizing ts us ds with
  | ind n ih =>
  obtain ⟨mid, hskip⟩ : ∃ mid, skipNewlines ts = .ok ((), mid) := ⟨_, rfl⟩
  have hmid := (skipNewlines_eq_ok.1 hskip).1
  have hlength := (skip_leaves _ _ _ _ hskip).length_le
  rw [topLevel_skipNewlines hskip] at hok
  obtain ⟨us', hskip', hlike'⟩ :=
    L.newlines hlike hskip (L.spared_of_suffix (topLevel_leaves _ _ _ hok) hspared)
  rw [topLevel_skipNewlines hskip']
  rcases topLevel_cases hok hmid with
    ⟨rfl, rfl, -, -⟩ | ⟨t, mid, after, d, more, rfl, ht, hd, hmore, rfl⟩
  · exact ⟨us', hlike', hmid, fun more last hmore => hmore⟩
  · have hafter := L.spared_of_suffix (topLevel_leaves _ _ _ hmore) hspared
    obtain ⟨hsuffix, hlt⟩ := declared_advances _ _ _ _ hd
    obtain ⟨t', us'', rfl, hface, hlike''⟩ :=
      L.step hlike' (by rcases ht with ht | ht <;> rw [ht] <;> decide) hsuffix hafter
    obtain ⟨after', hd', hlike₂⟩ := (declared_carries t.kind).carry _ _ _ _ hlike'' hd hafter
    rw [List.length_cons] at hlength
    obtain ⟨rest', hrest, hhead, hothers⟩ := ih after.length (by omega) hlike₂ hmore rfl
    refine ⟨rest', hrest, hhead, fun others last hlast => ?_⟩
    have hkind := Token.kind_eq_of_face hface
    rw [topLevel_declared (hkind ▸ ht), hkind, bind_of_ok hd', bind_of_ok (hothers _ _ hlast)]
    rfl

end Blocks

end Offside.Grammar
