import Offside.Proofs.Grammar.Likeness
import Offside.Proofs.Rule.Blur

/-!
The grammar is blind to every blur. What a rule does at a newline, it does however many there are,
and what it does at a dedent behind the last line, it does at the end of the tokens. The rules that
look further ahead stop at the first newline or dedent: behind one, nothing that they see matters.
-/
namespace Offside.Grammar

open Rule Blur

variable {B : Blur}

section Expression

theorem number_blind : B.Blind number := by
  have hnumber : B.Blind (expect .number "number") := .expect (by decide)
  intro ts us hrel hts
  have hagree := hnumber ts us hrel hts
  unfold number
  generalize expect .number "number" ts = x at hagree
  generalize expect .number "number" us = y at hagree
  cases hagree with
  | error c h => exact .error c h
  | ok t h =>
    dsimp only
    split
    · exact .ok _ h
    · exact .error _ hrel

/-- A list in parentheses. -/
theorem parenthesized_blind {α : Type} {item : Rule α} (hleaves : LeavesSuffix item)
    (h : B.Blind item) :
    B.Blind (do
      let _ ← expect .lparen "'('"
      match ← accept .rparen with
      | some _ => return []
      | none => do
        let items ← commaSeparated item
        let _ ← expect .rparen "')'"
        return items : Rule (List α)) := by
  refine (BlindOn.expect (by decide)).bind fun _ => ?_
  refine .accept_bind (by decide) (fun _ => .pure _) ?_
  exact (BlindOn.commaSeparated hleaves h).bind fun _ => (BlindOn.expect (by decide)).map _

theorem arguments_blind {p : Rule Expr} (hleaves : LeavesSuffix p) (h : B.Blind p) :
    B.Blind (arguments p) := parenthesized_blind hleaves h

theorem call_blind {p : Rule Expr} (hleaves : LeavesSuffix p) (h : B.Blind p) :
    B.Blind (call p) := by
  refine .named_bind "object name" (by decide) rfl (fun receiver => ?_) ?_
  · refine (BlindOn.word _).bind fun method => .choice rfl (by simp) (by decide) ?_ (.pure _)
    exact (arguments_blind hleaves h).on.map _
  · exact (BlindOn.word _).bind fun method => (arguments_blind hleaves h).map _

theorem atom_blind {p : Rule Expr} (hleaves : LeavesSuffix p) (h : B.Blind p) :
    B.Blind (atom p) := by
  refine .peek_two (.refuse _) (fun _ => rfl) (fun _ => rfl) (fun _ => rfl)
    (fun first => by cases first <;> rfl) fun first second hfirst => ?_
  split
  case h_1 => exact number_blind.on.map _
  case h_2 => exact .next_bind hfirst fun _ => number_blind.on.map _
  case h_3 => exact (BlindOn.expect (by decide)).map _
  case h_4 => exact (BlindOn.expect (by decide)).map _
  case h_5 => exact .next_bind hfirst fun _ => .pure _
  case h_6 => exact .next_bind hfirst fun _ => .pure _
  case h_7 =>
    refine .next_bind hfirst fun _ => (BlindOn.word _).bind fun cls => ?_
    exact (arguments_blind hleaves h).map _
  case h_8 => exact (call_blind hleaves h).on.map _
  case h_9 => exact (call_blind hleaves h).on.map _
  case h_10 => exact (BlindOn.word _).map _
  case h_11 => exact .refuse _

theorem groupOperand_blind {p : Rule Expr} (hleaves : LeavesSuffix p) (h : B.Blind p) :
    B.Blind (groupOperand p) := by
  have hatom := atom_blind hleaves h
  have hhead : ∀ ts : List Token, ts.head?.map Token.kind = headKind ts := by
    intro ts
    cases ts <;> rfl
  intro ts us hrel hts
  unfold groupOperand
  rw [hhead, hhead]
  rcases B.head hrel with hsame | ⟨hnone, hdedent⟩
  · rw [hsame]
    split
    · exact .error _ hrel
    · exact hatom ts us hrel hts
  · rw [hnone, hdedent]
    exact hatom ts us hrel hts

theorem operand_blind {p : Rule Expr} (hleaves : LeavesSuffix p) (h : B.Blind p) :
    B.Blind (operand p) := by
  have hgroup : B.Blind (chain arithOp? .arith (groupOperand p)) :=
    .chain arithOp_operators (groupOperand_advances hleaves) (groupOperand_blind hleaves h)
  refine .accept_bind (by decide) (fun _ => ?_) (atom_blind hleaves h)
  exact hgroup.bind fun inner => (BlindOn.expect (by decide)).map _

theorem comparison_blind {p : Rule Expr} (hleaves : LeavesSuffix p) (h : B.Blind p) :
    B.Blind (comparison p) := by
  have harith : B.Blind (arithmetic p) :=
    .chain arithOp_operators (operand_advances hleaves) (operand_blind hleaves h)
  refine harith.bind fun left => ?_
  refine .operator_bind compareOp_operators (fun k hk => ?_) (fun k op hk => ?_) (.pure left)
    fun op => harith.map fun right => Expr.compare op left right
  · rw [hk]
  · simp only [Option.bind_some, hk]

theorem expr_blind : B.Blind expr := by
  refine .fix exprWith_guarded fun n h => ?_
  have hleaves := unroll_leaves exprWith_guarded.leaves n
  exact .chain logicOp_operators (comparison_advances hleaves) (comparison_blind hleaves h)

end Expression

section Statement

theorem block_blind {α : Type} {item : Rule α} (hadvances : Advances item) (h : B.Blind item) :
    B.Blind (block item) :=
  (BlindOn.expect (by decide)).bind fun _ => .lines hadvances h

theorem optionalLines_blind {α : Type} {item : Rule α} (hadvances : Advances item)
    (h : B.Blind item) :
    B.Blind (do
      match ← accept .indent with
      | some _ => lines item
      | none => return [] : Rule (List α)) :=
  .accept_bind (by decide) (fun _ => .lines hadvances h) (.pure _)

theorem assignment_blind : B.Blind assignment := by
  refine (BlindOn.word _).bind fun target => ?_
  refine (BlindOn.expect (by decide)).bind fun _ => expr_blind.bind fun value => ?_
  exact BlindOn.lineEnd.map _

theorem commaTargets_blind : B.Blind commaTargets := by
  refine .fix commaTargets_guarded fun _ hagain => ?_
  exact .named_bind "variable name" (by decide) rfl (fun target => hagain.map _)
    (.pure _)

theorem targets_blind : B.Blind targets := by
  refine commaTargets_blind.bind fun first => ?_
  refine .named_bind "variable name" (by decide) rfl (fun target => .pure _) ?_
  simp only [Bool.false_eq_true, if_false]
  split
  · exact .pure _
  · exact .refuse _

theorem callStatement_blind : B.Blind callStatement := by
  refine targets_blind.bind fun names => ?_
  exact (call_blind expr_advances.leaves expr_blind).bind fun target => BlindOn.lineEnd.map _

theorem loop_blind {p : Rule Stmt} (hadvances : Advances p) (h : B.Blind p) :
    B.BlindOn [.keyLoop] (loop p) := by
  refine .next_bind (by decide) fun _ => ?_
  have hitem : B.Blind (do
      if ← startsWith .word .assign then do
        let name ← word "loop variable"
        let _ ← next
        return some name
      else return none : Rule (Option String)) :=
    .named_bind "loop variable" (by decide) rfl (fun name => .pure _) (.pure _)
  refine hitem.bind fun item => expr_blind.bind fun source => BlindOn.lineEnd.bind fun _ => ?_
  exact (block_blind hadvances h).map _

theorem branch_blind {p : Rule Stmt} (hadvances : Advances p) (h : B.Blind p) :
    B.BlindOn [.keyIf] (branch p) := by
  refine .next_bind (by decide) fun _ => expr_blind.bind fun condition => ?_
  refine BlindOn.lineEnd.bind fun _ => (block_blind hadvances h).bind fun thenBody => ?_
  refine .accept_bind (by decide) (fun _ => ?_) (.pure _)
  refine .choice rfl (by simp) (by decide) (h.on.map _) ?_
  exact BlindOn.lineEnd.bind fun _ => (block_blind hadvances h).map _

/-- A line that starts with a name is an assignment or a call as the tokens up to the first newline
say. -/
theorem wordLine_blind :
    B.BlindOn [.word] (do
      match ← peekKind 1, ← peekKind 2, ← peekKind 3 with
      | some .assign, some .word, some .lparen => callStatement
      | some .assign, _, _ => assignment
      | some .comma, _, _ | some .dot, _, _ | some .lparen, _, _ => callStatement
      | _, _, _ => refuse "statement" : Rule Stmt) := by
  have hline : ∀ second third fourth : Option Kind,
      (match second, third, fourth with
        | some .assign, some .word, some .lparen => callStatement
        | some .assign, _, _ => assignment
        | some .comma, _, _ | some .dot, _, _ | some .lparen, _, _ => callStatement
        | _, _, _ => refuse "statement") =
      if second = some .assign then
        if third = some .word then if fourth = some .lparen then callStatement else assignment
        else assignment
      else if second ∈ [some .comma, some .dot, some .lparen] then callStatement
      else refuse "statement" := by
    intro second third fourth
    split <;> simp_all
  -- a look further ahead counts only behind an assignment mark and a name, and these are seen
  simp only [hline]
  refine .peek rfl (by decide) rfl fun second => ?_
  by_cases hsecond : second = some .assign
  · subst hsecond
    refine .peek rfl (by decide) rfl fun third => ?_
    by_cases hthird : third = some .word
    · subst hthird
      refine .peek rfl (by decide) rfl fun fourth => ?_
      simp only [if_true]
      split
      · exact callStatement_blind.on
      · exact assignment_blind.on
    · simp only [if_true, if_neg hthird]
      exact assignment_blind.on
  · simp only [if_neg hsecond]
    split
    · exact callStatement_blind.on
    · exact .refuse _

theorem stmt_blind : B.Blind stmt := by
  refine .fix stmtWith_guarded fun n h => ?_
  have hadvances := unroll_advances (fun _ h => stmtWith_advances h) n
  refine .peek rfl (by simp) rfl fun k => ?_
  split
  · exact loop_blind hadvances h
  · exact branch_blind hadvances h
  · exact wordLine_blind
  · exact .refuse _

end Statement

section Declaration

theorem declaration_blind : B.Blind declaration := by
  refine (BlindOn.word _).bind fun first => (BlindOn.word _).bind fun second => ?_
  split
  · exact .pure _
  · exact .pure _

theorem parameters_blind : B.Blind parameters :=
  parenthesized_blind declaration_advances.leaves declaration_blind

theorem returns_blind : B.Blind returns :=
  .accept_bind (by decide)
    (fun _ => .commaSeparated declaration_advances.leaves declaration_blind) (.pure _)

theorem bodyLine_blind : B.Blind bodyLine := by
  refine .startsWith_bind (by decide) (by decide) ?_ (stmt_blind.map _)
  exact declaration_blind.on.bind fun d => BlindOn.lineEnd.map _

theorem modifiers_blind : B.Blind modifiers := by
  refine .fix modifiers_guarded fun _ hagain => ?_
  refine .operator_bind modifier_operators (fun k hk => ?_) (fun k shared hk => ?_)
    (.pure (false, false))
    fun shared => hagain.map fun mods => if shared then (true, mods.2) else (mods.1, true)
  · rcases k with _ | k
    · rfl
    · cases k <;> first | rfl | cases hk
  · cases k <;> cases hk
    all_goals rfl

theorem method_blind : B.Blind method := by
  refine modifiers_blind.bind fun mods => (BlindOn.word _).bind fun name => ?_
  refine parameters_blind.bind fun params => returns_blind.bind fun returns => ?_
  refine BlindOn.lineEnd.bind fun _ => ?_
  exact (optionalLines_blind bodyLine_advances bodyLine_blind).map _

theorem constructor_blind : B.BlindOn [.keyConstruct] constructor := by
  refine .next_bind (by decide) fun _ => parameters_blind.bind fun params => ?_
  refine BlindOn.lineEnd.bind fun _ => (BlindOn.expect (by decide)).bind fun _ => ?_
  exact (BlindOn.lines bodyLine_advances bodyLine_blind).map _

theorem sectionBody_blind : B.Blind sectionBody := by
  refine (BlindOn.expect (by decide)).bind fun _ => BlindOn.lineEnd.bind fun _ => ?_
  exact .choice rfl (by simp) (by decide) (block_blind stmt_advances stmt_blind).on (.pure _)

theorem memberSection_blind : B.Blind memberSection := by
  refine .peek rfl (by simp) rfl fun k => ?_
  split
  · exact .next_bind (by decide) fun _ => sectionBody_blind.map _
  · exact .next_bind (by decide) fun _ => sectionBody_blind.map _
  · exact .refuse _

theorem member_blind : B.Blind member := by
  refine declaration_blind.bind fun d => BlindOn.lineEnd.bind fun _ => ?_
  exact (optionalLines_blind memberSection_advances memberSection_blind).map _

theorem feature_blind : B.Blind feature := by
  refine .peek_two (.refuse _) (fun _ => rfl) (fun _ => rfl) (fun _ => rfl)
    (fun first => by cases first <;> rfl) fun first second hfirst => ?_
  split
  · rename_i hconstruct
    obtain rfl := Option.some.inj hconstruct
    exact (constructor_blind.map _).mono (List.prefix_append [_] _)
  · exact method_blind.on.map _
  · exact method_blind.on.map _
  · exact method_blind.on.map _
  · exact member_blind.on.map _
  · exact .refuse _

theorem classBody_blind : B.Blind classBody := by
  have hinterfaces : B.Blind (do
      match ← accept .keyImplements with
      | some _ => commaSeparated (word "interface name")
      | none => return [] : Rule (List String)) :=
    .accept_bind (by decide) (fun _ => .commaSeparated (word_advances _).leaves (.word _))
      (.pure _)
  refine (BlindOn.word _).bind fun name => hinterfaces.bind fun interfaces => ?_
  refine BlindOn.lineEnd.bind fun _ => ?_
  exact (optionalLines_blind feature_advances feature_blind).map _

theorem signature_blind : B.Blind signature := by
  refine (BlindOn.word _).bind fun name => parameters_blind.bind fun params => ?_
  exact returns_blind.bind fun returns => BlindOn.lineEnd.map _

theorem interfaceBody_blind : B.Blind interfaceBody := by
  refine (BlindOn.word _).bind fun name => BlindOn.lineEnd.bind fun _ => ?_
  refine (BlindOn.expect (by decide)).bind fun _ => ?_
  exact (BlindOn.lines signature_advances signature_blind).map _

theorem topLevel_blind : B.Blind topLevel := by
  refine .fix topLevel_guarded fun _ hagain => BlindOn.skipNewlines.bind fun _ => ?_
  refine .peek rfl (by simp) rfl fun k => ?_
  split
  · exact .next_bind (by decide) fun _ => classBody_blind.bind fun c => hagain.map _
  · exact .next_bind (by decide) fun _ => interfaceBody_blind.bind fun i => hagain.map _
  · exact .pure _

/-- Once dedents and newlines are passed, both lists are at their ends or neither is. -/
theorem drained_blind : B.Blind (skip [.dedent, .newline] >>= fun _ => atEnd) := by
  intro ts us hrel _
  have hpass : B.rel (ts.dropWhile fun t => [Kind.dedent, .newline].contains t.kind)
      (us.dropWhile fun t => [Kind.dedent, .newline].contains t.kind) := B.pass (by simp) hrel
  have hended : (us.dropWhile fun t => [Kind.dedent, .newline].contains t.kind).isEmpty =
      (ts.dropWhile fun t => [Kind.dedent, .newline].contains t.kind).isEmpty := by
    rcases cases_of_rel hpass with
      ⟨hts, hus⟩ | ⟨u, more, -, hus, hu, -⟩ | ⟨t, u, more, more', hts, hus, -⟩
    · rw [hts, hus]
    · -- a dedent would have been passed
      have hdrop := List.head?_dropWhile_not (fun t => [Kind.dedent, .newline].contains t.kind) us
      rw [hus] at hdrop
      simp [hu] at hdrop
    · rw [hts, hus]
      rfl
  have hagree : ∀ rest rest' : List Token, B.rel rest rest' → rest'.isEmpty = rest.isEmpty →
      B.Agree (atEnd rest) (atEnd rest') := by
    intro rest rest' hrest hempty
    unfold atEnd
    rw [hempty]
    exact .ok _ hrest
  exact hagree _ _ hpass hended

theorem program_blind : B.Blind program := by
  refine topLevel_blind.bind fun ds => ?_
  rw [← bind_assoc]
  refine drained_blind.bind fun ended => ?_
  split
  · exact .pure _
  · exact .refuse _

end Declaration

end Offside.Grammar
