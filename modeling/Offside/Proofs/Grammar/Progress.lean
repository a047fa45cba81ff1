import Offside.Program.Grammar.Declaration
import Offside.Proofs.Rule.Progress

/-!
Progress of the grammar. The rules that stand for a part of a program take at least one token, and
expressions and statements use themselves only behind one. Hence the recursive rules satisfy their
own equations: the `..._eq` statements are the grammar without the count of rounds.
-/
namespace Offside.Grammar

open Rule

theorem number_advances : Advances number := by
  intro ts rest x h
  unfold number at h
  split at h
  · cases h
  · rename_i t mid ht
    split at h
    · cases h
      exact expect_advances _ _ _ _ _ ht
    · cases h

theorem arguments_guarded {n : Nat} {p q : Rule Expr} (h : Alike n p q) :
    Alike (n + 1) (arguments p) (arguments q) := by
  refine (expect_advances _ _).bind_alike fun _ => ?_
  refine (Alike.refl (accept_leaves _) n).bind fun close => ?_
  cases close with
  | some _ => exact Alike.refl (pure_leaves _) n
  | none =>
    refine (commaSeparated_alike h).bind fun args => ?_
    exact Alike.refl ((expect_advances _ _).leaves.bind fun _ => pure_leaves _) n

theorem arguments_advances {p : Rule Expr} (h : LeavesSuffix p) : Advances (arguments p) := by
  refine (expect_advances _ _).bind fun _ => (accept_leaves _).bind fun close => ?_
  cases close with
  | some _ => exact pure_leaves _
  | none =>
    refine (commaSeparated_leaves h).bind fun args => ?_
    exact (expect_advances _ _).leaves.bind fun _ => pure_leaves _

theorem arguments_leaves {p : Rule Expr} (h : LeavesSuffix p) : LeavesSuffix (arguments p) :=
  (arguments_advances h).leaves

theorem call_guarded {n : Nat} {p q : Rule Expr} (h : Alike n p q) :
    Alike (n + 1) (call p) (call q) := by
  refine (Alike.refl (startsWith_leaves _ _) _).bind fun qualified => ?_
  cases qualified with
  | true =>
    refine (Alike.refl (word_advances _).leaves _).bind fun receiver => ?_
    refine (Alike.refl next_leaves _).bind fun _ => ?_
    refine (Alike.refl (word_advances _).leaves _).bind fun method => ?_
    refine (Alike.refl (peekKind_leaves 0) _).bind fun kind => ?_
    split
    · exact (arguments_guarded h).bind fun args => Alike.refl (pure_leaves _) _
    · exact Alike.refl (pure_leaves _) _
  | false =>
    refine (Alike.refl (word_advances _).leaves _).bind fun method => ?_
    exact (arguments_guarded h).bind fun args => Alike.refl (pure_leaves _) _

theorem call_advances {p : Rule Expr} (h : LeavesSuffix p) : Advances (call p) := by
  refine (startsWith_leaves _ _).bind_advances fun qualified => ?_
  cases qualified with
  | true =>
    refine (word_advances _).bind fun receiver => next_leaves.bind fun _ => ?_
    refine (word_advances _).leaves.bind fun method => (peekKind_leaves 0).bind fun kind => ?_
    split
    · exact (arguments_leaves h).bind fun args => pure_leaves _
    · exact pure_leaves _
  | false =>
    refine (word_advances _).bind fun method => ?_
    exact (arguments_leaves h).bind fun args => pure_leaves _

theorem atom_guarded {n : Nat} {p q : Rule Expr} (h : Alike n p q) :
    Alike (n + 1) (atom p) (atom q) := by
  refine (Alike.refl (peekKind_leaves 0) _).bind fun first => ?_
  refine (Alike.refl (peekKind_leaves 1) _).bind fun second => ?_
  split
  case h_7 =>
    refine (Alike.refl next_leaves _).bind fun _ => ?_
    refine (Alike.refl (word_advances _).leaves _).bind fun cls => ?_
    exact (arguments_guarded h).bind fun args => Alike.refl (pure_leaves _) _
  case h_8 => exact (call_guarded h).bind fun c => Alike.refl (pure_leaves _) _
  case h_9 => exact (call_guarded h).bind fun c => Alike.refl (pure_leaves _) _
  case h_1 => exact Alike.refl (number_advances.leaves.bind fun _ => pure_leaves _) _
  case h_2 =>
    exact Alike.refl (next_leaves.bind fun _ => number_advances.leaves.bind fun _ =>
      pure_leaves _) _
  case h_3 => exact Alike.refl ((expect_advances _ _).leaves.bind fun _ => pure_leaves _) _
  case h_4 => exact Alike.refl ((expect_advances _ _).leaves.bind fun _ => pure_leaves _) _
  case h_5 => exact Alike.refl (next_leaves.bind fun _ => pure_leaves _) _
  case h_6 => exact Alike.refl (next_leaves.bind fun _ => pure_leaves _) _
  case h_10 => exact Alike.refl ((word_advances _).leaves.bind fun _ => pure_leaves _) _
  case h_11 => exact Alike.refl (refuse_leaves _) _

theorem atom_advances {p : Rule Expr} (h : LeavesSuffix p) : Advances (atom p) := by
  intro ts rest e hatom
  rw [atom, peekKind_bind, peekKind_bind] at hatom
  generalize hhead : ts[0]?.map Token.kind = first at hatom
  generalize ts[1]?.map Token.kind = second at hatom
  split at hatom
  case h_1 => exact (number_advances.bind fun _ => pure_leaves _) _ _ _ hatom
  case h_2 =>
    exact next_bind_of_head (fun _ => number_advances.leaves.bind fun _ => pure_leaves _) hhead
      hatom
  case h_3 => exact ((expect_advances _ _).bind fun _ => pure_leaves _) _ _ _ hatom
  case h_4 => exact ((expect_advances _ _).bind fun _ => pure_leaves _) _ _ _ hatom
  case h_5 => exact next_bind_of_head (fun _ => pure_leaves _) hhead hatom
  case h_6 => exact next_bind_of_head (fun _ => pure_leaves _) hhead hatom
  case h_7 =>
    refine next_bind_of_head (fun _ => (word_advances _).leaves.bind fun cls => ?_) hhead hatom
    exact (arguments_leaves h).bind fun args => pure_leaves _
  case h_8 => exact ((call_advances h).bind fun _ => pure_leaves _) _ _ _ hatom
  case h_9 => exact ((call_advances h).bind fun _ => pure_leaves _) _ _ _ hatom
  case h_10 => exact ((word_advances _).bind fun _ => pure_leaves _) _ _ _ hatom
  case h_11 => cases hatom

theorem groupOperand_guarded {n : Nat} {p q : Rule Expr} (h : Alike n p q) :
    Alike (n + 1) (groupOperand p) (groupOperand q) := by
  have hatom := atom_guarded h
  refine ⟨?_, ?_, ?_⟩
  · intro ts rest e he
    unfold groupOperand at he
    split at he
    · cases he
    · exact hatom.left _ _ _ he
  · intro ts rest e he
    unfold groupOperand at he
    split at he
    · cases he
    · exact hatom.right _ _ _ he
  · intro ts hts
    unfold groupOperand
    split
    · rfl
    · exact hatom.agree ts hts

theorem groupOperand_advances {p : Rule Expr} (h : LeavesSuffix p) :
    Advances (groupOperand p) := by
  intro ts rest e he
  unfold groupOperand at he
  split at he
  · cases he
  · exact atom_advances h _ _ _ he

theorem operand_guarded {n : Nat} {p q : Rule Expr} (h : Alike n p q) :
    Alike (n + 1) (operand p) (operand q) := by
  refine (Alike.refl (accept_leaves _) _).bind fun group => ?_
  cases group with
  | some _ =>
    refine (chain_alike (groupOperand_guarded h)).bind fun inner => ?_
    exact Alike.refl ((expect_advances _ _).leaves.bind fun _ => pure_leaves _) _
  | none => exact atom_guarded h

theorem operand_advances {p : Rule Expr} (h : LeavesSuffix p) : Advances (operand p) := by
  refine (accept_leaves _).bind_advances fun group => ?_
  cases group with
  | some _ =>
    refine (chain_advances (groupOperand_advances h)).bind fun inner => ?_
    exact (expect_advances _ _).leaves.bind fun _ => pure_leaves _
  | none => exact atom_advances h

theorem comparison_guarded {n : Nat} {p q : Rule Expr} (h : Alike n p q) :
    Alike (n + 1) (comparison p) (comparison q) := by
  have harith : Alike (n + 1) (arithmetic p) (arithmetic q) := chain_alike (operand_guarded h)
  refine harith.bind fun left => (Alike.refl (peekKind_leaves 0) _).bind fun kind => ?_
  cases kind.bind compareOp? with
  | none => exact Alike.refl (pure_leaves _) _
  | some op =>
    refine (Alike.refl next_leaves _).bind fun _ => harith.bind fun right => ?_
    exact Alike.refl (pure_leaves _) _

theorem comparison_advances {p : Rule Expr} (h : LeavesSuffix p) : Advances (comparison p) := by
  have harith : Advances (arithmetic p) := chain_advances (operand_advances h)
  refine harith.bind fun left => (peekKind_leaves 0).bind fun kind => ?_
  cases kind.bind compareOp? with
  | none => exact pure_leaves _
  | some op => exact next_leaves.bind fun _ => harith.leaves.bind fun right => pure_leaves _

theorem exprWith_guarded : Guarded exprWith := fun _ _ _ h => chain_alike (comparison_guarded h)

theorem exprWith_advances {p : Rule Expr} (h : LeavesSuffix p) : Advances (exprWith p) :=
  chain_advances (comparison_advances h)

theorem expr_eq : expr = exprWith expr := fix_eq exprWith_guarded

theorem expr_advances : Advances expr := fix_advances fun _ h => exprWith_advances h

theorem block_alike {α : Type} {n : Nat} {p q : Rule α} (h : Alike n p q) :
    Alike n (block p) (block q) :=
  (Alike.refl (expect_advances _ _).leaves n).bind fun _ => lines_alike h

theorem block_advances {α : Type} {p : Rule α} (h : LeavesSuffix p) : Advances (block p) :=
  (expect_advances _ _).bind fun _ => lines_leaves h

theorem assignment_advances : Advances assignment := by
  refine (word_advances _).bind fun target => (expect_advances _ _).leaves.bind fun _ => ?_
  exact expr_advances.leaves.bind fun value => lineEnd_leaves.bind fun _ => pure_leaves _

theorem commaTargets_guarded :
    Guarded fun again : Rule (List String) => do
      if ← startsWith .word .comma then do
        let target ← word "variable name"
        let _ ← next
        return target :: (← again)
      else return [] := by
  refine fun n p q hpq => (Alike.refl (startsWith_leaves _ _) _).bind fun more => ?_
  cases more with
  | true =>
    refine (word_advances _).bind_alike fun target => ?_
    refine (Alike.refl next_leaves n).bind fun _ => hpq.bind fun others => ?_
    exact Alike.refl (pure_leaves _) n
  | false => exact Alike.refl (pure_leaves _) _

theorem commaTargets_eq :
    commaTargets = (do
      if ← startsWith .word .comma then do
        let target ← word "variable name"
        let _ ← next
        return target :: (← commaTargets)
      else return []) := fix_eq commaTargets_guarded

theorem commaTargets_leaves : LeavesSuffix commaTargets := by
  refine fix_leaves fun p hp => (startsWith_leaves _ _).bind fun more => ?_
  cases more with
  | true =>
    refine (word_advances _).leaves.bind fun target => next_leaves.bind fun _ => ?_
    exact hp.bind fun others => pure_leaves _
  | false => exact pure_leaves _

theorem lastTarget_leaves (first : List String) :
    LeavesSuffix (do
      if ← startsWith .word .assign then do
        let target ← word "variable name"
        let _ ← next
        return first ++ [target]
      else if first.isEmpty then return []
      else refuse "variable name followed by '='" : Rule (List String)) := by
  refine (startsWith_leaves _ _).bind fun last => ?_
  cases last with
  | true =>
    exact (word_advances _).leaves.bind fun target => next_leaves.bind fun _ => pure_leaves _
  | false =>
    simp only [Bool.false_eq_true, if_false]
    split
    · exact pure_leaves _
    · exact refuse_leaves _

theorem targets_leaves : LeavesSuffix targets := commaTargets_leaves.bind lastTarget_leaves

theorem callStatement_advances : Advances callStatement := by
  refine targets_leaves.bind_advances fun names => ?_
  refine (call_advances expr_advances.leaves).bind fun target => ?_
  exact lineEnd_leaves.bind fun _ => pure_leaves _

theorem loopItem_leaves :
    LeavesSuffix (do
      if ← startsWith .word .assign then do
        let name ← word "loop variable"
        let _ ← next
        return some name
      else return none : Rule (Option String)) := by
  refine (startsWith_leaves _ _).bind fun named => ?_
  cases named with
  | true =>
    exact (word_advances _).leaves.bind fun name => next_leaves.bind fun _ => pure_leaves _
  | false => exact pure_leaves _

theorem loop_guarded {n : Nat} {p q : Rule Stmt} (h : Alike n p q) :
    Alike (n + 1) (loop p) (loop q) := by
  refine (Alike.refl next_leaves _).bind fun _ => (Alike.refl loopItem_leaves _).bind fun item => ?_
  refine expr_advances.bind_alike fun source => ?_
  refine (Alike.refl lineEnd_leaves n).bind fun _ => (block_alike h).bind fun body => ?_
  exact Alike.refl (pure_leaves _) n

theorem loop_advances {p : Rule Stmt} (h : LeavesSuffix p) : Advances (loop p) := by
  refine next_leaves.bind_advances fun _ => loopItem_leaves.bind_advances fun item => ?_
  refine expr_advances.bind fun source => lineEnd_leaves.bind fun _ => ?_
  exact (block_advances h).leaves.bind fun body => pure_leaves _

theorem branch_guarded {n : Nat} {p q : Rule Stmt} (h : Alike n p q) :
    Alike (n + 1) (branch p) (branch q) := by
  refine (Alike.refl next_leaves _).bind fun _ => expr_advances.bind_alike fun condition => ?_
  refine (Alike.refl lineEnd_leaves n).bind fun _ => (block_alike h).bind fun thenBody => ?_
  refine (Alike.refl (accept_leaves _) n).bind fun alternative => ?_
  cases alternative with
  | none => exact Alike.refl (pure_leaves _) n
  | some _ =>
    refine (Alike.refl (peekKind_leaves 0) n).bind fun kind => ?_
    split
    · exact h.bind fun s => Alike.refl (pure_leaves _) n
    · refine (Alike.refl lineEnd_leaves n).bind fun _ => (block_alike h).bind fun elseBody => ?_
      exact Alike.refl (pure_leaves _) n

/-- What follows a branch: nothing, another branch or a block. -/
theorem alternative_leaves {p : Rule Stmt} (h : LeavesSuffix p) (condition : Expr)
    (thenBody : List Stmt) :
    LeavesSuffix (do
      match ← accept .keyElse with
      | none => return .branch condition thenBody none
      | some _ => do
        if (← peekKind 0) = some .keyIf then return .branch condition thenBody (some [← p])
        else do
          lineEnd
          return .branch condition thenBody (some (← block p)) : Rule Stmt) := by
  refine (accept_leaves _).bind fun alternative => ?_
  cases alternative with
  | none => exact pure_leaves _
  | some _ =>
    refine (peekKind_leaves 0).bind fun kind => ?_
    split
    · exact h.bind fun s => pure_leaves _
    · refine lineEnd_leaves.bind fun _ => ?_
      exact (block_advances h).leaves.bind fun elseBody => pure_leaves _

theorem branch_advances {p : Rule Stmt} (h : LeavesSuffix p) : Advances (branch p) := by
  refine next_leaves.bind_advances fun _ => expr_advances.bind fun condition => ?_
  refine lineEnd_leaves.bind fun _ => (block_advances h).leaves.bind fun thenBody => ?_
  exact alternative_leaves h condition thenBody

theorem stmtWith_guarded : Guarded stmtWith := by
  intro n p q h
  refine (Alike.refl (peekKind_leaves 0) _).bind fun kind => ?_
  split
  · exact loop_guarded h
  · exact branch_guarded h
  · refine (Alike.refl (peekKind_leaves 1) _).bind fun second => ?_
    refine (Alike.refl (peekKind_leaves 2) _).bind fun third => ?_
    refine (Alike.refl (peekKind_leaves 3) _).bind fun fourth => ?_
    split
    · exact Alike.refl callStatement_advances.leaves _
    · exact Alike.refl assignment_advances.leaves _
    · exact Alike.refl callStatement_advances.leaves _
    · exact Alike.refl callStatement_advances.leaves _
    · exact Alike.refl callStatement_advances.leaves _
    · exact Alike.refl (refuse_leaves _) _
  · exact Alike.refl (refuse_leaves _) _

theorem stmtWith_advances {p : Rule Stmt} (h : LeavesSuffix p) : Advances (stmtWith p) := by
  refine (peekKind_leaves 0).bind_advances fun kind => ?_
  split
  · exact loop_advances h
  · exact branch_advances h
  · refine (peekKind_leaves 1).bind_advances fun second => ?_
    refine (peekKind_leaves 2).bind_advances fun third => ?_
    refine (peekKind_leaves 3).bind_advances fun fourth => ?_
    split
    · exact callStatement_advances
    · exact assignment_advances
    · exact callStatement_advances
    · exact callStatement_advances
    · exact callStatement_advances
    · exact refuse_advances _
  · exact refuse_advances _

theorem stmt_eq : stmt = stmtWith stmt := fix_eq stmtWith_guarded

theorem stmt_advances : Advances stmt := fix_advances fun _ h => stmtWith_advances h

theorem declaration_advances : Advances declaration := by
  refine (word_advances _).bind fun first => (word_advances _).leaves.bind fun second => ?_
  split
  · exact pure_leaves _
  · exact pure_leaves _

theorem parameters_advances : Advances parameters := by
  refine (expect_advances _ _).bind fun _ => (accept_leaves _).bind fun close => ?_
  cases close with
  | some _ => exact pure_leaves _
  | none =>
    refine (commaSeparated_leaves declaration_advances.leaves).bind fun params => ?_
    exact (expect_advances _ _).leaves.bind fun _ => pure_leaves _

theorem returns_leaves : LeavesSuffix returns := by
  refine (accept_leaves _).bind fun colon => ?_
  cases colon with
  | some _ => exact commaSeparated_leaves declaration_advances.leaves
  | none => exact pure_leaves _

theorem bodyLine_advances : Advances bodyLine := by
  refine (startsWith_leaves _ _).bind_advances fun declares => ?_
  cases declares with
  | true => exact declaration_advances.bind fun d => lineEnd_leaves.bind fun _ => pure_leaves _
  | false => exact stmt_advances.bind fun s => pure_leaves _

/-- What may stand in an indented block, or be left out with it. -/
theorem optionalLines_leaves {α : Type} {item : Rule α} (h : LeavesSuffix item) :
    LeavesSuffix (do
      match ← accept .indent with
      | some _ => lines item
      | none => return [] : Rule (List α)) := by
  refine (accept_leaves _).bind fun indent => ?_
  cases indent with
  | some _ => exact lines_leaves h
  | none => exact pure_leaves _

theorem modifiers_guarded :
    Guarded fun again : Rule (Bool × Bool) => do
      match ← peekKind 0 with
      | some .keyShared => do
        let _ ← next
        return (true, (← again).2)
      | some .keyPrivate => do
        let _ ← next
        return ((← again).1, true)
      | _ => return (false, false) := by
  intro n p q hpq
  refine peekKind_bind_alike (Alike.refl (pure_leaves _) _) fun kind => ?_
  split
  · exact next_bind_alike fun _ => hpq.bind fun more => Alike.refl (pure_leaves _) n
  · exact next_bind_alike fun _ => hpq.bind fun more => Alike.refl (pure_leaves _) n
  · exact (Alike.refl (pure_leaves _) _).beforeToken

theorem modifiers_eq :
    modifiers = (do
      match ← peekKind 0 with
      | some .keyShared => do
        let _ ← next
        return (true, (← modifiers).2)
      | some .keyPrivate => do
        let _ ← next
        return ((← modifiers).1, true)
      | _ => return (false, false)) := fix_eq modifiers_guarded

theorem modifiers_leaves : LeavesSuffix modifiers := by
  refine fix_leaves fun p hp => (peekKind_leaves 0).bind fun kind => ?_
  split
  · exact next_leaves.bind fun _ => hp.bind fun more => pure_leaves _
  · exact next_leaves.bind fun _ => hp.bind fun more => pure_leaves _
  · exact pure_leaves _

theorem method_advances : Advances method := by
  refine modifiers_leaves.bind_advances fun mods => ?_
  refine (word_advances _).bind fun name => parameters_advances.leaves.bind fun params => ?_
  refine returns_leaves.bind fun returns => lineEnd_leaves.bind fun _ => ?_
  exact (optionalLines_leaves bodyLine_advances.leaves).bind fun body => pure_leaves _

theorem constructor_advances : Advances constructor := by
  refine next_leaves.bind_advances fun _ => parameters_advances.bind fun params => ?_
  refine lineEnd_leaves.bind fun _ => (expect_advances _ _).leaves.bind fun _ => ?_
  exact (lines_leaves bodyLine_advances.leaves).bind fun body => pure_leaves _

theorem sectionBody_advances : Advances sectionBody := by
  refine (expect_advances _ _).bind fun _ => lineEnd_leaves.bind fun _ => ?_
  refine (peekKind_leaves 0).bind fun kind => ?_
  split
  · exact (block_advances stmt_advances.leaves).leaves
  · exact pure_leaves _

theorem memberSection_advances : Advances memberSection := by
  refine (peekKind_leaves 0).bind_advances fun kind => ?_
  split
  · exact next_leaves.bind_advances fun _ => sectionBody_advances.bind fun body => pure_leaves _
  · exact next_leaves.bind_advances fun _ => sectionBody_advances.bind fun body => pure_leaves _
  · exact refuse_advances _

theorem member_advances : Advances member := by
  refine declaration_advances.bind fun declaration => lineEnd_leaves.bind fun _ => ?_
  exact (optionalLines_leaves memberSection_advances.leaves).bind fun sections => pure_leaves _

theorem feature_advances : Advances feature := by
  refine (peekKind_leaves 0).bind_advances fun first => ?_
  refine (peekKind_leaves 1).bind_advances fun second => ?_
  split
  · exact constructor_advances.bind fun c => pure_leaves _
  · exact method_advances.bind fun m => pure_leaves _
  · exact method_advances.bind fun m => pure_leaves _
  · exact method_advances.bind fun m => pure_leaves _
  · exact member_advances.bind fun m => pure_leaves _
  · exact refuse_advances _

theorem interfaceNames_leaves :
    LeavesSuffix (do
      match ← accept .keyImplements with
      | some _ => commaSeparated (word "interface name")
      | none => return [] : Rule (List String)) := by
  refine (accept_leaves _).bind fun implements => ?_
  cases implements with
  | some _ => exact commaSeparated_leaves (word_advances _).leaves
  | none => exact pure_leaves _

theorem classBody_advances : Advances classBody := by
  refine (word_advances _).bind fun name => interfaceNames_leaves.bind fun interfaces => ?_
  refine lineEnd_leaves.bind fun _ => ?_
  exact (optionalLines_leaves feature_advances.leaves).bind fun features => pure_leaves _

theorem signature_advances : Advances signature := by
  refine (word_advances _).bind fun name => parameters_advances.leaves.bind fun params => ?_
  exact returns_leaves.bind fun returns => lineEnd_leaves.bind fun _ => pure_leaves _

theorem interfaceBody_advances : Advances interfaceBody := by
  refine (word_advances _).bind fun name => lineEnd_leaves.bind fun _ => ?_
  refine (expect_advances _ _).leaves.bind fun _ => ?_
  exact (lines_leaves signature_advances.leaves).bind fun methods => pure_leaves _

theorem topLevel_guarded :
    Guarded fun again : Rule (List TopLevel) => do
      skipNewlines
      match ← peekKind 0 with
      | some .keyClass => do
        let _ ← next
        return .cls (← classBody) :: (← again)
      | some .keyInterface => do
        let _ ← next
        return .interface (← interfaceBody) :: (← again)
      | _ => return [] := by
  refine fun n p q hpq => (Alike.refl (skip_leaves _) _).bind fun _ => ?_
  refine (Alike.refl (peekKind_leaves 0) _).bind fun kind => ?_
  split
  · refine (Alike.refl next_leaves _).bind fun _ => classBody_advances.bind_alike fun c => ?_
    exact hpq.bind fun more => Alike.refl (pure_leaves _) n
  · refine (Alike.refl next_leaves _).bind fun _ => interfaceBody_advances.bind_alike fun i => ?_
    exact hpq.bind fun more => Alike.refl (pure_leaves _) n
  · exact Alike.refl (pure_leaves _) _

theorem topLevel_eq :
    topLevel = (do
      skipNewlines
      match ← peekKind 0 with
      | some .keyClass => do
        let _ ← next
        return .cls (← classBody) :: (← topLevel)
      | some .keyInterface => do
        let _ ← next
        return .interface (← interfaceBody) :: (← topLevel)
      | _ => return []) := fix_eq topLevel_guarded

end Offside.Grammar
