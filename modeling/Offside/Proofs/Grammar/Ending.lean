import Offside.Proofs.Grammar.Progress
import Offside.Proofs.Rule.Likeness
import Offside.Proofs.Rule.Round

/-!
Parsing comes to an end. Every rule of the grammar leaves an end of the tokens it was given, and
all but four take at least one; each round of each loop refuses, leaves the loop or takes a token;
and the two rules that use themselves anywhere, for expressions and statements, do so before fewer
tokens only. No program is therefore refused because rounds are used up.
-/
namespace Offside.Grammar

open Rule

section Expression

theorem number_unspent : Unspent number := by
  intro ts r hr
  unfold number at hr
  split at hr
  · rename_i r' hexpect
    cases hr
    exact Unspent.expect .number (by decide) _ _ hexpect
  · split at hr
    · cases hr
    · cases hr
      exact fun heq => absurd (Complaint.expected.inj heq) (by decide)

variable {p : Rule Expr} (hp : LeavesSuffix p) (h : Unspent p)
include hp h

theorem arguments_unspent : Unspent (arguments p) := by
  refine (Unspent.expect _ (by decide)).bind fun _ => (Unspent.accept _).bind fun close => ?_
  cases close with
  | some _ => exact .pure _
  | none =>
    refine (Unspent.commaSeparated hp h).bind fun args => ?_
    exact (Unspent.expect _ (by decide)).map _

theorem call_unspent : Unspent (call p) := by
  refine (Unspent.startsWith _ _).bind fun qualified => ?_
  cases qualified with
  | true =>
    refine (Unspent.word (by decide)).bind fun receiver => Unspent.next.bind fun _ => ?_
    refine (Unspent.word (by decide)).bind fun method => (Unspent.peekKind 0).bind fun kind => ?_
    split
    · exact (arguments_unspent hp h).map _
    · exact .pure _
  | false => exact (Unspent.word (by decide)).bind fun method => (arguments_unspent hp h).map _

theorem atom_unspent : Unspent (atom p) := by
  refine (Unspent.peekKind 0).bind fun first => (Unspent.peekKind 1).bind fun second => ?_
  split
  case h_1 => exact number_unspent.map _
  case h_2 => exact Unspent.next.bind fun _ => number_unspent.map _
  case h_3 => exact (Unspent.expect _ (by decide)).map _
  case h_4 => exact (Unspent.expect _ (by decide)).map _
  case h_5 => exact Unspent.next.map _
  case h_6 => exact Unspent.next.map _
  case h_7 =>
    refine Unspent.next.bind fun _ => (Unspent.word (by decide)).bind fun cls => ?_
    exact (arguments_unspent hp h).map _
  case h_8 => exact (call_unspent hp h).map _
  case h_9 => exact (call_unspent hp h).map _
  case h_10 => exact (Unspent.word (by decide)).map _
  case h_11 => exact .refuse (by decide)

theorem groupOperand_unspent : Unspent (groupOperand p) := by
  intro ts r hr
  unfold groupOperand at hr
  split at hr
  · cases hr
    exact Complaint.noConfusion
  · exact atom_unspent hp h _ _ hr

theorem operand_unspent : Unspent (operand p) := by
  refine (Unspent.accept _).bind fun group => ?_
  cases group with
  | some _ =>
    refine (Unspent.chain (groupOperand_advances hp) (groupOperand_unspent hp h)).bind fun _ => ?_
    exact (Unspent.expect _ (by decide)).map _
  | none => exact atom_unspent hp h

theorem arithmetic_unspent : Unspent (arithmetic p) :=
  .chain (operand_advances hp) (operand_unspent hp h)

theorem comparison_unspent : Unspent (comparison p) := by
  have harith := arithmetic_unspent hp h
  refine harith.bind fun left => (Unspent.peekKind 0).bind fun kind => ?_
  cases kind.bind compareOp? with
  | none => exact .pure _
  | some op => exact Unspent.next.bind fun _ => harith.map _

theorem exprWith_unspent : Unspent (exprWith p) :=
  .chain (comparison_advances hp) (comparison_unspent hp h)

end Expression

theorem expr_unspent : Unspent expr := .fix exprWith_guarded fun _ => exprWith_unspent

section Statement

theorem assignment_unspent : Unspent assignment := by
  refine (Unspent.word (by decide)).bind fun target => ?_
  refine (Unspent.expect _ (by decide)).bind fun _ => expr_unspent.bind fun value => ?_
  exact Unspent.lineEnd.map _

theorem commaTargets_unspent : Unspent commaTargets := by
  refine .fix commaTargets_guarded fun again _ hagain => ?_
  refine (Unspent.startsWith _ _).bind fun more => ?_
  cases more with
  | true =>
    refine (Unspent.word (by decide)).bind fun target => Unspent.next.bind fun _ => ?_
    exact hagain.map _
  | false => exact .pure _

theorem targets_unspent : Unspent targets := by
  refine commaTargets_unspent.bind fun first => (Unspent.startsWith _ _).bind fun last => ?_
  cases last with
  | true => exact (Unspent.word (by decide)).bind fun target => Unspent.next.map _
  | false =>
    simp only [Bool.false_eq_true, if_false]
    split
    · exact .pure _
    · exact .refuse (by decide)

theorem callStatement_unspent : Unspent callStatement := by
  refine targets_unspent.bind fun names => ?_
  refine (call_unspent expr_advances.leaves expr_unspent).bind fun target => ?_
  exact Unspent.lineEnd.map _

theorem block_unspent {α : Type} {item : Rule α} (hitem : Advances item) (h : Unspent item) :
    Unspent (block item) := (Unspent.expect _ (by decide)).bind fun _ => .lines hitem h

variable {p : Rule Stmt} (hp : Advances p) (h : Unspent p)
include hp h

theorem loop_unspent : Unspent (loop p) := by
  refine Unspent.next.bind fun _ => Unspent.bind ?_ fun item => ?_
  · refine (Unspent.startsWith _ _).bind fun named => ?_
    cases named with
    | true => exact (Unspent.word (by decide)).bind fun name => Unspent.next.map _
    | false => exact .pure _
  · refine expr_unspent.bind fun source => Unspent.lineEnd.bind fun _ => ?_
    exact (block_unspent hp h).map _

theorem branch_unspent : Unspent (branch p) := by
  refine Unspent.next.bind fun _ => expr_unspent.bind fun condition => ?_
  refine Unspent.lineEnd.bind fun _ => (block_unspent hp h).bind fun thenBody => ?_
  refine (Unspent.accept _).bind fun alternative => ?_
  cases alternative with
  | none => exact .pure _
  | some _ =>
    refine (Unspent.peekKind 0).bind fun kind => ?_
    split
    · exact h.map _
    · exact Unspent.lineEnd.bind fun _ => (block_unspent hp h).map _

theorem stmtWith_unspent : Unspent (stmtWith p) := by
  refine (Unspent.peekKind 0).bind fun kind => ?_
  split
  · exact loop_unspent hp h
  · exact branch_unspent hp h
  · refine (Unspent.peekKind 1).bind fun second => (Unspent.peekKind 2).bind fun third => ?_
    refine (Unspent.peekKind 3).bind fun fourth => ?_
    split
    · exact callStatement_unspent
    · exact assignment_unspent
    · exact callStatement_unspent
    · exact callStatement_unspent
    · exact callStatement_unspent
    · exact .refuse (by decide)
  · exact .refuse (by decide)

end Statement

theorem stmt_unspent : Unspent stmt :=
  .of_rounds stmtWith_guarded (refuse_advances _) (fun _ hp => stmtWith_advances hp.leaves)
    fun _ => stmtWith_unspent

section Declaration

theorem declaration_unspent : Unspent declaration := by
  refine (Unspent.word (by decide)).bind fun first => ?_
  refine (Unspent.word (by decide)).bind fun second => ?_
  split
  · exact .pure _
  · exact .pure _

theorem declarations_unspent : Unspent (commaSeparated declaration) :=
  .commaSeparated declaration_advances.leaves declaration_unspent

theorem parameters_unspent : Unspent parameters := by
  refine (Unspent.expect _ (by decide)).bind fun _ => (Unspent.accept _).bind fun close => ?_
  cases close with
  | some _ => exact .pure _
  | none => exact declarations_unspent.bind fun params => (Unspent.expect _ (by decide)).map _

theorem returns_unspent : Unspent returns := by
  refine (Unspent.accept _).bind fun colon => ?_
  cases colon with
  | some _ => exact declarations_unspent
  | none => exact .pure _

theorem bodyLine_unspent : Unspent bodyLine := by
  refine (Unspent.startsWith _ _).bind fun declares => ?_
  cases declares with
  | true => exact declaration_unspent.bind fun d => Unspent.lineEnd.map _
  | false => exact stmt_unspent.map _

theorem optionalLines_unspent {α : Type} {item : Rule α} (hitem : Advances item)
    (h : Unspent item) :
    Unspent (do
      match ← accept .indent with
      | some _ => lines item
      | none => return [] : Rule (List α)) := by
  refine (Unspent.accept _).bind fun indent => ?_
  cases indent with
  | some _ => exact .lines hitem h
  | none => exact .pure _

theorem modifiers_unspent : Unspent modifiers := by
  refine .fix modifiers_guarded fun again _ hagain => (Unspent.peekKind 0).bind fun kind => ?_
  split
  · exact Unspent.next.bind fun _ => hagain.map _
  · exact Unspent.next.bind fun _ => hagain.map _
  · exact .pure _

theorem method_unspent : Unspent method := by
  refine modifiers_unspent.bind fun mods => (Unspent.word (by decide)).bind fun name => ?_
  refine parameters_unspent.bind fun params => returns_unspent.bind fun returned => ?_
  refine Unspent.lineEnd.bind fun _ => ?_
  exact (optionalLines_unspent bodyLine_advances bodyLine_unspent).map _

theorem constructor_unspent : Unspent constructor := by
  refine Unspent.next.bind fun _ => parameters_unspent.bind fun params => ?_
  refine Unspent.lineEnd.bind fun _ => (Unspent.expect _ (by decide)).bind fun _ => ?_
  exact (Unspent.lines bodyLine_advances bodyLine_unspent).map _

theorem sectionBody_unspent : Unspent sectionBody := by
  refine (Unspent.expect _ (by decide)).bind fun _ => Unspent.lineEnd.bind fun _ => ?_
  refine (Unspent.peekKind 0).bind fun kind => ?_
  split
  · exact block_unspent stmt_advances stmt_unspent
  · exact .pure _

theorem memberSection_unspent : Unspent memberSection := by
  refine (Unspent.peekKind 0).bind fun kind => ?_
  split
  · exact Unspent.next.bind fun _ => sectionBody_unspent.map _
  · exact Unspent.next.bind fun _ => sectionBody_unspent.map _
  · exact .refuse (by decide)

theorem member_unspent : Unspent member := by
  refine declaration_unspent.bind fun d => Unspent.lineEnd.bind fun _ => ?_
  exact (optionalLines_unspent memberSection_advances memberSection_unspent).map _

theorem feature_unspent : Unspent feature := by
  refine (Unspent.peekKind 0).bind fun first => (Unspent.peekKind 1).bind fun second => ?_
  split
  · exact constructor_unspent.map _
  · exact method_unspent.map _
  · exact method_unspent.map _
  · exact method_unspent.map _
  · exact member_unspent.map _
  · exact .refuse (by decide)

theorem classBody_unspent : Unspent classBody := by
  refine (Unspent.word (by decide)).bind fun name => Unspent.bind ?_ fun interfaces => ?_
  · refine (Unspent.accept _).bind fun implements => ?_
    cases implements with
    | some _ => exact .commaSeparated (word_advances _).leaves (.word (by decide))
    | none => exact .pure _
  · refine Unspent.lineEnd.bind fun _ => ?_
    exact (optionalLines_unspent feature_advances feature_unspent).map _

theorem signature_unspent : Unspent signature := by
  refine (Unspent.word (by decide)).bind fun name => parameters_unspent.bind fun params => ?_
  exact returns_unspent.bind fun returned => Unspent.lineEnd.map _

theorem interfaceBody_unspent : Unspent interfaceBody := by
  refine (Unspent.word (by decide)).bind fun name => Unspent.lineEnd.bind fun _ => ?_
  refine (Unspent.expect _ (by decide)).bind fun _ => ?_
  exact (Unspent.lines signature_advances signature_unspent).map _

theorem topLevel_unspent : Unspent topLevel := by
  refine .fix topLevel_guarded fun again _ hagain => (Unspent.skip _).bind fun _ => ?_
  refine (Unspent.peekKind 0).bind fun kind => ?_
  split
  · exact Unspent.next.bind fun _ => classBody_unspent.bind fun c => hagain.map _
  · exact Unspent.next.bind fun _ => interfaceBody_unspent.bind fun i => hagain.map _
  · exact .pure _

theorem program_unspent : Unspent program := by
  refine topLevel_unspent.bind fun us => (Unspent.skip _).bind fun _ => ?_
  refine Unspent.atEnd.bind fun ended => ?_
  cases ended with
  | true => exact .pure _
  | false => exact .refuse (by decide)

end Declaration

section Rounds

/-- A round of the targets with commas. -/
def targetRound (again : Rule (List String)) : Rule (List String) := do
  if ← startsWith .word .comma then do
    let target ← word "variable name"
    let _ ← next
    return target :: (← again)
  else return []

/-- A round of the words before a method's name. -/
def modifierRound (again : Rule (Bool × Bool)) : Rule (Bool × Bool) := do
  match ← peekKind 0 with
  | some .keyShared => do
    let _ ← next
    return (true, (← again).2)
  | some .keyPrivate => do
    let _ ← next
    return ((← again).1, true)
  | _ => return (false, false)

/-- A round of the classes and interfaces. -/
def topLevelRound (again : Rule (List TopLevel)) : Rule (List TopLevel) := do
  skipNewlines
  match ← peekKind 0 with
  | some .keyClass => do
    let _ ← next
    return .cls (← classBody) :: (← again)
  | some .keyInterface => do
    let _ ← next
    return .interface (← interfaceBody) :: (← again)
  | _ => return []

theorem commaTargets_loops : Loops commaTargets targetRound := by
  refine ⟨commaTargets_eq, fun ts => .bind (startsWith_leaves _ _) fun more mid hmid => ?_⟩
  cases hmid
  split
  · refine .bind (word_advances _).leaves fun target rest hrest => ?_
    refine .bind next_leaves fun _ left hleft => .again _ ?_
    exact Nat.lt_of_le_of_lt (next_leaves _ _ _ hleft).length_le (word_advances _ _ _ _ hrest).2
  · exact .pure _

theorem modifiers_loops : Loops modifiers modifierRound := by
  refine ⟨modifiers_eq, fun ts => .bind (peekKind_leaves 0) fun kind mid hmid => ?_⟩
  cases hmid
  generalize hkind : ts[0]?.map Token.kind = kind
  split
  · exact .next_again _ hkind
  · exact .next_again _ hkind
  · exact .pure _

theorem topLevel_loops : Loops topLevel topLevelRound := by
  refine ⟨topLevel_eq, fun ts => .bind (skip_leaves _) fun _ mid hmid => ?_⟩
  refine .bind (peekKind_leaves 0) fun kind mid' hmid' => ?_
  cases hmid'
  have hle : mid.tail.length ≤ ts.length :=
    Nat.le_trans (List.tail_suffix mid).length_le (skip_leaves _ _ _ _ hmid).length_le
  split
  · refine .bind next_leaves fun _ rest hrest => ?_
    cases hrest
    exact .item_again classBody_advances _ hle
  · refine .bind next_leaves fun _ rest hrest => ?_
    cases hrest
    exact .item_again interfaceBody_advances _ hle
  · exact .pure _

end Rounds

/-- The loops of the grammar. -/
inductive Loop where
  | skipped (kinds : List Kind)
  | topLevel
  | interfaceNames
  | features
  | memberSections
  | signatures
  | bodyLines
  | statements
  | modifiers
  | declarations
  | targets
  | arguments
  | logic
  | arithmetic
  | groupArithmetic

namespace Loop

/-- What a loop reads. -/
def Result : Loop → Type
  | skipped _ => Unit
  | topLevel => List TopLevel
  | interfaceNames => List String
  | features => List Feature
  | memberSections => List MemberSection
  | signatures => List Signature
  | bodyLines => List BodyLine
  | statements => List Stmt
  | modifiers => Bool × Bool
  | declarations => List Declaration
  | targets => List String
  | arguments => List Expr
  | logic => List (LogicOp × Expr)
  | arithmetic => List (ArithOp × Expr)
  | groupArithmetic => List (ArithOp × Expr)

def rule : (l : Loop) → Rule l.Result
  | skipped kinds => skip kinds
  | topLevel => Grammar.topLevel
  | interfaceNames => commaSeparated (word "interface name")
  | features => lines feature
  | memberSections => lines memberSection
  | signatures => lines signature
  | bodyLines => lines bodyLine
  | statements => lines stmt
  | modifiers => Grammar.modifiers
  | declarations => commaSeparated declaration
  | targets => commaTargets
  | arguments => commaSeparated expr
  | logic => operations logicOp? (comparison expr)
  | arithmetic => operations arithOp? (operand expr)
  | groupArithmetic => operations arithOp? (groupOperand expr)

/-- One round of a loop, with what follows it. -/
def round : (l : Loop) → Rule l.Result → Rule l.Result
  | skipped kinds => skipRound kinds
  | topLevel => topLevelRound
  | interfaceNames => commaRound (word "interface name")
  | features => lineRound feature
  | memberSections => lineRound memberSection
  | signatures => lineRound signature
  | bodyLines => lineRound bodyLine
  | statements => lineRound stmt
  | modifiers => modifierRound
  | declarations => commaRound declaration
  | targets => targetRound
  | arguments => commaRound expr
  | logic => operationRound logicOp? (comparison expr)
  | arithmetic => operationRound arithOp? (operand expr)
  | groupArithmetic => operationRound arithOp? (groupOperand expr)

theorem loops (l : Loop) : Loops l.rule l.round := by
  have hexpr := expr_advances.leaves
  cases l with
  | skipped kinds => exact skip_loops kinds
  | topLevel => exact topLevel_loops
  | interfaceNames => exact commaSeparated_loops (word_advances _).leaves
  | features => exact lines_loops feature_advances
  | memberSections => exact lines_loops memberSection_advances
  | signatures => exact lines_loops signature_advances
  | bodyLines => exact lines_loops bodyLine_advances
  | statements => exact lines_loops stmt_advances
  | modifiers => exact modifiers_loops
  | declarations => exact commaSeparated_loops declaration_advances.leaves
  | targets => exact commaTargets_loops
  | arguments => exact commaSeparated_loops hexpr
  | logic => exact operations_loops (comparison_advances hexpr)
  | arithmetic => exact operations_loops (operand_advances hexpr)
  | groupArithmetic => exact operations_loops (groupOperand_advances hexpr)

end Loop

/-- The parts of a program that have a rule of their own. Some are read behind a token that has told
them apart. -/
inductive Production where
  | program
  | cls
  | interface
  | signature
  | member
  | sectionBody (colon : Token)
  | method
  | constructor (keyword : Token)
  | body
  | block
  | parameters
  | returns
  | declarations
  | declaration
  | statement
  | assignment
  | callStatement
  | branch (keyword : Token)
  | loop (keyword : Token)
  | call
  | arguments
  | expression
  | comparison
  | arithmetic
  | groupArithmetic
  | operand
  | groupOperand

namespace Production

/-- What a production reads. -/
def Result : Production → Type
  | program => Program
  | cls => Class
  | interface => Interface
  | signature => Signature
  | member => Member
  | sectionBody _ => List Stmt
  | method => Method
  | constructor _ => Constructor
  | body => List BodyLine
  | block => List Stmt
  | parameters | returns | declarations => List Declaration
  | declaration => Declaration
  | statement | assignment | callStatement | branch _ | loop _ => Stmt
  | call => Call
  | arguments => List Expr
  | expression | comparison | arithmetic | groupArithmetic | operand | groupOperand => Expr

def rule : (p : Production) → Rule p.Result
  | program => Grammar.program
  | cls => classBody
  | interface => interfaceBody
  | signature => Grammar.signature
  | member => Grammar.member
  | sectionBody colon => fun ts => Grammar.sectionBody (colon :: ts)
  | method => Grammar.method
  | constructor keyword => fun ts => Grammar.constructor (keyword :: ts)
  | body => lines bodyLine
  | block => Grammar.block stmt
  | parameters => Grammar.parameters
  | returns => Grammar.returns
  | declarations => commaSeparated Grammar.declaration
  | declaration => Grammar.declaration
  | statement => stmt
  | assignment => Grammar.assignment
  | callStatement => Grammar.callStatement
  | branch keyword => fun ts => Grammar.branch stmt (keyword :: ts)
  | loop keyword => fun ts => Grammar.loop stmt (keyword :: ts)
  | call => Grammar.call expr
  | arguments => Grammar.arguments expr
  | expression => expr
  | comparison => Grammar.comparison expr
  | arithmetic => Grammar.arithmetic expr
  | groupArithmetic => chain arithOp? .arith (Grammar.groupOperand expr)
  | operand => Grammar.operand expr
  | groupOperand => Grammar.groupOperand expr

/-- The productions that may take no token. -/
def mayBeEmpty : Production → Bool
  | program | sectionBody _ | body | returns => true
  | _ => false

end Production

theorem constructor_two : TakesTwo constructor := by
  refine next_leaves.bind_two fun _ => parameters_advances.bind_two fun params => ?_
  refine lineEnd_leaves.bind_advances fun _ => (expect_advances _ _).bind fun _ => ?_
  exact (lines_leaves bodyLine_advances.leaves).bind fun body => pure_leaves _

theorem loop_two {p : Rule Stmt} (h : LeavesSuffix p) : TakesTwo (loop p) := by
  refine next_leaves.bind_two fun _ => loopItem_leaves.bind_two fun item => ?_
  refine expr_advances.bind_two fun source => lineEnd_leaves.bind_advances fun _ => ?_
  exact (block_advances h).bind fun body => pure_leaves _

theorem branch_two {p : Rule Stmt} (h : LeavesSuffix p) : TakesTwo (branch p) := by
  refine next_leaves.bind_two fun _ => expr_advances.bind_two fun condition => ?_
  refine lineEnd_leaves.bind_advances fun _ => (block_advances h).bind fun thenBody => ?_
  exact alternative_leaves h condition thenBody

theorem commaSeparated_advances {α : Type} {item : Rule α} (h : Advances item) :
    Advances (commaSeparated item) := by
  refine fix_advances fun again hagain => h.bind fun first => (accept_leaves _).bind fun comma => ?_
  cases comma with
  | none => exact pure_leaves _
  | some t => exact hagain.bind fun more => pure_leaves _

theorem program_leaves : LeavesSuffix program := by
  refine (fix_leaves topLevel_guarded.leaves).bind fun us => (skip_leaves _).bind fun _ => ?_
  have hatEnd : LeavesSuffix atEnd := by
    intro ts rest a h
    cases h
    exact List.suffix_rfl
  refine hatEnd.bind fun ended => ?_
  cases ended with
  | true => exact pure_leaves _
  | false => exact refuse_leaves _

namespace Production

theorem rule_advances (p : Production) (h : p.mayBeEmpty = false) : Advances p.rule := by
  have hexpr := expr_advances.leaves
  have hstmt := stmt_advances.leaves
  cases p with
  | program | sectionBody | body | returns => cases h
  | cls => exact classBody_advances
  | interface => exact interfaceBody_advances
  | signature => exact signature_advances
  | member => exact member_advances
  | method => exact method_advances
  | constructor keyword => exact constructor_two.behind keyword
  | block => exact block_advances hstmt
  | parameters => exact parameters_advances
  | declarations => exact commaSeparated_advances declaration_advances
  | declaration => exact declaration_advances
  | statement => exact stmt_advances
  | assignment => exact assignment_advances
  | callStatement => exact callStatement_advances
  | branch keyword => exact (branch_two hstmt).behind keyword
  | loop keyword => exact (loop_two hstmt).behind keyword
  | call => exact call_advances hexpr
  | arguments => exact arguments_advances hexpr
  | expression => exact expr_advances
  | comparison => exact comparison_advances hexpr
  | arithmetic => exact chain_advances (operand_advances hexpr)
  | groupArithmetic => exact chain_advances (groupOperand_advances hexpr)
  | operand => exact operand_advances hexpr
  | groupOperand => exact groupOperand_advances hexpr

theorem rule_leaves (p : Production) : LeavesSuffix p.rule := by
  by_cases h : p.mayBeEmpty = false
  · exact (p.rule_advances h).leaves
  · cases p with
    | program => exact program_leaves
    | sectionBody colon => exact sectionBody_advances.behind colon
    | body => exact lines_leaves bodyLine_advances.leaves
    | returns => exact returns_leaves
    | _ => exact absurd rfl h

end Production

/-- Started on any tokens, every production leaves an end of them, a shorter one unless it may be
empty. Every loop is its round and itself again; a round refuses, leaves the loop or takes a token,
so that the loop is over after at most one round more than there are tokens. Expressions and
statements use themselves only before fewer tokens. No parse ends because rounds are used up. -/
theorem parsing_progresses (ts : List Token) :
    (∀ (p : Production) (a : p.Result) (rest : List Token), p.rule ts = .ok (a, rest) →
      rest <:+ ts ∧ (p.mayBeEmpty = false → rest.length < ts.length)) ∧
    (∀ l : Loop, l.rule = l.round l.rule ∧ Turn ts.length l.round ts ∧
      ∃ n ≤ ts.length + 1, OverAfter l.round n ts) ∧
    Descends exprWith expr ts ∧ Descends stmtWith stmt ts ∧
    ∀ e, Program.ofTokens ts = .error e → e.complaint ≠ spent := by
  refine ⟨fun p a rest h => ?_, fun l => ?_, ?_, ?_, fun e he => ?_⟩
  · exact ⟨p.rule_leaves _ _ _ h, fun hp => (p.rule_advances hp _ _ _ h).2⟩
  · exact ⟨l.loops.unfolds, l.loops.turn ts, l.loops.exists_overAfter ts⟩
  · exact exprWith_guarded.descends ts
  · exact stmtWith_guarded.descends ts
  · unfold Program.ofTokens at he
    split at he
    · cases he
    · rename_i r hr
      cases he
      exact program_unspent ts r hr

namespace Unbalanced

def name (text : String) : Token := ⟨.word, Position.start, some text⟩

def mark (kind : Kind) : Token := ⟨kind, Position.start, none⟩

/-- The tokens of `if a < b` with a block, and an unopened parenthesis. -/
def tokens : List Token :=
  [mark .keyIf, name "a", mark .less, name "b", mark .newline, mark .indent, name "c",
    mark .assign, name "a", mark .plus, name "b", mark .newline, mark .dedent, mark .rparen]

def tree : Stmt :=
  .branch (.compare .less (.var "a") (.var "b"))
    [.assign "c" (.arith .add (.var "a") (.var "b"))] none

end Unbalanced

open Unbalanced in
theorem parsing_progresses_unbalanced :
    stmt tokens = .ok (tree, [mark .rparen]) ∧ [mark .rparen] <:+ tokens ∧
      [mark .rparen].length < tokens.length ∧
      (∃ n ≤ 15, OverAfter (lineRound stmt) n tokens) ∧
      ∃ e, Program.ofTokens tokens = .error e ∧ e.complaint ≠ spent := by
  obtain ⟨hproduction, hloop, -, -, hends⟩ := parsing_progresses tokens
  have hstmt : stmt tokens = .ok (tree, [mark .rparen]) := rfl
  obtain ⟨hsuffix, hshorter⟩ := hproduction .statement tree [mark .rparen] hstmt
  exact ⟨hstmt, hsuffix, hshorter rfl, (hloop .statements).2.2, _, rfl, hends _ rfl⟩

end Offside.Grammar
