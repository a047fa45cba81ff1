import Offside.Proofs.Grammar.Likeness
import Offside.Proofs.Rule.Completion

/-!
Where expressions and statements are refused. Their rules are mended: whatever one took before it
refused a token can be completed. Parts of a line are completed before the end of the line, and
statements before the end of the input, which ends all open blocks. A name can stand for almost
everything that is missing; only what rules look at before they choose needs a completion of its
own.
-/
namespace Offside.Grammar

open Rule

section Expression

variable {m n : Nat} {ext : List Token} {T : List Token → Prop}

theorem number_mended : Mended n number [Kind.number.token] T := by
  refine ⟨fun tail _ => ⟨_, rfl⟩, fun ts _ => ?_⟩
  cases h : number ts with
  | ok out => exact .of_ok h
  | error r =>
    have hr : r = ⟨.expected "number", ts⟩ := by
      unfold number expect at h
      grind
    subst hr
    exact .of_refuse _ h

theorem arguments_mended (hexpr : Mended m expr ext LineTail) :
    Mended (m + 1) (arguments expr) [Kind.lparen.token, Kind.rparen.token] T :=
  .parenthesized hexpr fun _ => expr_carries

/-- A call behind its receiver. -/
theorem qualified_mended (hexpr : Mended m expr ext LineTail) (receiver : String) :
    Mended (m + 1) (do
      let method ← word "method name"
      if (← peekKind 0) = some .lparen then return ⟨some receiver, method, ← arguments expr⟩
      else return ⟨some receiver, method, []⟩ : Rule Call) [Kind.word.token] LineTail := by
  refine .word_bind (fun method => ⟨fun tail htail => ⟨⟨some receiver, method, []⟩, ?_⟩, ?_⟩)
    (Nat.le_succ _)
  · rw [peekKind_bind, if_neg]
    · rfl
    · exact htail.ne (by decide)
  · exact .choice ((arguments_mended hexpr).map _).mends (Mended.pure _).mends

theorem arguments_takes : Takes (arguments expr) [Kind.lparen.token, Kind.rparen.token] T :=
  fun _ _ => ⟨[], rfl⟩

theorem unqualified_takes {t : Token} (ht : t.kind = .word) :
    Takes (do
      let method ← word "method name"
      return ⟨none, method, ← arguments expr⟩ : Rule Call)
      [t, Kind.lparen.token, Kind.rparen.token] T :=
  (arguments_takes.map (Call.mk none t.content)).of_eq fun _ => word_bind_of_eq ht _ _

theorem call_takes {t : Token} (ht : t.kind = .word) :
    Takes (call expr) [t, Kind.lparen.token, Kind.rparen.token] T :=
  (unqualified_takes ht).startsWith_bind fun _ _ => by simp

theorem call_mended (hexpr : Mended m expr ext LineTail) :
    Mended (m + 1) (call expr) [Kind.word.token, Kind.lparen.token, Kind.rparen.token]
      LineTail := by
  refine .named_bind "object name" rfl (qualified_mended hexpr) ?_ (fun _ => unqualified_takes)
    (fun _ _ => by simp) (Nat.le_add_right (m + 1) 2)
  exact .of_mended _ (.word_bind (fun method => (arguments_mended hexpr).map _) (Nat.le_succ _))

theorem atom_of_word {t : Token} {ts : List Token} (ht : t.kind = .word)
    (hdot : headKind ts ≠ some .dot) (hparen : headKind ts ≠ some .lparen) :
    atom expr (t :: ts) = .ok (.var t.content, ts) := by
  have hsecond : (t :: ts)[1]?.map Token.kind = headKind ts := rfl
  rw [atom, peekKind_bind, peekKind_bind, hsecond, List.getElem?_cons_zero, Option.map_some, ht]
  generalize headKind ts = second at hdot hparen
  simp only
  exact word_bind_of_eq ht _ _

/-- A name by itself is an operand, unless a mark or an argument list follows. -/
theorem atom_takes {t : Token} (ht : t.kind = .word) : Takes (atom expr) [t] LineTail :=
  fun _ htail => ⟨_, atom_of_word ht (htail.ne (by decide)) (htail.ne (by decide))⟩

/-- A minus sign belongs to the number behind it. -/
theorem atom_mendsAt_minus {t : Token} {ts : List Token} (ht : t.kind = .minus) :
    MendsAt (atom expr) LineTail (t :: ts) := by
  have hsecond : (t :: ts)[1]?.map Token.kind = headKind ts := rfl
  have hnumber : Mended (ts.length + 1) (do return .number (-(← number)) : Rule Expr)
      [Kind.number.token] LineTail := number_mended.map _
  by_cases hhead : headKind ts = some .number
  · have hnegative : MendsAt (do
        let _ ← next
        return .number (-(← number)) : Rule Expr) LineTail (t :: ts) :=
      hnumber.behind (Nat.lt_succ_self _) fun _ => rfl
    refine .of_two hnegative (fun us h₀ h₁ => ?_) fun t' ht' => ?_
    · rw [atom, peekKind_bind, peekKind_bind, h₀, h₁, hsecond, hhead, List.getElem?_cons_zero,
        Option.map_some, ht]
    · cases ht'
      refine ⟨[Kind.number.token], hnumber.takes.of_eq fun tail => ?_⟩
      show atom expr (t :: Kind.number.token :: tail) = _
      rw [atom, peekKind_bind, peekKind_bind, List.getElem?_cons_zero, Option.map_some, ht]
      rfl
  · refine .of_refuse "expression" ?_
    rw [atom, peekKind_bind, peekKind_bind, hsecond, List.getElem?_cons_zero, Option.map_some, ht]
    generalize headKind ts = second at hhead
    rcases second with _ | kind
    · rfl
    · cases kind <;> first | rfl | exact absurd rfl hhead

theorem atom_mendsAt_word (hexpr : Mended m expr ext LineTail) {t : Token} {ts : List Token}
    (ht : t.kind = .word) (hts : (t :: ts).length < m + 1) :
    MendsAt (atom expr) LineTail (t :: ts) := by
  have hsecond : (t :: ts)[1]?.map Token.kind = headKind ts := rfl
  by_cases hcalled : headKind ts = some .dot ∨ headKind ts = some .lparen
  · have hcall := ((call_mended hexpr).map Call.toExpr).mends _ hts
    refine .of_two hcall (fun us h₀ h₁ => ?_) fun t' ht' => ?_
    · rw [atom, peekKind_bind, peekKind_bind, h₀, h₁, hsecond, List.getElem?_cons_zero,
        Option.map_some, ht]
      rcases hcalled with hdot | hparen
      · rw [hdot]
      · rw [hparen]
    · cases ht'
      exact ⟨[], atom_takes ht⟩
  · obtain ⟨hdot, hparen⟩ := not_or.1 hcalled
    exact .of_ok (atom_of_word ht hdot hparen)

theorem atom_mended (hexpr : Mended m expr ext LineTail) :
    Mended (m + 1) (atom expr) [Kind.word.token] LineTail := by
  have hnew : Mended (m + 1) (do
      let cls ← word "class name"
      return .construct cls (← arguments expr) : Rule Expr)
      [Kind.word.token, Kind.lparen.token, Kind.rparen.token] LineTail :=
    .word_bind (fun cls => (arguments_mended hexpr).map (Expr.construct cls)) (Nat.le_succ _)
  refine ⟨atom_takes rfl, fun ts hts => ?_⟩
  cases ts with
  | nil => exact .of_refuse _ rfl
  | cons t ts =>
    have hts' : ts.length < m + 1 := Nat.lt_of_succ_lt hts
    cases ht : t.kind
    case number =>
      refine .of_headKind ((number_mended.map Expr.number).mends _ hts) fun us hus => ?_
      have hfirst : us[0]?.map Token.kind = some .number := hus.trans (congrArg some ht)
      rw [atom, peekKind_bind, peekKind_bind, hfirst]
    case minus => exact atom_mendsAt_minus ht
    case word => exact atom_mendsAt_word hexpr ht hts
    case string =>
      have hok : atom expr (t :: ts) = .ok (.string t.content, ts) := by
        rw [atom, peekKind_bind, peekKind_bind, List.getElem?_cons_zero, Option.map_some, ht]
        exact bind_of_ok (expect_eq_ok.2 ⟨rfl, ht⟩) _
      exact .of_ok hok
    case character =>
      have hok : atom expr (t :: ts) = .ok (.character (t.content.toList.headD ' '), ts) := by
        rw [atom, peekKind_bind, peekKind_bind, List.getElem?_cons_zero, Option.map_some, ht]
        exact bind_of_ok (expect_eq_ok.2 ⟨rfl, ht⟩) _
      exact .of_ok hok
    case keyTrue =>
      refine (Mended.pure (Expr.boolean true)).behind hts' fun us => ?_
      rw [atom, peekKind_bind, peekKind_bind, List.getElem?_cons_zero, Option.map_some, ht]
      rfl
    case keyFalse =>
      refine (Mended.pure (Expr.boolean false)).behind hts' fun us => ?_
      rw [atom, peekKind_bind, peekKind_bind, List.getElem?_cons_zero, Option.map_some, ht]
      rfl
    case keyNew =>
      refine hnew.behind hts' fun us => ?_
      rw [atom, peekKind_bind, peekKind_bind, List.getElem?_cons_zero, Option.map_some, ht]
      rfl
    all_goals
      refine .of_refuse "expression" ?_
      rw [atom, peekKind_bind, peekKind_bind, List.getElem?_cons_zero, Option.map_some, ht]
      rfl

theorem groupOperand_mended (hexpr : Mended m expr ext LineTail) :
    Mended (m + 1) (groupOperand expr) [Kind.word.token] LineTail := by
  have hatom : ∀ us, headKind us ≠ some .lparen → groupOperand expr us = atom expr us := by
    intro us hus
    unfold groupOperand
    rw [List.head?_eq_getElem?]
    split
    · exact absurd ‹_› hus
    · rfl
  refine ⟨(atom_mended hexpr).takes.of_eq fun tail => hatom _ (by simp), fun ts hts => ?_⟩
  by_cases hnested : headKind ts = some .lparen
  · intro r hr
    obtain ⟨t, ts, rfl, ht⟩ := exists_cons_of_headKind hnested
    have hrefused : groupOperand expr (t :: ts) = .error ⟨.nestedGroup, t :: ts⟩ := by
      simp [groupOperand, ht]
    cases hrefused.symm.trans hr
    exact ⟨[], rfl, fun _ => hnested, fun hused => absurd rfl hused⟩
  · exact .of_headKind ((atom_mended hexpr).mends ts hts) fun us hus => hatom us (hus ▸ hnested)

theorem operand_takes {t : Token} (ht : t.kind = .word) : Takes (operand expr) [t] LineTail := by
  refine .accept_none (atom_takes ht) fun tail htail => ?_
  simp [ht]

theorem operand_mended (hexpr : Mended m expr ext LineTail) :
    Mended (m + 1) (operand expr) [Kind.word.token] LineTail := by
  have hadvances : Advances (groupOperand expr) := groupOperand_advances expr_advances.leaves
  have hgroup : Mended (m + 1) (do
      let inner ← chain arithOp? .arith (groupOperand expr)
      let _ ← expect .rparen "')'"
      return inner) [Kind.word.token, Kind.rparen.token] LineTail := by
    refine ((groupOperand_mended hexpr).chain arithOp_operators hadvances
      fun _ => groupOperand_carries expr_carries).bind (fun L => ?_) (fun inner => ?_)
      fun tail _ => lineTail_rparen tail
    · exact Carries.chain arithOp_operators hadvances (groupOperand_carries expr_carries) true 0
    · exact .expect_bind (fun _ => .pure inner) (Nat.le_succ _)
  refine ⟨operand_takes rfl, ?_⟩
  exact .accept_bind (fun _ => hgroup) (atom_mended hexpr).mends (Nat.le_succ _)

theorem arithmetic_mended (hexpr : Mended m expr ext LineTail) :
    Mended (m + 1) (arithmetic expr) [Kind.word.token] LineTail :=
  (operand_mended hexpr).chain arithOp_operators (operand_advances expr_advances.leaves)
    fun _ => operand_carries expr_carries

theorem comparison_takes {t : Token} (ht : t.kind = .word) :
    Takes (comparison expr) [t] LineTail := by
  have harith : Takes (arithmetic expr) [t] LineTail :=
    .chain arithOp_operators (operand_advances expr_advances.leaves) (operand_takes ht)
  refine harith.bind (fun left => ?_) fun _ h => h
  refine .operator_bind compareOp_operators (fun k hk => ?_) (.pure left)
  rw [hk]

theorem comparison_mended (hexpr : Mended m expr ext LineTail) :
    Mended (m + 1) (comparison expr) [Kind.word.token] LineTail := by
  have harith := arithmetic_mended hexpr
  refine ⟨comparison_takes rfl, .of_mended ([Kind.word.token] ++ []) ?_⟩
  refine harith.bind (fun L => arithmetic_carries expr_carries true 0) (fun left => ?_) fun _ h => h
  refine ⟨.operator_bind compareOp_operators (fun k hk => ?_) (.pure left), ?_⟩
  · rw [hk]
  · refine .operator_bind compareOp? (fun k hk => ?_) (fun k op hop => ?_) (Mended.pure left).mends
      (fun op => harith.map (.compare op left ·)) (Nat.le_succ _)
    · rw [hk]
    · rw [Option.bind_some, hop]

theorem expr_takes {t : Token} (ht : t.kind = .word) : Takes expr [t] LineTail := by
  rw [expr_eq]
  exact .chain logicOp_operators (comparison_advances expr_advances.leaves) (comparison_takes ht)

theorem expr_mended (n : Nat) : Mended n expr [Kind.word.token] LineTail := by
  refine .of_rounds (expr_takes rfl) fun k _ hagain => ?_
  rw [expr_eq]
  exact ((comparison_mended hagain).chain logicOp_operators
    (comparison_advances expr_advances.leaves) fun _ => comparison_carries expr_carries).mends

end Expression

section Statement

variable {m n : Nat}

/-- The end of the last line of a statement. -/
theorem lastLine_mended {α β : Type} {p : Rule α} {ext : List Token} (hp : Mended n p ext LineTail)
    (hline : ∀ L, Enters L p) (f : α → β) :
    Mended n (p >>= fun a => lineEnd >>= fun _ => pure (f a)) ext NoTail := by
  rw [← List.append_nil ext]
  exact hp.bind (fun L => hline L true 0) (fun a => .lineEnd_map (f a)) fun _ h => h.lineTail

theorem assignment_mended :
    Mended n assignment [Kind.word.token, Kind.assign.token, Kind.word.token] NoTail := by
  refine .word_bind (fun target => .expect_bind (fun _ => ?_) (Nat.le_succ n)) (Nat.le_succ n)
  exact lastLine_mended (expr_mended n) (fun _ => expr_carries) (Stmt.assign target)

/-- A call with the end of its line. -/
def callLine (names : List String) : Rule Stmt := do
  let target ← call expr
  lineEnd
  return .call names target

/-- A call statement behind the targets that are followed by a comma. -/
def callBehind (first : List String) : Rule Stmt := do
  if ← startsWith .word .assign then do
    let target ← word "variable name"
    let _ ← next
    callLine (first ++ [target])
  else if first.isEmpty then callLine []
  else refuse "variable name followed by '='"

theorem callStatement_eq : callStatement = commaTargets >>= callBehind := by
  show targets >>= callLine = _
  rw [targets, bind_assoc]
  refine congrArg (commaTargets >>= ·) (funext fun first => ?_)
  rw [bind_assoc]
  refine congrArg (startsWith .word .assign >>= ·) (funext fun last => ?_)
  cases last with
  | true =>
    simp only [if_true, bind_assoc]
    rfl
  | false =>
    cases first with
    | nil => rfl
    | cons name more => rfl

theorem callLine_mended (names : List String) :
    Mended n (callLine names) [Kind.word.token, Kind.lparen.token, Kind.rparen.token] NoTail :=
  lastLine_mended ((call_mended (expr_mended n)).mono (Nat.le_succ n))
    (fun _ => call_carries expr_carries) (Stmt.call names)

theorem callBehind_takes (first : List String) {t : Token} (ht : t.kind = .word) :
    Takes (callBehind first)
      [t, Kind.assign.token, Kind.word.token, Kind.lparen.token, Kind.rparen.token] NoTail := by
  have hline := (callLine_mended (first ++ [t.content]) : Mended 0 _ _ _).takes
  refine hline.of_eq fun tail => ?_
  rw [callBehind, startsWith_bind, decide_eq_true]
  · exact word_bind_of_eq ht _ _
  · exact ⟨congrArg some ht, rfl⟩

theorem callBehind_mends (first : List String) : Mends n (callBehind first) NoTail := by
  refine .named_bind "variable name" rfl (fun name => callLine_mended (first ++ [name])) ?_
    (fun t ht => ⟨_, callBehind_takes first ht⟩) (Nat.le_add_right n 2)
  cases first with
  | nil => exact (callLine_mended []).mends
  | cons name more => exact .refuse _

/-- Targets are read on as long as something must follow them. -/
theorem commaTargets_bind_mended {β : Type} {T : List Token → Prop} {ext : List Token}
    {f : List String → Rule β} (hf : ∀ names, Mends n (f names) T)
    (htakes : ∀ names (t : Token), t.kind = .word → Takes (f names) (t :: ext) T)
    (hext : ∀ tail, T tail → headKind (ext ++ tail) ≠ some .comma) :
    Mended n (commaTargets >>= f) (Kind.word.token :: ext) T := by
  induction n generalizing f with
  | zero =>
    refine ⟨?_, fun ts hts => absurd hts (Nat.not_lt_zero _)⟩
    rw [commaTargets_eq, bind_assoc]
    exact .startsWith_bind (htakes [] _ rfl) hext
  | succ n ih =>
    rw [commaTargets_eq, bind_assoc]
    refine .named_bind "variable name" ?_
      (fun name => ih (fun more => (hf (name :: more)).mono (Nat.le_succ n))
        fun more => htakes (name :: more)) (hf []) (htakes []) hext (Nat.le_succ _)
    simp only [if_true, bind_assoc]
    rfl

theorem callStatement_mended :
    Mended n callStatement [Kind.word.token, Kind.assign.token, Kind.word.token,
      Kind.lparen.token, Kind.rparen.token] NoTail := by
  rw [callStatement_eq]
  exact commaTargets_bind_mended callBehind_mends (fun first _ => callBehind_takes first)
    fun _ _ => by simp

/-- A call without targets is a call statement. -/
theorem callStatement_takes {t : Token} (ht : t.kind = .word) :
    Takes callStatement [t, Kind.lparen.token, Kind.rparen.token] NoTail := by
  have hline : Takes (callLine []) [t, Kind.lparen.token, Kind.rparen.token] NoTail := by
    rintro tail rfl
    obtain ⟨target, htarget⟩ := call_takes ht [] rfl
    exact ⟨.call [] target, bind_of_ok htarget _⟩
  rw [callStatement_eq, commaTargets_eq, bind_assoc]
  refine .startsWith_bind ?_ fun _ _ => by simp
  show Takes (callBehind []) _ _
  exact hline.startsWith_bind fun _ _ => by simp

theorem assignment_takes {t u v : Token} (ht : t.kind = .word) (hu : u.kind = .assign)
    (hv : v.kind = .word) : Takes assignment [t, u, v] NoTail := by
  have hvalue : Takes (do
      let value ← expr
      lineEnd
      return .assign t.content value : Rule Stmt) [v] NoTail := by
    rintro tail rfl
    obtain ⟨value, hvalue⟩ := expr_takes hv [] (by simp [LineTail])
    exact ⟨.assign t.content value, bind_of_ok hvalue _⟩
  refine hvalue.of_eq fun tail => ?_
  have hassign : expect .assign "'='" (u :: v :: tail) = .ok (u, v :: tail) :=
    expect_eq_ok.2 ⟨rfl, hu⟩
  rw [assignment]
  exact (word_bind_of_eq ht _ _).trans (bind_of_ok hassign _)

/-- An indented block. -/
theorem block_mended {α : Type} {item : Rule α} {ext : List Token}
    (hitem : Mended n item ext NoTail) (hadvances : Advances item)
    (hlines : ∀ L : Layers, Carries L.toLikeness (false, 0) item (false, 0)) :
    Mended (n + 1) (block item) [Kind.indent.token] NoTail :=
  .expect_bind (fun _ => hitem.lines hadvances hlines) (Nat.le_refl _)

/-- A loop behind its keyword and its variable. -/
def loopBehind (item : Option String) : Rule Stmt := do
  let source ← expr
  lineEnd
  return .loop item source (← block stmt)

/-- A loop behind its keyword. -/
def loopRest : Rule Stmt := do
  if ← startsWith .word .assign then do
    let name ← word "loop variable"
    let _ ← next
    loopBehind (some name)
  else loopBehind none

theorem loop_cons (t : Token) (ts : List Token) : loop stmt (t :: ts) = loopRest ts := by
  show ((startsWith .word .assign >>= fun named => if named = true then
      word "loop variable" >>= fun name => next >>= fun _ => pure (some name) else pure none) >>=
    loopBehind) ts = loopRest ts
  rw [bind_assoc, loopRest, startsWith_bind, startsWith_bind]
  split
  · rw [bind_assoc]
    rfl
  · rfl

theorem stmt_apply (ts : List Token) : stmt ts = stmtWith stmt ts := congrFun stmt_eq ts

section Word

variable {ts : List Token} (hfirst : headKind ts = some .word)
include hfirst

theorem stmt_of_call (h : ts[1]?.map Token.kind ∈ [some .comma, some .dot, some .lparen]) :
    stmt ts = callStatement ts := by
  have hfirst : ts[0]?.map Token.kind = some .word := hfirst
  rw [stmt_apply, stmtWith, peekKind_bind, hfirst]
  simp only [peekKind_bind]
  generalize ts[1]?.map Token.kind = second at h
  simp only [List.mem_cons, List.not_mem_nil, or_false] at h
  rcases h with rfl | rfl | rfl <;> rfl

theorem stmt_of_assignedCall (hassign : ts[1]?.map Token.kind = some .assign)
    (hword : ts[2]?.map Token.kind = some .word) (hparen : ts[3]?.map Token.kind = some .lparen) :
    stmt ts = callStatement ts := by
  have hfirst : ts[0]?.map Token.kind = some .word := hfirst
  rw [stmt_apply, stmtWith, peekKind_bind, hfirst]
  simp only [peekKind_bind, hassign, hword, hparen]

theorem stmt_of_assigned (hassign : ts[1]?.map Token.kind = some .assign)
    (h : ¬ (ts[2]?.map Token.kind = some .word ∧ ts[3]?.map Token.kind = some .lparen)) :
    stmt ts = assignment ts := by
  have hfirst : ts[0]?.map Token.kind = some .word := hfirst
  rw [stmt_apply, stmtWith, peekKind_bind, hfirst]
  simp only [peekKind_bind, hassign]
  have h : ts[2]?.map Token.kind = some .word → ts[3]?.map Token.kind = some .lparen → False :=
    fun hword hparen => h ⟨hword, hparen⟩
  generalize ts[2]?.map Token.kind = third at h
  generalize ts[3]?.map Token.kind = fourth at h
  simp only

theorem stmt_of_word (hassign : ts[1]?.map Token.kind ≠ some .assign)
    (h : ts[1]?.map Token.kind ∉ [some .comma, some .dot, some .lparen]) :
    stmt ts = .error ⟨.expected "statement", ts⟩ := by
  have hfirst : ts[0]?.map Token.kind = some .word := hfirst
  rw [stmt_apply, stmtWith, peekKind_bind, hfirst]
  simp only [peekKind_bind]
  generalize ts[1]?.map Token.kind = second at hassign h
  rcases second with _ | kind
  · rfl
  · cases kind <;> first | rfl | exact absurd rfl hassign | exact absurd (by decide) h

end Word

/-- A name with an argument list is a statement. -/
theorem stmt_takes {t : Token} (ht : t.kind = .word) :
    Takes stmt [t, Kind.lparen.token, Kind.rparen.token] NoTail :=
  (callStatement_takes ht).of_eq fun _ => stmt_of_call (congrArg some ht) (by simp)

/-- So is the assignment of a name. -/
theorem stmt_takes_assigned {t u v : Token} (ht : t.kind = .word) (hu : u.kind = .assign)
    (hv : v.kind = .word) : Takes stmt [t, u, v] NoTail := by
  rintro tail rfl
  obtain ⟨s, hs⟩ := assignment_takes ht hu hv [] rfl
  have hstmt : stmt [t, u, v] = assignment [t, u, v] :=
    stmt_of_assigned (congrArg some ht) (congrArg some hu) (by simp)
  exact ⟨s, hstmt.trans hs⟩

/-- The first tokens of a statement with an assignment mark are completed to a call or to the
assignment of a name. -/
theorem exists_takes_assigned {t u : Token} {ts used more : List Token} (ht : t.kind = .word)
    (hu : u.kind = .assign) (hused : used ≠ []) (h : t :: u :: ts = used ++ more)
    (hlength : used.length < 3 ∨ used.length < 4 ∧ headKind ts = some .word) :
    ∃ ext, Takes stmt (used ++ ext) NoTail := by
  match used, hused with
  | [a], _ =>
    cases h
    exact ⟨_, stmt_takes ht⟩
  | [a, b], _ =>
    cases h
    exact ⟨[Kind.word.token], stmt_takes_assigned ht hu rfl⟩
  | [a, b, c], _ =>
    cases h
    rcases hlength with hlength | ⟨-, hword⟩
    · exact absurd hlength (Nat.lt_irrefl 3)
    · exact ⟨[], stmt_takes_assigned ht hu (Option.some.inj hword)⟩
  | a :: b :: c :: d :: used, _ =>
    simp only [List.length_cons] at hlength
    omega

theorem stmt_mendsAt_assigned {t u : Token} {ts : List Token} (ht : t.kind = .word)
    (hu : u.kind = .assign) : MendsAt stmt NoTail (t :: u :: ts) := by
  have hassigned : MendsAt assignment NoTail (t :: u :: ts) :=
    assignment_mended.mends _ (Nat.lt_succ_self _)
  have hkind : ∀ (k i : Nat) (us : List Token), us.take k = (t :: u :: ts).take k → i < k →
      us[i]?.map Token.kind = (t :: u :: ts)[i]?.map Token.kind :=
    fun k i us hus hi => congrArg (Option.map Token.kind) (getElem?_of_take hus hi)
  have hfirst : (t :: u :: ts)[0]?.map Token.kind = some .word := congrArg some ht
  have hsecond : (t :: u :: ts)[1]?.map Token.kind = some .assign := congrArg some hu
  by_cases hword : headKind ts = some .word
  · -- The fourth token decides between a call and an assignment.
    have hshort : ∀ used more : List Token, used ≠ [] → used.length < 4 →
        t :: u :: ts = used ++ more → ∃ ext, Takes stmt (used ++ ext) NoTail :=
      fun used more hused hlength h => exists_takes_assigned ht hu hused h (.inr ⟨hlength, hword⟩)
    by_cases hparen : (t :: u :: ts)[3]?.map Token.kind = some .lparen
    · have hcalled : MendsAt callStatement NoTail (t :: u :: ts) :=
        callStatement_mended.mends _ (Nat.lt_succ_self _)
      refine .of_look 4 hcalled (fun us hus => ?_) hshort
      exact stmt_of_assignedCall ((hkind 4 0 us hus (by decide)).trans hfirst)
        ((hkind 4 1 us hus (by decide)).trans hsecond) ((hkind 4 2 us hus (by decide)).trans hword)
        ((hkind 4 3 us hus (by decide)).trans hparen)
    · refine .of_look 4 hassigned (fun us hus => ?_) hshort
      refine stmt_of_assigned ((hkind 4 0 us hus (by decide)).trans hfirst)
        ((hkind 4 1 us hus (by decide)).trans hsecond) fun h => hparen ?_
      rw [← hkind 4 3 us hus (by decide), h.2]
  · refine .of_look 3 hassigned (fun us hus => ?_) fun used more hused hlength h =>
      exists_takes_assigned ht hu hused h (.inl hlength)
    refine stmt_of_assigned ((hkind 3 0 us hus (by decide)).trans hfirst)
      ((hkind 3 1 us hus (by decide)).trans hsecond) fun h => hword ?_
    exact (hkind 3 2 us hus (by decide)).symm.trans h.1

theorem stmt_mendsAt_word {t : Token} {ts : List Token} (ht : t.kind = .word) :
    MendsAt stmt NoTail (t :: ts) := by
  by_cases hassign : headKind ts = some .assign
  · obtain ⟨u, ts, rfl, hu⟩ := exists_cons_of_headKind hassign
    exact stmt_mendsAt_assigned ht hu
  · by_cases hcall : headKind ts ∈ [some .comma, some .dot, some .lparen]
    · refine .of_two (callStatement_mended.mends _ (Nat.lt_succ_self _)) (fun us h₀ h₁ => ?_) ?_
      · refine stmt_of_call ?_ ?_
        · exact (congrArg (Option.map Token.kind) h₀).trans (congrArg some ht)
        · rw [h₁]
          exact hcall
      · intro t' ht'
        cases ht'
        exact ⟨_, stmt_takes ht⟩
    · exact .of_refuse _ (stmt_of_word (congrArg some ht) hassign hcall)

section Blocks

variable {ext : List Token} (hstmt : Mended m stmt ext NoTail)
include hstmt

theorem stmtBlock_mended : Mended (m + 1) (block stmt) [Kind.indent.token] NoTail :=
  block_mended hstmt stmt_advances fun _ => stmt_carries

/-- A block on the lines behind the current one. -/
theorem lineBlock_mended {β : Type} (f : List Stmt → β) :
    Mended (m + 1) (do
      lineEnd
      return f (← block stmt) : Rule β) [Kind.newline.token, Kind.indent.token] NoTail :=
  .lineEnd_bind ((stmtBlock_mended hstmt).map f) fun _ _ => by simp

theorem loopRest_mended :
    Mended (m + 1) loopRest [Kind.word.token, Kind.newline.token, Kind.indent.token] NoTail := by
  have hlines := fun item source => lineBlock_mended hstmt (Stmt.loop item source)
  have hbehind : ∀ item, Mended (m + 1) (loopBehind item)
      [Kind.word.token, Kind.newline.token, Kind.indent.token] NoTail := fun item =>
    (expr_mended (m + 1)).bind (fun _ => expr_carries true 0) (hlines item)
      fun _ _ => lineTail_newline _
  refine .named_bind "loop variable" rfl (fun name => hbehind (some name)) (hbehind none).mends
    (fun t ht => ?_) (fun _ _ => by simp) (Nat.le_add_right (m + 1) 2)
  exact (expr_takes ht).bind (fun source => (hlines none source).takes)
    fun _ _ => lineTail_newline _

/-- What follows a branch: nothing, another branch or a block. -/
theorem alternative_mended (condition : Expr) (thenBody : List Stmt) :
    Mended (m + 1) (do
      match ← accept .keyElse with
      | none => return .branch condition thenBody none
      | some _ => do
        if (← peekKind 0) = some .keyIf then return .branch condition thenBody (some [← stmt])
        else do
          lineEnd
          return .branch condition thenBody (some (← block stmt)) : Rule Stmt) [] NoTail := by
  have hblock := lineBlock_mended hstmt fun body => Stmt.branch condition thenBody (some body)
  have helse : Mended m (do
      if (← peekKind 0) = some .keyIf then return .branch condition thenBody (some [← stmt])
      else do
        lineEnd
        return .branch condition thenBody (some (← block stmt)) : Rule Stmt)
      [Kind.newline.token, Kind.indent.token] NoTail := by
    refine ⟨hblock.takes.of_eq fun tail => rfl, ?_⟩
    exact .choice (hstmt.map _).mends (hblock.mends.mono (Nat.le_succ m))
  refine ⟨.accept_none (.pure _) ?_, ?_⟩
  · rintro tail rfl
    simp
  · exact .accept_bind (fun _ => helse) (Mended.pure _).mends (Nat.le_refl _)

/-- A branch behind its keyword. -/
theorem branchRest_mended :
    Mended (m + 1) (do
      let condition ← expr
      lineEnd
      let thenBody ← block stmt
      match ← accept .keyElse with
      | none => return .branch condition thenBody none
      | some _ => do
        if (← peekKind 0) = some .keyIf then return .branch condition thenBody (some [← stmt])
        else do
          lineEnd
          return .branch condition thenBody (some (← block stmt)) : Rule Stmt)
      [Kind.word.token, Kind.newline.token, Kind.indent.token] NoTail := by
  refine (expr_mended (m + 1)).bind (fun _ => expr_carries true 0) (fun condition => ?_)
    fun _ _ => lineTail_newline _
  refine .lineEnd_bind ?_ fun _ _ => by simp
  exact (stmtBlock_mended hstmt).bind_lines (block_advances stmt_advances.leaves)
    (fun L => block_carries stmt_advances fun _ => stmt_carries)
    (alternative_mended hstmt condition) (Nat.le_succ _)

theorem stmt_mends : Mends (m + 1) stmt NoTail := by
  intro ts hts
  cases ts with
  | nil => exact .of_refuse _ rfl
  | cons t ts =>
    have hts' : ts.length < m + 1 := Nat.lt_of_succ_lt hts
    cases ht : t.kind
    case keyLoop =>
      refine (loopRest_mended hstmt).behind hts' fun us => ?_
      rw [stmt_apply, stmtWith, peekKind_bind, List.getElem?_cons_zero, Option.map_some, ht]
      exact loop_cons t us
    case keyIf =>
      refine (branchRest_mended hstmt).behind hts' fun us => ?_
      rw [stmt_apply, stmtWith, peekKind_bind, List.getElem?_cons_zero, Option.map_some, ht]
      rfl
    case word => exact stmt_mendsAt_word ht
    all_goals
      refine .of_refuse "statement" ?_
      rw [stmt_apply, stmtWith, peekKind_bind, List.getElem?_cons_zero, Option.map_some, ht]
      rfl

end Blocks

theorem stmt_mended (n : Nat) :
    Mended n stmt [Kind.word.token, Kind.lparen.token, Kind.rparen.token] NoTail :=
  .of_rounds (stmt_takes rfl) fun _ _ => stmt_mends

end Statement

end Offside.Grammar
