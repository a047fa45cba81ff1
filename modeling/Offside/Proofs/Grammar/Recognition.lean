import Offside.Proofs.Grammar.Completion
import Offside.Proofs.Grammar.Reading

/-!
The language of expressions. `Derives` is their grammar by itself, without rules: which tokens make
up each phrase, and which tree stands for them. A chain is folded from the left, all its operators
alike; a group holds arithmetic without a further group, while argument lists start afresh. Main
statement: the rule for expressions takes just what is derived, with the derived tree, as long as
what follows could not belong to it.
-/
namespace Offside.Rule

variable {α β ω : Type}

/-- Whatever the rule takes stands for what it gives, in the sense of `D`. -/
def Consumes (p : Rule α) (D : List Token → α → Prop) : Prop :=
  ∀ ts rest a, p ts = .ok (a, rest) → ∃ used, ts = used ++ rest ∧ D used a

namespace Consumes

variable {p : Rule α} {D : List Token → α → Prop} {R : List Token → β → Prop}

theorem pure {a : α} (h : D [] a) : Consumes (pure a : Rule α) D := by
  intro ts rest b hb
  cases hb
  exact ⟨[], rfl, h⟩

theorem refuse {what : String} : Consumes (refuse what : Rule α) D := by
  intro ts rest a h
  cases h

theorem mono {D' : List Token → α → Prop} (hp : Consumes p D) (h : ∀ u a, D u a → D' u a) :
    Consumes p D' := by
  intro ts rest a ha
  obtain ⟨u, hu, hd⟩ := hp ts rest a ha
  exact ⟨u, hu, h u a hd⟩

theorem bind {f : α → Rule β} (hp : Consumes p D)
    (hf : ∀ a u, D u a → Consumes (f a) fun v b => R (u ++ v) b) : Consumes (p >>= f) R := by
  intro ts rest b h
  obtain ⟨a, mid, ha, hb⟩ := bind_eq_ok.1 h
  obtain ⟨u, rfl, hu⟩ := hp ts mid a ha
  obtain ⟨v, rfl, hv⟩ := hf a u hu mid rest b hb
  exact ⟨u ++ v, (List.append_assoc u v rest).symm, hv⟩

theorem map {f : α → β} (hp : Consumes p D) (h : ∀ u a, D u a → R u (f a)) :
    Consumes (p >>= fun a => Pure.pure (f a)) R := by
  refine hp.bind fun a u hu => pure ?_
  rw [List.append_nil]
  exact h u a hu

theorem fix {f : Rule α → Rule α} (hf : ∀ p, Consumes p D → Consumes (f p) D) :
    Consumes (fix f) D := by
  have hrounds : ∀ n, Consumes (unroll f n) D := by
    intro n
    induction n with
    | zero => exact refuse
    | succ n ih => exact hf _ ih
  intro ts
  exact hrounds (ts.length + 1) ts

theorem expect_bind {kind : Kind} {what : String} {f : Token → Rule β}
    (hf : ∀ t, t.kind = kind → Consumes (f t) fun v b => R (t :: v) b) :
    Consumes (expect kind what >>= f) R := by
  intro ts rest b h
  obtain ⟨t, mid, ht, hb⟩ := bind_eq_ok.1 h
  obtain ⟨rfl, hkind⟩ := expect_eq_ok.1 ht
  obtain ⟨v, rfl, hv⟩ := hf t hkind mid rest b hb
  exact ⟨t :: v, rfl, hv⟩

theorem word_bind {what : String} {f : String → Rule β}
    (hf : ∀ t : Token, t.kind = .word → Consumes (f t.content) fun v b => R (t :: v) b) :
    Consumes (word what >>= f) R := by
  intro ts rest b h
  obtain ⟨name, mid, hname, hb⟩ := bind_eq_ok.1 h
  obtain ⟨t, rfl, hkind, rfl⟩ := word_eq_ok.1 hname
  obtain ⟨v, rfl, hv⟩ := hf t hkind mid rest b hb
  exact ⟨t :: v, rfl, hv⟩

theorem accept_bind {kind : Kind} {f : Option Token → Rule β}
    (hsome : ∀ t, t.kind = kind → Consumes (f (some t)) fun v b => R (t :: v) b)
    (hnone : Consumes (f none) R) : Consumes (accept kind >>= f) R := by
  intro ts rest b h
  by_cases hkind : headKind ts = some kind
  · obtain ⟨t, ts, rfl, ht⟩ := exists_cons_of_headKind hkind
    rw [accept_bind_of_eq ht] at h
    obtain ⟨v, rfl, hv⟩ := hsome t ht ts rest b h
    exact ⟨t :: v, rfl, hv⟩
  · rw [accept_bind_of_ne hkind] at h
    exact hnone ts rest b h

theorem peekKind_bind {i : Nat} {f : Option Kind → Rule β} (hf : ∀ k, Consumes (f k) R) :
    Consumes (peekKind i >>= f) R := fun ts rest b h => hf _ ts rest b h

/-- A rule that goes on behind an operator, if there is one. -/
theorem operator_bind {op : Kind → Option ω} {f : Option Kind → Rule β} {q : Rule β}
    {g : ω → Rule β} (hnone : ∀ k, k.bind op = none → f k = q)
    (hsome : ∀ k o, op k = some o → f (some k) = next >>= fun _ => g o) (hq : Consumes q R)
    (hg : ∀ t o, op t.kind = some o → Consumes (g o) fun v b => R (t :: v) b) :
    Consumes (peekKind 0 >>= f) R := by
  intro ts rest b h
  rw [peekKind_head_bind] at h
  cases hhead : (headKind ts).bind op with
  | none =>
    rw [hnone _ hhead] at h
    exact hq ts rest b h
  | some o =>
    obtain ⟨kind, hkind, ho⟩ := Option.bind_eq_some_iff.1 hhead
    obtain ⟨t, ts, rfl, rfl⟩ := exists_cons_of_headKind hkind
    rw [headKind_cons, hsome _ o ho] at h
    obtain ⟨v, rfl, hv⟩ := hg t o ho ts rest b h
    exact ⟨t :: v, rfl, hv⟩

theorem operations {op : Kind → Option ω} {S : List Token → List (ω × α) → Prop}
    (hp : Consumes p D) (hnil : S [] [])
    (hcons : ∀ t o u a v steps, op t.kind = some o → D u a → S v steps →
      S (t :: (u ++ v)) ((o, a) :: steps)) : Consumes (operations op p) S := by
  refine fix fun again hagain => operator_bind (q := Pure.pure [])
    (g := fun o => p >>= fun a => again >>= fun more => Pure.pure ((o, a) :: more))
    (fun k hk => by rw [hk]) (fun k o ho => by rw [Option.bind_some, ho]) (pure hnil) ?_
  intro t o ho
  exact hp.bind fun a u hu => hagain.map fun v steps hv => hcons t o u a v steps ho hu hv

theorem commaSeparated {S : List Token → List α → Prop} (hp : Consumes p D)
    (hlast : ∀ u a, D u a → S u [a])
    (hcons : ∀ t u a v as, t.kind = .comma → D u a → S v as → S (u ++ t :: v) (a :: as)) :
    Consumes (commaSeparated p) S := by
  refine fix fun again hagain => hp.bind fun a u hu => accept_bind (fun t ht => ?_) (pure ?_)
  · exact hagain.map fun v as hv => hcons t u a v as ht hu hv
  · rw [List.append_nil]
    exact hlast u a hu

end Consumes

section Chain

variable {op : Kind → Option ω} {operand : Rule α} {ts mid rest : List Token}

theorem operations_of_none (hadvances : Advances operand) (h : (headKind rest).bind op = none) :
    operations op operand rest = .ok ([], rest) := by
  rw [operations_eq hadvances, peekKind_head_bind, h]
  rfl

theorem operations_of_some (hadvances : Advances operand) {t : Token} {o : ω} {a : α}
    {steps : List (ω × α)} (ho : op t.kind = some o) (ha : operand ts = .ok (a, mid))
    (hsteps : operations op operand mid = .ok (steps, rest)) :
    operations op operand (t :: ts) = .ok ((o, a) :: steps, rest) := by
  rw [operations_eq hadvances, peekKind_head_bind, headKind_cons, Option.bind_some, ho]
  show (operand >>= _) ts = _
  rw [bind_of_ok ha, bind_of_ok hsteps]
  rfl

theorem chain_of_ok {join : ω → α → α → α} {first : α} {steps : List (ω × α)}
    (hfirst : operand ts = .ok (first, mid))
    (hsteps : operations op operand mid = .ok (steps, rest)) :
    chain op join operand ts =
      .ok (steps.foldl (fun left step => join step.1 left step.2) first, rest) := by
  rw [chain, bind_of_ok hfirst, bind_of_ok hsteps]
  rfl

end Chain

section Items

variable {item : Rule α} {ts rest : List Token} {a : α}

theorem commaSeparated_of_ne (hleaves : LeavesSuffix item) (ha : item ts = .ok (a, rest))
    (hcomma : headKind rest ≠ some .comma) : commaSeparated item ts = .ok ([a], rest) := by
  rw [commaSeparated_eq hleaves, bind_of_ok ha, accept_bind_of_ne hcomma]
  rfl

theorem commaSeparated_of_eq (hleaves : LeavesSuffix item) {comma : Token} {mid : List Token}
    {more : List α} (ha : item ts = .ok (a, comma :: mid)) (hcomma : comma.kind = .comma)
    (hmore : commaSeparated item mid = .ok (more, rest)) :
    commaSeparated item ts = .ok (a :: more, rest) := by
  rw [commaSeparated_eq hleaves, bind_of_ok ha, accept_bind_of_eq hcomma]
  exact bind_of_ok hmore _

end Items

end Offside.Rule

namespace Offside.Grammar

open Rule

/-- The phrases that expressions are made of. Arithmetic knows whether it stands in a group. -/
inductive Phrase where
  | expression
  | logicSteps
  | comparison
  | arithmetic (grouped : Bool)
  | arithSteps (grouped : Bool)
  | operand (grouped : Bool)
  | atom
  | arguments
  | items

namespace Phrase

/-- What stands for a phrase: steps are operators with the operands behind them. -/
abbrev Tree : Phrase → Type
  | logicSteps => List (LogicOp × Expr)
  | arithSteps _ => List (ArithOp × Expr)
  | arguments | items => List Expr
  | expression | comparison | arithmetic _ | operand _ | atom => Expr

/-- Kinds that make a call of the name before them. -/
def callKinds : List Kind := [.dot, .lparen]

def arithKinds : List Kind := [.plus, .minus, .times, .divide]

def compareKinds : List Kind :=
  [.equal, .notEqual, .less, .greater, .lessEqual, .greaterEqual]

def logicKinds : List Kind := [.and, .or]

/-- The kinds that could belong to a phrase right before them. -/
def continuing : Phrase → List Kind
  | expression | logicSteps => logicKinds ++ (compareKinds ++ (arithKinds ++ callKinds))
  | comparison => compareKinds ++ (arithKinds ++ callKinds)
  | arithmetic _ | arithSteps _ => arithKinds ++ callKinds
  | operand _ | atom => callKinds
  | arguments => []
  | items => .comma :: (logicKinds ++ (compareKinds ++ (arithKinds ++ callKinds)))

/-- What follows a phrase does not belong to it. -/
def Stops (p : Phrase) (rest : List Token) : Prop := ∀ t ∈ rest.head?, t.kind ∉ p.continuing

theorem stops_cons {p : Phrase} {t : Token} {rest : List Token} :
    p.Stops (t :: rest) ↔ t.kind ∉ p.continuing := by
  simp [Stops]

theorem stops_of_kind {p : Phrase} {t : Token} {kind : Kind} (ht : t.kind = kind)
    (hkind : kind ∉ p.continuing) (rest : List Token) : p.Stops (t :: rest) := by
  rw [stops_cons, ht]
  exact hkind

theorem Stops.mono {p q : Phrase} {rest : List Token} (h : p.Stops rest)
    (hsub : q.continuing ⊆ p.continuing) : q.Stops rest :=
  fun t ht hmem => h t ht (hsub hmem)

theorem Stops.headKind_ne {p : Phrase} {rest : List Token} (h : p.Stops rest) {kind : Kind}
    (hkind : kind ∈ p.continuing) : headKind rest ≠ some kind := by
  intro heq
  obtain ⟨t, mid, rfl, rfl⟩ := exists_cons_of_headKind heq
  exact stops_cons.1 h hkind

theorem Stops.bind_eq_none {ω : Type} {op : Kind → Option ω} {p : Phrase} {rest : List Token}
    (h : p.Stops rest) (hop : ∀ k o, op k = some o → k ∈ p.continuing) :
    (headKind rest).bind op = none := by
  cases hhead : (headKind rest).bind op with
  | none => rfl
  | some o =>
    obtain ⟨kind, hkind, ho⟩ := Option.bind_eq_some_iff.1 hhead
    exact absurd hkind (h.headKind_ne (hop kind o ho))

/-- The rule that reads operands, in a group or outside. -/
def operandRule : Bool → Rule Expr
  | true => groupOperand expr
  | false => Grammar.operand expr

/-- The rule that reads a phrase. -/
def rule : (p : Phrase) → Rule p.Tree
  | expression => expr
  | logicSteps => operations logicOp? (Grammar.comparison expr)
  | comparison => Grammar.comparison expr
  | arithmetic grouped => chain arithOp? .arith (operandRule grouped)
  | arithSteps grouped => operations arithOp? (operandRule grouped)
  | operand grouped => operandRule grouped
  | atom => Grammar.atom expr
  | arguments => Grammar.arguments expr
  | items => commaSeparated expr

theorem operandRule_advances (grouped : Bool) : Advances (operandRule grouped) := by
  cases grouped with
  | true => exact groupOperand_advances expr_advances.leaves
  | false => exact operand_advances expr_advances.leaves

end Phrase

/-- The grammar of expressions: the tokens of each phrase, and the tree that stands for them. -/
inductive Derives : (p : Phrase) → List Token → p.Tree → Prop
  | expression {u v : List Token} {first : Expr} {steps : List (LogicOp × Expr)} :
      Derives .comparison u first → Derives .logicSteps v steps →
      Derives .expression (u ++ v)
        (steps.foldl (fun left step => .logic step.1 left step.2) first)
  | logicEnd : Derives .logicSteps [] []
  | logicStep {t : Token} {op : LogicOp} {u v : List Token} {right : Expr}
      {steps : List (LogicOp × Expr)} :
      t.kind = op.kind → Derives .comparison u right → Derives .logicSteps v steps →
      Derives .logicSteps (t :: (u ++ v)) ((op, right) :: steps)
  | single {u : List Token} {e : Expr} :
      Derives (.arithmetic false) u e → Derives .comparison u e
  | compared {t : Token} {op : CompareOp} {u v : List Token} {left right : Expr} :
      Derives (.arithmetic false) u left → t.kind = op.kind → Derives (.arithmetic false) v right →
      Derives .comparison (u ++ t :: v) (.compare op left right)
  | arithmetic {grouped : Bool} {u v : List Token} {first : Expr}
      {steps : List (ArithOp × Expr)} :
      Derives (.operand grouped) u first → Derives (.arithSteps grouped) v steps →
      Derives (.arithmetic grouped) (u ++ v)
        (steps.foldl (fun left step => .arith step.1 left step.2) first)
  | arithEnd {grouped : Bool} : Derives (.arithSteps grouped) [] []
  | arithStep {grouped : Bool} {t : Token} {op : ArithOp} {u v : List Token} {right : Expr}
      {steps : List (ArithOp × Expr)} :
      t.kind = op.kind → Derives (.operand grouped) u right →
      Derives (.arithSteps grouped) v steps →
      Derives (.arithSteps grouped) (t :: (u ++ v)) ((op, right) :: steps)
  | ofAtom {grouped : Bool} {u : List Token} {e : Expr} :
      Derives .atom u e → Derives (.operand grouped) u e
  -- Only outside a group: what it holds is grouped.
  | group {left right : Token} {u : List Token} {e : Expr} :
      left.kind = .lparen → Derives (.arithmetic true) u e → right.kind = .rparen →
      Derives (.operand false) (left :: (u ++ [right])) e
  | number {t : Token} {x : Float} :
      t.kind = .number → Decimal.read? t.content = some x → Derives .atom [t] (.number x)
  | negative {minus t : Token} {x : Float} :
      minus.kind = .minus → t.kind = .number → Decimal.read? t.content = some x →
      Derives .atom [minus, t] (.number (-x))
  | string {t : Token} : t.kind = .string → Derives .atom [t] (.string t.content)
  | character {t : Token} :
      t.kind = .character → Derives .atom [t] (.character (t.content.toList.headD ' '))
  | keyTrue {t : Token} : t.kind = .keyTrue → Derives .atom [t] (.boolean true)
  | keyFalse {t : Token} : t.kind = .keyFalse → Derives .atom [t] (.boolean false)
  | construct {new cls : Token} {u : List Token} {args : List Expr} :
      new.kind = .keyNew → cls.kind = .word → Derives .arguments u args →
      Derives .atom (new :: cls :: u) (.construct cls.content args)
  | ownCall {method : Token} {u : List Token} {args : List Expr} :
      method.kind = .word → Derives .arguments u args →
      Derives .atom (method :: u) (.call none method.content args)
  | call {receiver dot method : Token} {u : List Token} {args : List Expr} :
      receiver.kind = .word → dot.kind = .dot → method.kind = .word → Derives .arguments u args →
      Derives .atom (receiver :: dot :: method :: u)
        (.call (some receiver.content) method.content args)
  | bareCall {receiver dot method : Token} :
      receiver.kind = .word → dot.kind = .dot → method.kind = .word →
      Derives .atom [receiver, dot, method] (.call (some receiver.content) method.content [])
  | var {t : Token} : t.kind = .word → Derives .atom [t] (.var t.content)
  | noArguments {left right : Token} :
      left.kind = .lparen → right.kind = .rparen → Derives .arguments [left, right] []
  | someArguments {left right : Token} {u : List Token} {args : List Expr} :
      left.kind = .lparen → Derives .items u args → right.kind = .rparen →
      Derives .arguments (left :: (u ++ [right])) args
  | lastItem {u : List Token} {e : Expr} : Derives .expression u e → Derives .items u [e]
  | item {comma : Token} {u v : List Token} {e : Expr} {more : List Expr} :
      Derives .expression u e → comma.kind = .comma → Derives .items v more →
      Derives .items (u ++ comma :: v) (e :: more)

theorem kind_of_logicOp? {k : Kind} {op : LogicOp} (h : logicOp? k = some op) : k = op.kind := by
  cases k <;> cases h <;> rfl

theorem kind_of_compareOp? {k : Kind} {op : CompareOp} (h : compareOp? k = some op) :
    k = op.kind := by
  cases k <;> cases h <;> rfl

theorem kind_of_arithOp? {k : Kind} {op : ArithOp} (h : arithOp? k = some op) : k = op.kind := by
  cases k <;> cases h <;> rfl

theorem number_eq_ok {ts rest : List Token} {x : Float} :
    number ts = .ok (x, rest) ↔
      ∃ t, ts = t :: rest ∧ t.kind = .number ∧ Decimal.read? t.content = some x := by
  constructor
  · intro h
    unfold number at h
    split at h
    · cases h
    · rename_i t mid ht
      obtain ⟨rfl, hkind⟩ := expect_eq_ok.1 ht
      split at h
      · rename_i y hy
        cases h
        exact ⟨t, rfl, hkind, hy⟩
      · cases h
  · rintro ⟨t, rfl, hkind, hread⟩
    rw [number, expect_eq_ok.2 ⟨rfl, hkind⟩]
    simp only [hread]

/-! What a rule takes is derived. The rules are followed from the arguments up, each over any rule
for expressions that takes derived ones. -/

section Soundness

variable {p : Rule Expr}

theorem arguments_consumes (h : Consumes p (Derives .expression)) :
    Consumes (arguments p) (Derives .arguments) := by
  refine .expect_bind fun left hleft => .accept_bind (fun right hright => .pure ?_) ?_
  · exact .noArguments hleft hright
  · have hitems : Consumes (commaSeparated p) (Derives .items) :=
      h.commaSeparated (fun _ _ hu => .lastItem hu) fun _ _ _ _ _ hcomma hu hv => .item hu hcomma hv
    refine hitems.bind fun args u hu => .expect_bind fun right hright => .pure ?_
    exact .someArguments hleft hu hright

theorem call_consumes (h : Consumes p (Derives .expression)) :
    Consumes (call p) fun u c => Derives .atom u c.toExpr := by
  have hargs := arguments_consumes h
  have hown : Consumes (do
      let method ← word "method name"
      return ⟨none, method, ← arguments p⟩ : Rule Call) fun u c => Derives .atom u c.toExpr :=
    .word_bind fun method hmethod => hargs.map fun _ _ hu => .ownCall hmethod hu
  intro ts rest c hc
  rw [call, startsWith_bind] at hc
  split at hc
  · rename_i hstart
    obtain ⟨hfirst, hsecond⟩ := of_decide_eq_true hstart
    obtain ⟨receiver, ts, rfl, hreceiver⟩ := exists_cons_of_headKind hfirst
    have hhead : headKind ts = some .dot := hsecond
    obtain ⟨dot, ts, rfl, hdot⟩ := exists_cons_of_headKind hhead
    have hbehind : Consumes (do
        let method ← word "method name"
        if (← peekKind 0) = some .lparen then
          return ⟨some receiver.content, method, ← arguments p⟩
        else return ⟨some receiver.content, method, []⟩ : Rule Call)
        fun u c => Derives .atom (receiver :: dot :: u) c.toExpr := by
      refine .word_bind fun method hmethod => .peekKind_bind fun kind => ?_
      split
      · exact hargs.map fun _ _ hu => .call hreceiver hdot hmethod hu
      · exact .pure (.bareCall hreceiver hdot hmethod)
    rw [word_bind_of_eq hreceiver] at hc
    obtain ⟨u, rfl, hu⟩ := hbehind ts rest c hc
    exact ⟨receiver :: dot :: u, rfl, hu⟩
  · exact hown ts rest c hc

theorem atom_consumes (h : Consumes p (Derives .expression)) :
    Consumes (atom p) (Derives .atom) := by
  intro ts rest e he
  rw [atom, peekKind_bind, peekKind_bind] at he
  generalize hfirst : ts[0]?.map Token.kind = first at he
  generalize ts[1]?.map Token.kind = second at he
  split at he
  case h_1 =>
    obtain ⟨x, mid, hx, hpure⟩ := bind_eq_ok.1 he
    obtain ⟨t, rfl, hkind, hread⟩ := number_eq_ok.1 hx
    cases hpure
    exact ⟨[t], rfl, .number hkind hread⟩
  case h_2 =>
    obtain ⟨minus, ts, rfl, hminus⟩ := exists_cons_of_headKind hfirst
    have he : (number >>= fun x => pure (.number (-x)) : Rule Expr) ts = .ok (e, rest) := he
    obtain ⟨x, mid, hx, hpure⟩ := bind_eq_ok.1 he
    obtain ⟨t, rfl, hkind, hread⟩ := number_eq_ok.1 hx
    cases hpure
    exact ⟨[minus, t], rfl, .negative hminus hkind hread⟩
  case h_3 => exact Consumes.expect_bind (fun t ht => .pure (.string ht)) ts rest e he
  case h_4 => exact Consumes.expect_bind (fun t ht => .pure (.character ht)) ts rest e he
  case h_5 =>
    obtain ⟨t, ts, rfl, ht⟩ := exists_cons_of_headKind hfirst
    cases he
    exact ⟨[t], rfl, .keyTrue ht⟩
  case h_6 =>
    obtain ⟨t, ts, rfl, ht⟩ := exists_cons_of_headKind hfirst
    cases he
    exact ⟨[t], rfl, .keyFalse ht⟩
  case h_7 =>
    obtain ⟨new, ts, rfl, hnew⟩ := exists_cons_of_headKind hfirst
    have hbehind : Consumes (do
        let cls ← word "class name"
        return .construct cls (← arguments p) : Rule Expr) fun u e => Derives .atom (new :: u) e :=
      .word_bind fun cls hcls => (arguments_consumes h).map fun _ _ hu => .construct hnew hcls hu
    obtain ⟨u, rfl, hu⟩ := hbehind ts rest e he
    exact ⟨new :: u, rfl, hu⟩
  case h_8 => exact (call_consumes h).map (fun _ _ hu => hu) ts rest e he
  case h_9 => exact (call_consumes h).map (fun _ _ hu => hu) ts rest e he
  case h_10 =>
    obtain ⟨name, mid, hname, hpure⟩ := bind_eq_ok.1 he
    obtain ⟨t, rfl, hkind, rfl⟩ := word_eq_ok.1 hname
    cases hpure
    exact ⟨[t], rfl, .var hkind⟩
  case h_11 => cases he

theorem groupOperand_consumes (h : Consumes p (Derives .expression)) :
    Consumes (groupOperand p) (Derives (.operand true)) := by
  intro ts rest e he
  unfold groupOperand at he
  split at he
  · cases he
  · exact (atom_consumes h).mono (fun _ _ hu => .ofAtom hu) ts rest e he

/-- A chain of operands, in a group or outside, is arithmetic. -/
theorem chain_consumes {item : Rule Expr} {grouped : Bool}
    (h : Consumes item (Derives (.operand grouped))) :
    Consumes (chain arithOp? .arith item) (Derives (.arithmetic grouped)) := by
  have hsteps : Consumes (operations arithOp? item) (Derives (.arithSteps grouped)) :=
    h.operations .arithEnd fun _ _ _ _ _ _ ho hu hv => .arithStep (kind_of_arithOp? ho) hu hv
  exact h.bind fun first u hu => hsteps.map fun _ _ hv => .arithmetic hu hv

theorem operand_consumes (h : Consumes p (Derives .expression)) :
    Consumes (operand p) (Derives (.operand false)) := by
  refine .accept_bind (fun left hleft => ?_) ((atom_consumes h).mono fun _ _ hu => .ofAtom hu)
  refine (chain_consumes (groupOperand_consumes h)).bind fun inner u hu => ?_
  exact .expect_bind fun right hright => .pure (.group hleft hu hright)

theorem comparison_consumes (h : Consumes p (Derives .expression)) :
    Consumes (comparison p) (Derives .comparison) := by
  have harith : Consumes (arithmetic p) (Derives (.arithmetic false)) :=
    chain_consumes (operand_consumes h)
  refine harith.bind fun left u hu => .operator_bind (q := Pure.pure left)
    (g := fun op => arithmetic p >>= fun right => Pure.pure (.compare op left right))
    (fun k hk => by rw [hk]) (fun k op hop => by rw [Option.bind_some, hop]) (.pure ?_) ?_
  · rw [List.append_nil]
    exact .single hu
  · exact fun t op hop => harith.map fun _ _ hv => .compared hu (kind_of_compareOp? hop) hv

/-- What the rule for expressions takes is derived, with the tree that it gives. -/
theorem expr_consumes : Consumes expr (Derives .expression) := by
  refine .fix fun p h => ?_
  have hcomparison := comparison_consumes h
  have hsteps : Consumes (operations logicOp? (comparison p)) (Derives .logicSteps) :=
    hcomparison.operations .logicEnd
      fun _ _ _ _ _ _ ho hu hv => .logicStep (kind_of_logicOp? ho) hu hv
  exact hcomparison.bind fun first u hu => hsteps.map fun _ _ hv => .expression hu hv

end Soundness

/-! What is derived is read. Along a derivation, each phrase is read before whatever cannot belong
to it; a phrase inside another one is followed by what the derivation puts there. -/

section Completeness

variable {u v rest : List Token}

/-- The tokens begin as an operand does. -/
def Starts (ts : List Token) : Prop :=
  ∃ t more, ts = t :: more ∧ (startsExpr t.kind = true ∨ t.kind = .lparen)

theorem Starts.append (h : Starts u) (v : List Token) : Starts (u ++ v) := by
  obtain ⟨t, more, rfl, ht⟩ := h
  exact ⟨t, more ++ v, rfl, ht⟩

theorem Starts.headKind_ne (h : Starts u) {kind : Kind} (hkind : startsExpr kind = false)
    (hparen : kind ≠ .lparen) : headKind u ≠ some kind := by
  obtain ⟨t, more, rfl, ht⟩ := h
  intro heq
  cases heq
  rcases ht with ht | ht
  · rw [hkind] at ht
    cases ht
  · exact hparen ht

namespace Derives

theorem atom_starts {e : Expr} (h : Derives .atom u e) :
    ∃ t more, u = t :: more ∧ startsExpr t.kind = true := by
  -- Each way to make an atom says what kind its first token is of.
  cases h <;> exact ⟨_, _, rfl, by simp only [startsExpr, *]⟩

theorem atom_headKind_ne {e : Expr} (h : Derives .atom u e) (rest : List Token) :
    headKind (u ++ rest) ≠ some .lparen := by
  obtain ⟨t, more, rfl, ht⟩ := h.atom_starts
  intro heq
  have hkind : t.kind = .lparen := Option.some.inj heq
  rw [hkind] at ht
  cases ht

theorem operand_starts {grouped : Bool} {e : Expr} (h : Derives (.operand grouped) u e) :
    Starts u := by
  cases h with
  | ofAtom h =>
    obtain ⟨t, more, rfl, ht⟩ := h.atom_starts
    exact ⟨t, more, rfl, .inl ht⟩
  | group hleft _ _ => exact ⟨_, _, rfl, .inr hleft⟩

theorem arithmetic_starts {grouped : Bool} {e : Expr} (h : Derives (.arithmetic grouped) u e) :
    Starts u := by
  cases h with
  | arithmetic hfirst _ => exact hfirst.operand_starts.append _

theorem expression_starts {e : Expr} (h : Derives .expression u e) : Starts u := by
  cases h with
  | expression hfirst _ =>
    refine Starts.append ?_ _
    cases hfirst with
    | single h => exact h.arithmetic_starts
    | compared h _ _ => exact h.arithmetic_starts.append _

theorem items_starts {args : List Expr} (h : Derives .items u args) : Starts u := by
  cases h with
  | lastItem h => exact h.expression_starts
  | item h _ _ => exact h.expression_starts.append _

theorem arguments_starts {args : List Expr} (h : Derives .arguments u args) (rest : List Token) :
    headKind (u ++ rest) = some .lparen := by
  cases h with
  | noArguments hleft _ => exact congrArg some hleft
  | someArguments hleft _ _ => exact congrArg some hleft

/-- Behind a comparison come an operator that joins comparisons, or what follows them all. -/
theorem stops_comparison {steps : List (LogicOp × Expr)} (h : Derives .logicSteps v steps)
    (hr : Phrase.logicSteps.Stops rest) : Phrase.comparison.Stops (v ++ rest) := by
  cases h with
  | logicEnd => exact hr.mono (List.subset_append_right _ _)
  | @logicStep t op _ _ _ _ ht _ _ =>
    refine Phrase.stops_of_kind ht ?_ _
    cases op <;> decide

theorem stops_operand {grouped : Bool} {steps : List (ArithOp × Expr)}
    (h : Derives (.arithSteps grouped) v steps) (hr : (Phrase.arithSteps grouped).Stops rest) :
    (Phrase.operand grouped).Stops (v ++ rest) := by
  cases h with
  | arithEnd => exact hr.mono (List.subset_append_right _ _)
  | @arithStep _ t op _ _ _ _ ht _ _ =>
    refine Phrase.stops_of_kind ht ?_ _
    show op.kind ∉ Phrase.callKinds
    cases op <;> decide

end Derives

theorem comparison_of_none {left : Expr} (h : arithmetic expr u = .ok (left, rest))
    (hend : (headKind rest).bind compareOp? = none) : comparison expr u = .ok (left, rest) := by
  rw [comparison, bind_of_ok h, peekKind_head_bind, hend]
  rfl

theorem comparison_of_some {t : Token} {op : CompareOp} {left right : Expr}
    (hleft : arithmetic expr u = .ok (left, t :: v)) (ht : t.kind = op.kind)
    (hright : arithmetic expr v = .ok (right, rest)) :
    comparison expr u = .ok (.compare op left right, rest) := by
  rw [comparison, bind_of_ok hleft, peekKind_head_bind, headKind_cons, Option.bind_some, ht,
    compareOp?_kind]
  show (arithmetic expr >>= _) v = _
  rw [bind_of_ok hright]
  rfl

theorem groupOperand_of_ne (h : headKind u ≠ some .lparen) :
    groupOperand expr u = atom expr u := by
  unfold groupOperand
  split
  · rename_i heq
    rw [List.head?_eq_getElem?] at heq
    exact absurd heq h
  · rfl

theorem operandRule_of_atom (grouped : Bool) (h : headKind u ≠ some .lparen) :
    Phrase.operandRule grouped u = atom expr u := by
  cases grouped with
  | true => exact groupOperand_of_ne h
  | false => exact accept_bind_of_ne h _

theorem operand_of_group {left right : Token} {e : Expr} (hleft : left.kind = .lparen)
    (h : chain arithOp? .arith (groupOperand expr) u = .ok (e, right :: rest))
    (hright : right.kind = .rparen) : operand expr (left :: u) = .ok (e, rest) := by
  rw [operand, accept_bind_of_eq hleft]
  show (chain arithOp? .arith (groupOperand expr) >>= _) u = _
  rw [bind_of_ok h, bind_of_ok (expect_eq_ok.2 ⟨rfl, hright⟩)]
  rfl

theorem arguments_of_close {left right : Token} (hleft : left.kind = .lparen)
    (hright : right.kind = .rparen) : arguments expr (left :: right :: rest) = .ok ([], rest) := by
  rw [arguments, bind_of_ok (expect_eq_ok.2 ⟨rfl, hleft⟩)]
  exact accept_bind_of_eq hright _ rest

theorem arguments_of_items {left right : Token} {args : List Expr} (hleft : left.kind = .lparen)
    (hstarts : Starts u) (h : commaSeparated expr u = .ok (args, right :: rest))
    (hright : right.kind = .rparen) : arguments expr (left :: u) = .ok (args, rest) := by
  rw [arguments, bind_of_ok (expect_eq_ok.2 ⟨rfl, hleft⟩),
    accept_bind_of_ne (hstarts.headKind_ne rfl (by decide))]
  show (commaSeparated expr >>= _) u = _
  rw [bind_of_ok h, bind_of_ok (expect_eq_ok.2 ⟨rfl, hright⟩)]
  rfl

theorem call_of_own {method : Token} {args : List Expr} (hmethod : method.kind = .word)
    (hparen : headKind u = some .lparen) (h : arguments expr u = .ok (args, rest)) :
    call expr (method :: u) = .ok (⟨none, method.content, args⟩, rest) := by
  have hplain : ¬ ((method :: u)[0]?.map Token.kind = some .word ∧
      (method :: u)[1]?.map Token.kind = some .dot) := by
    rintro ⟨-, hdot⟩
    rw [show (method :: u)[1]?.map Token.kind = headKind u from rfl, hparen] at hdot
    cases hdot
  rw [call, startsWith_bind, decide_eq_false hplain]
  show (word "method name" >>= _) (method :: u) = _
  rw [word_bind_of_eq hmethod, bind_of_ok h]
  rfl

/-- Behind a receiver and a method, an argument list is read if a parenthesis opens one. -/
theorem call_receiver_eq {receiver dot method : Token} (hreceiver : receiver.kind = .word)
    (hdot : dot.kind = .dot) (hmethod : method.kind = .word) :
    call expr (receiver :: dot :: method :: u) =
      (if headKind u = some .lparen then do
        return ⟨some receiver.content, method.content, ← arguments expr⟩
      else return ⟨some receiver.content, method.content, []⟩ : Rule Call) u := by
  have hstart : (receiver :: dot :: method :: u)[0]?.map Token.kind = some .word ∧
      (receiver :: dot :: method :: u)[1]?.map Token.kind = some .dot :=
    ⟨congrArg some hreceiver, congrArg some hdot⟩
  rw [call, startsWith_bind, decide_eq_true hstart]
  show (word "object name" >>= _) (receiver :: dot :: method :: u) = _
  rw [word_bind_of_eq hreceiver]
  show (word "method name" >>= _) (method :: u) = _
  rw [word_bind_of_eq hmethod, peekKind_head_bind]

theorem call_of_receiver {receiver dot method : Token} {args : List Expr}
    (hreceiver : receiver.kind = .word) (hdot : dot.kind = .dot) (hmethod : method.kind = .word)
    (hparen : headKind u = some .lparen) (h : arguments expr u = .ok (args, rest)) :
    call expr (receiver :: dot :: method :: u) =
      .ok (⟨some receiver.content, method.content, args⟩, rest) := by
  rw [call_receiver_eq hreceiver hdot hmethod, if_pos hparen, bind_of_ok h]
  rfl

theorem call_of_bare {receiver dot method : Token} (hreceiver : receiver.kind = .word)
    (hdot : dot.kind = .dot) (hmethod : method.kind = .word)
    (hparen : headKind rest ≠ some .lparen) :
    call expr (receiver :: dot :: method :: rest) =
      .ok (⟨some receiver.content, method.content, []⟩, rest) := by
  rw [call_receiver_eq hreceiver hdot hmethod, if_neg hparen]
  rfl

/-- A name before a dot or an argument list is a call. -/
theorem atom_of_call {t : Token} {c : Call} (ht : t.kind = .word)
    (hsecond : headKind u = some .dot ∨ headKind u = some .lparen)
    (h : call expr (t :: u) = .ok (c, rest)) : atom expr (t :: u) = .ok (c.toExpr, rest) := by
  have hkind : (t :: u)[1]?.map Token.kind = headKind u := rfl
  rw [atom, peekKind_bind, peekKind_bind, hkind, List.getElem?_cons_zero, Option.map_some, ht]
  rcases hsecond with hsecond | hsecond <;> rw [hsecond] <;> exact bind_of_ok h _

theorem atom_of_number {t : Token} {x : Float} (ht : t.kind = .number)
    (hread : Decimal.read? t.content = some x) :
    atom expr (t :: rest) = .ok (.number x, rest) := by
  rw [atom, peekKind_bind, peekKind_bind, List.getElem?_cons_zero, Option.map_some, ht]
  exact bind_of_ok (number_eq_ok.2 ⟨t, rfl, ht, hread⟩) _

theorem atom_of_negative {minus t : Token} {x : Float} (hminus : minus.kind = .minus)
    (ht : t.kind = .number) (hread : Decimal.read? t.content = some x) :
    atom expr (minus :: t :: rest) = .ok (.number (-x), rest) := by
  have hkind : (minus :: t :: rest)[1]?.map Token.kind = some .number := congrArg some ht
  rw [atom, peekKind_bind, peekKind_bind, hkind, List.getElem?_cons_zero, Option.map_some, hminus]
  exact bind_of_ok (number_eq_ok.2 ⟨t, rfl, ht, hread⟩) _

theorem atom_of_new {new cls : Token} {args : List Expr} (hnew : new.kind = .keyNew)
    (hcls : cls.kind = .word) (h : arguments expr u = .ok (args, rest)) :
    atom expr (new :: cls :: u) = .ok (.construct cls.content args, rest) := by
  rw [atom, peekKind_bind, peekKind_bind, List.getElem?_cons_zero, Option.map_some, hnew]
  show (word "class name" >>= _) (cls :: u) = _
  rw [word_bind_of_eq hcls, bind_of_ok h]
  rfl

theorem atom_of_string {t : Token} (ht : t.kind = .string) :
    atom expr (t :: rest) = .ok (.string t.content, rest) := by
  rw [atom, peekKind_bind, peekKind_bind, List.getElem?_cons_zero, Option.map_some, ht]
  exact bind_of_ok (expect_eq_ok.2 ⟨rfl, ht⟩) _

theorem atom_of_character {t : Token} (ht : t.kind = .character) :
    atom expr (t :: rest) = .ok (.character (t.content.toList.headD ' '), rest) := by
  rw [atom, peekKind_bind, peekKind_bind, List.getElem?_cons_zero, Option.map_some, ht]
  exact bind_of_ok (expect_eq_ok.2 ⟨rfl, ht⟩) _

theorem atom_of_boolean {t : Token} {value : Bool}
    (ht : t.kind = if value then .keyTrue else .keyFalse) :
    atom expr (t :: rest) = .ok (.boolean value, rest) := by
  rw [atom, peekKind_bind, peekKind_bind, List.getElem?_cons_zero, Option.map_some, ht]
  cases value <;> rfl

/-- What is derived is read, before whatever does not belong to it. -/
theorem Derives.rule_eq {p : Phrase} {w : List Token} {tree : p.Tree} (h : Derives p w tree) :
    ∀ rest, p.Stops rest → p.rule (w ++ rest) = .ok (tree, rest) := by
  have hcomparison := comparison_advances expr_advances.leaves
  induction h with
  | @expression u v first steps hu hv ihu ihv =>
    intro rest hr
    rw [List.append_assoc]
    show expr _ = _
    rw [expr_eq]
    exact chain_of_ok (ihu _ (hv.stops_comparison hr)) (ihv rest hr)
  | logicEnd =>
    intro rest hr
    exact operations_of_none hcomparison
      (hr.bind_eq_none fun k op hop => by rw [kind_of_logicOp? hop]; cases op <;> decide)
  | @logicStep t op u v right steps ht hu hv ihu ihv =>
    intro rest hr
    rw [List.cons_append, List.append_assoc]
    have hop : logicOp? t.kind = some op := by rw [ht, logicOp?_kind]
    exact operations_of_some hcomparison hop (ihu _ (hv.stops_comparison hr)) (ihv rest hr)
  | single hu ihu =>
    intro rest hr
    refine comparison_of_none (ihu rest (hr.mono (List.subset_append_right _ _))) ?_
    exact hr.bind_eq_none fun k op hop => by rw [kind_of_compareOp? hop]; cases op <;> decide
  | @compared t op u v left right hu ht hv ihu ihv =>
    intro rest hr
    rw [List.append_assoc, List.cons_append]
    have hstop : (Phrase.arithmetic false).Stops (t :: (v ++ rest)) := by
      refine Phrase.stops_of_kind ht ?_ _
      cases op <;> decide
    exact comparison_of_some (ihu _ hstop) ht
      (ihv rest (hr.mono (List.subset_append_right _ _)))
  | arithmetic hu hv ihu ihv =>
    intro rest hr
    rw [List.append_assoc]
    exact chain_of_ok (ihu _ (hv.stops_operand hr)) (ihv rest hr)
  | arithEnd =>
    intro rest hr
    refine operations_of_none (Phrase.operandRule_advances _) (hr.bind_eq_none fun k op hop => ?_)
    show k ∈ Phrase.arithKinds ++ Phrase.callKinds
    rw [kind_of_arithOp? hop]
    cases op <;> decide
  | @arithStep grouped t op u v right steps ht hu hv ihu ihv =>
    intro rest hr
    rw [List.cons_append, List.append_assoc]
    have hop : arithOp? t.kind = some op := by rw [ht, arithOp?_kind]
    exact operations_of_some (Phrase.operandRule_advances _) hop (ihu _ (hv.stops_operand hr))
      (ihv rest hr)
  | ofAtom hu ihu =>
    intro rest hr
    exact (operandRule_of_atom _ (hu.atom_headKind_ne rest)).trans (ihu rest hr)
  | @group left right u e hleft hu hright ihu =>
    intro rest _
    rw [List.cons_append, List.append_assoc]
    have hstop : (Phrase.arithmetic true).Stops (right :: rest) :=
      Phrase.stops_of_kind hright (by decide) rest
    exact operand_of_group hleft (ihu _ hstop) hright
  | number ht hread => exact fun rest _ => atom_of_number ht hread
  | negative hminus ht hread => exact fun rest _ => atom_of_negative hminus ht hread
  | string ht => exact fun rest _ => atom_of_string ht
  | character ht => exact fun rest _ => atom_of_character ht
  | keyTrue ht => exact fun rest _ => atom_of_boolean ht
  | keyFalse ht => exact fun rest _ => atom_of_boolean ht
  | construct hnew hcls hu ihu =>
    intro rest _
    exact atom_of_new hnew hcls (ihu rest (fun _ _ => List.not_mem_nil))
  | ownCall hmethod hu ihu =>
    intro rest _
    have hargs := ihu rest fun _ _ => List.not_mem_nil
    have hparen := hu.arguments_starts rest
    exact atom_of_call hmethod (.inr hparen) (call_of_own hmethod hparen hargs)
  | @call receiver dot method u args hreceiver hdot hmethod hu ihu =>
    intro rest _
    have hargs := ihu rest fun _ _ => List.not_mem_nil
    have hsecond : headKind (dot :: method :: (u ++ rest)) = some .dot := congrArg some hdot
    exact atom_of_call hreceiver (.inl hsecond)
      (call_of_receiver hreceiver hdot hmethod (hu.arguments_starts rest) hargs)
  | @bareCall receiver dot method hreceiver hdot hmethod =>
    intro rest hr
    have hparen : headKind rest ≠ some .lparen := hr.headKind_ne (by decide)
    have hsecond : headKind (dot :: method :: rest) = some .dot := congrArg some hdot
    exact atom_of_call hreceiver (.inl hsecond)
      (call_of_bare hreceiver hdot hmethod hparen)
  | var ht =>
    intro rest hr
    exact atom_of_word ht (hr.headKind_ne (by decide)) (hr.headKind_ne (by decide))
  | noArguments hleft hright => exact fun rest _ => arguments_of_close hleft hright
  | @someArguments left right u args hleft hu hright ihu =>
    intro rest _
    rw [List.cons_append, List.append_assoc]
    have hstop : Phrase.items.Stops (right :: rest) :=
      Phrase.stops_of_kind hright (by decide) rest
    exact arguments_of_items hleft (hu.items_starts.append _) (ihu _ hstop) hright
  | lastItem hu ihu =>
    intro rest hr
    have hlast := ihu rest (hr.mono (List.subset_cons_self _ _))
    exact commaSeparated_of_ne expr_advances.leaves hlast (hr.headKind_ne List.mem_cons_self)
  | @item comma u v e more hu hcomma hv ihu ihv =>
    intro rest hr
    rw [List.append_assoc, List.cons_append]
    have hstop : Phrase.expression.Stops (comma :: (v ++ rest)) :=
      Phrase.stops_of_kind hcomma (by decide) _
    exact commaSeparated_of_eq expr_advances.leaves (ihu _ hstop) hcomma (ihv rest hr)

end Completeness

/-- The rule for expressions takes the tokens of an expression, and all of them unless more of it
could follow. -/
theorem expr_recognizes :
    (∀ ts rest e, expr ts = .ok (e, rest) →
      ∃ used, ts = used ++ rest ∧ Derives .expression used e) ∧
    ∀ used e rest, Derives .expression used e → Phrase.expression.Stops rest →
      expr (used ++ rest) = .ok (e, rest) :=
  ⟨expr_consumes, fun _ _ rest h hr => h.rule_eq rest hr⟩

namespace Mixed

def name (text : String) : Token := ⟨.word, Position.start, some text⟩

/-- The tokens of `a + b * (c - d) < e.f(g, (h)) or i`. -/
def tokens : List Token :=
  [name "a", Kind.plus.token, name "b", Kind.times.token, Kind.lparen.token, name "c",
    Kind.minus.token, name "d", Kind.rparen.token, Kind.less.token, name "e", Kind.dot.token,
    name "f", Kind.lparen.token, name "g", Kind.comma.token, Kind.lparen.token, name "h",
    Kind.rparen.token, Kind.rparen.token, Kind.or.token, name "i"]

/-- The sum is multiplied: operators of one chain have one rank. -/
def tree : Expr :=
  .logic .or (.compare .less
      (.arith .mul (.arith .add (.var "a") (.var "b")) (.arith .sub (.var "c") (.var "d")))
      (.call (some "e") "f" [.var "g", .var "h"]))
    (.var "i")

end Mixed

open Mixed in
theorem expr_recognizes_mixed :
    Derives .expression tokens tree ∧
      expr (tokens ++ [Kind.newline.token]) = .ok (tree, [Kind.newline.token]) := by
  obtain ⟨used, hused, hderives⟩ := expr_recognizes.1 tokens [] tree rfl
  rw [List.append_nil] at hused
  subst hused
  have hstop : Phrase.expression.Stops [Kind.newline.token] :=
    Phrase.stops_of_kind rfl (by decide) []
  exact ⟨hderives, expr_recognizes.2 _ _ _ hderives hstop⟩

end Offside.Grammar
