import Offside.Proofs.Rule.Progress

/-!
Rounds of recursive rules. A loop does one round after another. Before any tokens a round refuses,
or leaves the loop, or takes at least one token and has the loop go on behind it; a loop whose
rounds do so is over after at most one round more than there are tokens. A rule that uses itself in
other places, but only behind a token, is settled by as many rounds inside one another, whatever
rule stands in the innermost. The complaint of a rule whose rounds are used up is therefore never
made.
-/
namespace Offside.Rule

variable {α β : Type}

/-- What a round does before the tokens `ts` if it began with `n` tokens. Only in the last case the
loop is asked again, and then before fewer tokens. -/
inductive Turn (n : Nat) (round : Rule β → Rule β) (ts : List Token) : Prop
  | refuses (r : Refusal) (h : ∀ again, round again ts = .error r)
  | leaves (b : β) (rest : List Token) (hrest : rest <:+ ts)
      (h : ∀ again, round again ts = .ok (b, rest))
  | goesOn (g : β → β) (rest : List Token) (hrest : rest <:+ ts) (hlt : rest.length < n)
      (h : ∀ again, round again ts = (g <$> again) rest)

/-- The loop is over after a number of rounds: each but the last takes a token. -/
inductive OverAfter (round : Rule β → Rule β) : Nat → List Token → Prop
  | last {ts : List Token} (h : ∀ again again', round again ts = round again' ts) :
      OverAfter round 1 ts
  | another {n : Nat} {ts rest : List Token} (g : β → β) (hrest : rest <:+ ts)
      (hlt : rest.length < ts.length) (h : ∀ again, round again ts = (g <$> again) rest)
      (hover : OverAfter round n rest) : OverAfter round (n + 1) ts

/-- The rule does the round again and again, and each time it comes nearer to an end. -/
structure Loops (p : Rule β) (round : Rule β → Rule β) : Prop where
  unfolds : p = round p
  turn : ∀ ts : List Token, Turn ts.length round ts

/-- A loop each of whose rounds refuses, leaves it or takes a token comes to an end. -/
theorem Loops.exists_overAfter {p : Rule β} {round : Rule β → Rule β} (h : Loops p round)
    (ts : List Token) : ∃ n ≤ ts.length + 1, OverAfter round n ts := by
  -- The number of tokens bounds the rounds, since those that go on take one each.
  induction hlength : ts.length using Nat.strongRecOn generalizing ts with
  | ind k ih =>
    subst hlength
    cases h.turn ts with
    | refuses r hr =>
      exact ⟨1, Nat.le_add_left 1 _, .last fun again again' => (hr again).trans (hr again').symm⟩
    | leaves b rest hrest hb =>
      exact ⟨1, Nat.le_add_left 1 _, .last fun again again' => (hb again).trans (hb again').symm⟩
    | goesOn g rest hrest hlt hg =>
      obtain ⟨n, hn, hover⟩ := ih rest.length hlt rest rfl
      exact ⟨n + 1, by omega, .another g hrest hlt hg hover⟩

namespace Turn

variable {n : Nat} {ts : List Token}

theorem pure (b : β) : Turn n (fun _ => Pure.pure b) ts :=
  .leaves b ts List.suffix_rfl fun _ => rfl

/-- The loop goes on here. -/
theorem again (g : β → β) (h : ts.length < n) :
    Turn n (fun again => again >>= fun b => Pure.pure (g b)) ts :=
  .goesOn g ts List.suffix_rfl h fun _ => rfl

theorem bind {p : Rule α} {f : α → Rule β → Rule β} (hp : LeavesSuffix p)
    (hf : ∀ a mid, p ts = .ok (a, mid) → Turn n (f a) mid) :
    Turn n (fun again => p >>= fun a => f a again) ts := by
  cases hts : p ts with
  | error r => exact .refuses r fun again => bind_of_error hts _
  | ok out =>
    obtain ⟨a, mid⟩ := out
    have hmid := hp _ _ _ hts
    have hround : ∀ again, (p >>= fun a => f a again) ts = f a again mid :=
      fun again => bind_of_ok hts _
    cases hf a mid hts with
    | refuses r h => exact .refuses r fun again => (hround again).trans (h again)
    | leaves b rest hrest h =>
      exact .leaves b rest (hrest.trans hmid) fun again => (hround again).trans (h again)
    | goesOn g rest hrest hlt h =>
      exact .goesOn g rest (hrest.trans hmid) hlt fun again => (hround again).trans (h again)

/-- After an item, which takes a token, the loop goes on. -/
theorem item_again {p : Rule α} (hp : Advances p) (g : α → β → β) (h : ts.length ≤ n) :
    Turn n (fun again => p >>= fun a => again >>= fun b => Pure.pure (g a b)) ts :=
  .bind hp.leaves fun a _ hmid => .again (g a) (Nat.lt_of_lt_of_le (hp _ _ _ hmid).2 h)

/-- So it does after a token at the head that a look has found. -/
theorem next_again {kind : Kind} (g : β → β) (hkind : ts[0]?.map Token.kind = some kind) :
    Turn ts.length (fun again => next >>= fun _ => again >>= fun b => Pure.pure (g b)) ts := by
  cases ts with
  | nil => cases hkind
  | cons t ts => exact .goesOn g ts (List.suffix_cons _ _) (Nat.lt_succ_self _) fun _ => rfl

end Turn

/-- A round of a list with commas. -/
def commaRound (item : Rule α) (again : Rule (List α)) : Rule (List α) := do
  let first ← item
  match ← accept .comma with
  | some _ => return first :: (← again)
  | none => return [first]

/-- A round of a block. -/
def lineRound (item : Rule α) (again : Rule (List α)) : Rule (List α) := do
  skipNewlines
  if ← blockEnd then return []
  else return (← item) :: (← again)

/-- A round of a chain of operators. -/
def operationRound {ω : Type} (op : Kind → Option ω) (operand : Rule α)
    (again : Rule (List (ω × α))) : Rule (List (ω × α)) := do
  match (← peekKind 0).bind op with
  | none => return []
  | some o => do
    let _ ← next
    return (o, ← operand) :: (← again)

/-- A round of passing tokens of some kinds. -/
def skipRound (kinds : List Kind) (again : Rule Unit) : Rule Unit := do
  match ← peekKind 0 with
  | none => return ()
  | some kind =>
    if kinds.contains kind then do
      let _ ← next
      again
    else return ()

theorem accept_eq_some {kind : Kind} {ts rest : List Token} {t : Token} :
    accept kind ts = .ok (some t, rest) ↔ ts = t :: rest ∧ t.kind = kind := by
  unfold accept
  constructor
  · intro h
    split at h
    · split at h
      · rename_i hkind
        cases h
        exact ⟨rfl, hkind⟩
      · cases h
    · cases h
  · rintro ⟨rfl, hkind⟩
    simp [hkind]

theorem commaSeparated_loops {item : Rule α} (h : LeavesSuffix item) :
    Loops (commaSeparated item) (commaRound item) := by
  refine ⟨commaSeparated_eq h, fun ts => .bind h fun first mid hfirst => ?_⟩
  refine .bind (accept_leaves _) fun comma rest hcomma => ?_
  cases comma with
  | none => exact .pure _
  | some t =>
    obtain ⟨rfl, -⟩ := accept_eq_some.1 hcomma
    exact .again _ (h _ _ _ hfirst).length_le

theorem lines_loops {item : Rule α} (h : Advances item) : Loops (lines item) (lineRound item) := by
  refine ⟨lines_eq h, fun ts => .bind (skip_leaves _) fun _ mid hmid => ?_⟩
  refine .bind blockEnd_leaves fun ended rest hrest => ?_
  cases ended with
  | true => exact .pure _
  | false =>
    have hle := (skip_leaves _ _ _ _ hmid).length_le
    exact .item_again h _ (Nat.le_trans (blockEnd_leaves _ _ _ hrest).length_le hle)

theorem operations_loops {ω : Type} {op : Kind → Option ω} {operand : Rule α}
    (h : Advances operand) : Loops (operations op operand) (operationRound op operand) := by
  refine ⟨operations_eq h, fun ts => .bind (peekKind_leaves 0) fun kind mid hmid => ?_⟩
  cases hmid
  cases (ts[0]?.map Token.kind).bind op with
  | none => exact .pure _
  | some o =>
    refine .bind next_leaves fun _ rest hrest => ?_
    exact .item_again h _ (next_leaves _ _ _ hrest).length_le

theorem map_id_apply (p : Rule α) (ts : List Token) : (id <$> p) ts = p ts := by
  refine (bind_apply p _ ts).trans ?_
  cases p ts with
  | error r => rfl
  | ok out => rfl

/-- Before a token that is passed the round goes on behind it, and otherwise it leaves the loop. -/
theorem skipRound_cons (kinds : List Kind) (again : Rule Unit) (t : Token) (ts : List Token) :
    skipRound kinds again (t :: ts) =
      if kinds.contains t.kind = true then again ts else .ok ((), t :: ts) := by
  change (if kinds.contains t.kind = true then next >>= fun _ => again else pure ()) (t :: ts) = _
  split
  · rfl
  · rfl

theorem skip_loops (kinds : List Kind) : Loops (skip kinds) (skipRound kinds) := by
  refine ⟨funext fun ts => ?_, fun ts => ?_⟩
  · cases ts with
    | nil => rfl
    | cons t ts =>
      rw [skipRound_cons, skip, List.dropWhile_cons]
      split
      · rfl
      · rfl
  · cases ts with
    | nil => exact .leaves () [] List.suffix_rfl fun _ => rfl
    | cons t ts =>
      by_cases hkind : kinds.contains t.kind = true
      · refine .goesOn id ts (List.suffix_cons _ _) (Nat.lt_succ_self _) fun again => ?_
        rw [skipRound_cons, if_pos hkind, map_id_apply]
      · refine .leaves () (t :: ts) List.suffix_rfl fun again => ?_
        rw [skipRound_cons, if_neg hkind]

theorem Guarded.repeat_alike {f : Rule α → Rule α} (hf : Guarded f) {bottom : Rule α}
    (hbottom : LeavesSuffix bottom) (n : Nat) : Alike n (Nat.repeat f n bottom) (fix f) := by
  induction n with
  | zero => exact ⟨hbottom, fix_leaves hf.leaves, fun _ h => absurd h (Nat.not_lt_zero _)⟩
  | succ n ih =>
    rw [fix_eq hf]
    exact hf _ _ _ ih

/-- How a rule that uses itself as `f` says comes to its answer for the tokens `ts`. -/
structure Descends (f : Rule α → Rule α) (p : Rule α) (ts : List Token) : Prop where
  unfolds : p = f p
  /-- The answer hangs on what the rule says before fewer tokens, and on nothing else. -/
  shorter : ∀ q, LeavesSuffix q → (∀ us : List Token, us.length < ts.length → q us = p us) →
    f q ts = p ts
  /-- Rounds enough for the tokens give the answer, whatever rule stands in the innermost. -/
  settled : ∀ n bottom, LeavesSuffix bottom → ts.length < n → Nat.repeat f n bottom ts = p ts

theorem Guarded.descends {f : Rule α → Rule α} (hf : Guarded f) (ts : List Token) :
    Descends f (fix f) ts where
  unfolds := fix_eq hf
  shorter q hq h := by
    rw [fix_eq hf]
    exact (hf _ _ _ ⟨hq, fix_leaves hf.leaves, h⟩).agree ts (Nat.lt_succ_self _)
  settled n bottom hbottom hn := (hf.repeat_alike hbottom n).agree ts hn

/-- The complaint of a rule whose rounds are used up. -/
def spent : Complaint := .expected "token"

theorem unroll_zero (f : Rule α → Rule α) (ts : List Token) :
    unroll f 0 ts = .error ⟨spent, ts⟩ := rfl

/-- The rule never complains that rounds are used up. -/
def Unspent (p : Rule α) : Prop := ∀ ts r, p ts = .error r → r.complaint ≠ spent

namespace Unspent

theorem of_ok {p : Rule α} (h : ∀ ts, ∃ out, p ts = .ok out) : Unspent p := by
  intro ts r hr
  obtain ⟨out, hout⟩ := h ts
  rw [hout] at hr
  cases hr

theorem pure (a : α) : Unspent (pure a : Rule α) := of_ok fun _ => ⟨_, rfl⟩

theorem peekKind (i : Nat) : Unspent (peekKind i) := of_ok fun _ => ⟨_, rfl⟩

theorem startsWith (first second : Kind) : Unspent (startsWith first second) :=
  of_ok fun _ => ⟨_, rfl⟩

theorem next : Unspent next := of_ok fun _ => ⟨_, rfl⟩

theorem skip (kinds : List Kind) : Unspent (skip kinds) := of_ok fun _ => ⟨_, rfl⟩

theorem atEnd : Unspent atEnd := of_ok fun _ => ⟨_, rfl⟩

theorem accept (kind : Kind) : Unspent (accept kind) := by
  refine of_ok fun ts => ?_
  unfold Rule.accept
  split
  · split <;> exact ⟨_, rfl⟩
  · exact ⟨_, rfl⟩

theorem blockEnd : Unspent blockEnd := by
  refine of_ok fun ts => ?_
  unfold Rule.blockEnd
  split
  · exact ⟨_, rfl⟩
  · split <;> exact ⟨_, rfl⟩

theorem refuse {what : String} (h : what ≠ "token") : Unspent (refuse what : Rule α) := by
  intro ts r hr
  cases hr
  exact fun heq => h (Complaint.expected.inj heq)

theorem expect (kind : Kind) {what : String} (h : what ≠ "token") :
    Unspent (expect kind what) := by
  intro ts r hr
  unfold Rule.expect at hr
  split at hr
  · split at hr
    · cases hr
    · exact refuse h (α := Token) _ _ hr
  · exact refuse h (α := Token) _ _ hr

theorem bind {p : Rule α} {f : α → Rule β} (hp : Unspent p) (hf : ∀ a, Unspent (f a)) :
    Unspent (p >>= f) := by
  intro ts r hr
  rw [bind_apply] at hr
  cases hts : p ts with
  | error r' =>
    rw [hts] at hr
    cases hr
    exact hp ts _ hts
  | ok out =>
    rw [hts] at hr
    exact hf out.1 out.2 r hr

theorem map {p : Rule α} (hp : Unspent p) (g : α → β) :
    Unspent (p >>= fun a => Pure.pure (g a)) := hp.bind fun _ => pure _

theorem word {what : String} (h : what ≠ "token") : Unspent (word what) := (expect .word h).map _

theorem lineEnd : Unspent lineEnd := by
  intro ts r hr
  unfold Rule.lineEnd at hr
  split at hr
  · cases hr
  · split at hr
    · exact skip _ _ _ hr
    · cases hr
    · exact refuse (α := Unit) (by decide) _ _ hr

/-- Rounds that do not complain of it themselves are never used up: those that the tokens allow
settle the answer, so another refusal may stand in the innermost. -/
theorem of_rounds {f : Rule α → Rule α} {P : Rule α → Prop} (hf : Guarded f)
    (hend : P (Rule.refuse "end")) (hround : ∀ p, P p → P (f p))
    (h : ∀ p, P p → Unspent p → Unspent (f p)) : Unspent (Rule.fix f) := by
  have hrounds : ∀ n, P (Nat.repeat f n (Rule.refuse "end")) ∧
      Unspent (Nat.repeat f n (Rule.refuse "end")) := by
    intro n
    induction n with
    | zero => exact ⟨hend, refuse (by decide)⟩
    | succ n ih => exact ⟨hround _ ih.1, h _ ih.1 ih.2⟩
  intro ts r hr
  refine (hrounds (ts.length + 1)).2 ts r ?_
  rw [← hr]
  exact (hf.descends ts).settled _ _ (refuse_leaves _) (Nat.lt_succ_self _)

theorem fix {f : Rule α → Rule α} (hf : Guarded f)
    (h : ∀ p, LeavesSuffix p → Unspent p → Unspent (f p)) : Unspent (fix f) :=
  of_rounds hf (refuse_leaves _) hf.leaves h

theorem commaSeparated {item : Rule α} (hleaves : LeavesSuffix item) (h : Unspent item) :
    Unspent (commaSeparated item) := by
  refine fix (commaSeparated_guarded hleaves) fun again _ hagain => h.bind fun first => ?_
  refine (accept _).bind fun comma => ?_
  cases comma with
  | none => exact pure _
  | some t => exact hagain.map _

theorem lines {item : Rule α} (hadvances : Advances item) (h : Unspent item) :
    Unspent (lines item) := by
  refine fix (lines_guarded hadvances) fun again _ hagain => (skip _).bind fun _ => ?_
  refine blockEnd.bind fun ended => ?_
  cases ended with
  | true => exact pure _
  | false => exact h.bind fun first => hagain.map _

theorem operations {ω : Type} {op : Kind → Option ω} {operand : Rule α}
    (hadvances : Advances operand) (h : Unspent operand) : Unspent (operations op operand) := by
  refine fix (operations_guarded hadvances) fun again _ hagain => ?_
  refine (peekKind 0).bind fun kind => ?_
  cases kind.bind op with
  | none => exact pure _
  | some o => exact next.bind fun _ => h.bind fun first => hagain.map _

theorem chain {ω : Type} {op : Kind → Option ω} {join : ω → α → α → α} {operand : Rule α}
    (hadvances : Advances operand) (h : Unspent operand) : Unspent (chain op join operand) :=
  h.bind fun _ => (operations hadvances h).map _

end Unspent

end Offside.Rule
