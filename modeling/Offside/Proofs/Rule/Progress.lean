import Offside.Program.Grammar.Recursion

/-!
Progress of single rules and of their combinations. Every rule leaves an end of the tokens it was
given. A combination takes a token if one of its parts does, and two combinations of one form are
alike as far as their parts are, one token further behind a part that takes one. From this the
recursive combinations are shown to be guarded, so that each is what its equation says.
-/
namespace Offside.Rule

variable {α β : Type}

theorem bind_eq_ok {p : Rule α} {f : α → Rule β} {ts rest : List Token} {b : β} :
    (p >>= f) ts = .ok (b, rest) ↔
      ∃ a mid, p ts = .ok (a, mid) ∧ f a mid = .ok (b, rest) := by
  rw [bind_apply]
  cases h : p ts with
  | error r => simp
  | ok out =>
    obtain ⟨a, mid⟩ := out
    constructor
    · intro hb
      exact ⟨a, mid, rfl, hb⟩
    · rintro ⟨a', mid', heq, hb⟩
      cases heq
      exact hb

/-- A rule that takes at least one token. -/
def Advances (p : Rule α) : Prop :=
  ∀ ts rest a, p ts = .ok (a, rest) → rest <:+ ts ∧ rest.length < ts.length

theorem Advances.leaves {p : Rule α} (h : Advances p) : LeavesSuffix p :=
  fun ts rest a hp => (h ts rest a hp).1

theorem LeavesSuffix.bind {p : Rule α} {f : α → Rule β} (hp : LeavesSuffix p)
    (hf : ∀ a, LeavesSuffix (f a)) : LeavesSuffix (p >>= f) := by
  intro ts rest b h
  obtain ⟨a, mid, ha, hb⟩ := bind_eq_ok.1 h
  exact (hf a _ _ _ hb).trans (hp _ _ _ ha)

theorem Advances.bind {p : Rule α} {f : α → Rule β} (hp : Advances p)
    (hf : ∀ a, LeavesSuffix (f a)) : Advances (p >>= f) := by
  intro ts rest b h
  obtain ⟨a, mid, ha, hb⟩ := bind_eq_ok.1 h
  obtain ⟨hsuffix, hlt⟩ := hp _ _ _ ha
  have hrest := hf a _ _ _ hb
  exact ⟨hrest.trans hsuffix, Nat.lt_of_le_of_lt hrest.length_le hlt⟩

theorem LeavesSuffix.bind_advances {p : Rule α} {f : α → Rule β} (hp : LeavesSuffix p)
    (hf : ∀ a, Advances (f a)) : Advances (p >>= f) := by
  intro ts rest b h
  obtain ⟨a, mid, ha, hb⟩ := bind_eq_ok.1 h
  obtain ⟨hsuffix, hlt⟩ := hf a _ _ _ hb
  have hmid := hp _ _ _ ha
  exact ⟨hsuffix.trans hmid, Nat.lt_of_lt_of_le hlt hmid.length_le⟩

theorem Alike.bind {n : Nat} {p q : Rule α} {f g : α → Rule β} (hp : Alike n p q)
    (hf : ∀ a, Alike n (f a) (g a)) : Alike n (p >>= f) (q >>= g) := by
  refine ⟨hp.left.bind fun a => (hf a).left, hp.right.bind fun a => (hf a).right, ?_⟩
  intro ts hts
  rw [bind_apply, bind_apply, ← hp.agree ts hts]
  cases h : p ts with
  | error r => rfl
  | ok out =>
    obtain ⟨a, mid⟩ := out
    exact (hf a).agree mid (Nat.lt_of_le_of_lt (hp.left _ _ _ h).length_le hts)

/-- After a token has been taken, the rules that follow need to agree on shorter lists only. -/
theorem Advances.bind_alike {n : Nat} {p : Rule α} {f g : α → Rule β} (hp : Advances p)
    (hf : ∀ a, Alike n (f a) (g a)) : Alike (n + 1) (p >>= f) (p >>= g) := by
  refine ⟨hp.leaves.bind fun a => (hf a).left, hp.leaves.bind fun a => (hf a).right, ?_⟩
  intro ts hts
  rw [bind_apply, bind_apply]
  cases h : p ts with
  | error r => rfl
  | ok out =>
    obtain ⟨a, mid⟩ := out
    have hlt := (hp _ _ _ h).2
    exact (hf a).agree mid (by omega)

theorem pure_leaves (a : α) : LeavesSuffix (pure a : Rule α) := by
  intro ts rest b h
  cases h
  exact List.suffix_rfl

theorem refuse_advances (what : String) : Advances (refuse what : Rule α) := by
  intro ts rest a h
  cases h

theorem peekKind_leaves (i : Nat) : LeavesSuffix (peekKind i) := by
  intro ts rest a h
  cases h
  exact List.suffix_rfl

theorem startsWith_leaves (first second : Kind) : LeavesSuffix (startsWith first second) := by
  intro ts rest a h
  cases h
  exact List.suffix_rfl

theorem next_leaves : LeavesSuffix next := by
  intro ts rest a h
  cases h
  exact List.tail_suffix ts

theorem accept_leaves (kind : Kind) : LeavesSuffix (accept kind) := by
  intro ts rest a h
  unfold accept at h
  split at h
  · split at h
    · cases h
      exact List.suffix_cons _ _
    · cases h
      exact List.suffix_rfl
  · cases h
    exact List.suffix_rfl

theorem expect_eq_ok {kind : Kind} {what : String} {ts rest : List Token} {t : Token} :
    expect kind what ts = .ok (t, rest) ↔ ts = t :: rest ∧ t.kind = kind := by
  unfold expect
  constructor
  · intro h
    split at h
    · split at h
      · rename_i hk
        cases h
        exact ⟨rfl, hk⟩
      · cases h
    · cases h
  · rintro ⟨rfl, hk⟩
    simp [hk]

theorem expect_advances (kind : Kind) (what : String) : Advances (expect kind what) := by
  intro ts rest t h
  obtain ⟨rfl, -⟩ := expect_eq_ok.1 h
  exact ⟨List.suffix_cons _ _, Nat.lt_succ_self _⟩

theorem word_eq (what : String) :
    word what = expect .word what >>= fun t => pure t.content := by
  rfl

theorem word_eq_ok {what : String} {ts rest : List Token} {name : String} :
    word what ts = .ok (name, rest) ↔
      ∃ t, ts = t :: rest ∧ t.kind = .word ∧ name = t.content := by
  rw [word_eq, bind_eq_ok]
  constructor
  · rintro ⟨t, mid, ht, hpure⟩
    cases hpure
    obtain ⟨rfl, hkind⟩ := expect_eq_ok.1 ht
    exact ⟨t, rfl, hkind, rfl⟩
  · rintro ⟨t, rfl, hkind, rfl⟩
    exact ⟨t, rest, expect_eq_ok.2 ⟨rfl, hkind⟩, rfl⟩

theorem word_advances (what : String) : Advances (word what) := by
  rw [word_eq]
  exact (expect_advances _ _).bind fun t => pure_leaves _

theorem skip_leaves (kinds : List Kind) : LeavesSuffix (skip kinds) := by
  intro ts rest a h
  cases h
  exact List.dropWhile_suffix _

theorem lineEnd_leaves : LeavesSuffix lineEnd := by
  intro ts rest a h
  unfold lineEnd at h
  split at h
  · cases h
    exact List.suffix_rfl
  · split at h
    · exact skip_leaves _ _ _ _ h
    · cases h
      exact List.suffix_rfl
    · cases h

theorem blockEnd_leaves : LeavesSuffix blockEnd := by
  intro ts rest a h
  unfold blockEnd at h
  split at h
  · cases h
    exact List.suffix_rfl
  · split at h
    · cases h
      exact List.suffix_cons _ _
    · cases h
      exact List.suffix_rfl

theorem refuse_leaves (what : String) : LeavesSuffix (refuse what : Rule α) :=
  (refuse_advances what).leaves

/-- A token that was accepted has been taken. -/
theorem accept_bind_alike {n : Nat} {kind : Kind} {f g : Option Token → Rule β}
    (hsome : ∀ t, Alike n (f (some t)) (g (some t))) (hnone : Alike (n + 1) (f none) (g none)) :
    Alike (n + 1) (accept kind >>= f) (accept kind >>= g) := by
  refine ⟨(accept_leaves kind).bind fun a => ?_, (accept_leaves kind).bind fun a => ?_, ?_⟩
  · cases a with
    | none => exact hnone.left
    | some t => exact (hsome t).left
  · cases a with
    | none => exact hnone.right
    | some t => exact (hsome t).right
  · intro ts hts
    rw [bind_apply, bind_apply]
    cases ts with
    | nil => exact hnone.agree [] hts
    | cons t rest =>
      by_cases hk : t.kind = kind
      · simp only [accept, if_pos hk]
        exact (hsome t).agree rest (by simpa using hts)
      · simp only [accept, if_neg hk]
        exact hnone.agree (t :: rest) hts

theorem peekKind_bind (i : Nat) (f : Option Kind → Rule β) (ts : List Token) :
    (peekKind i >>= f) ts = f (ts[i]?.map Token.kind) ts := rfl

theorem startsWith_bind (first second : Kind) (f : Bool → Rule β) (ts : List Token) :
    (startsWith first second >>= f) ts =
      f (decide (ts[0]?.map Token.kind = some first ∧ ts[1]?.map Token.kind = some second)) ts :=
  rfl

theorem next_bind_of_head {f : Option Token → Rule β} {ts rest : List Token} {b : β} {kind : Kind}
    (hf : ∀ t, LeavesSuffix (f t)) (hts : ts[0]?.map Token.kind = some kind)
    (h : (next >>= f) ts = .ok (b, rest)) : rest <:+ ts ∧ rest.length < ts.length := by
  cases ts with
  | nil => cases hts
  | cons t ts =>
    have hrest : rest <:+ ts := hf (some t) ts rest b h
    exact ⟨hrest.trans (List.suffix_cons _ _), Nat.lt_succ_of_le hrest.length_le⟩

/-- Rules that are alike wherever there is a token left. -/
structure AlikeBeforeToken (n : Nat) (p q : Rule α) : Prop where
  left : LeavesSuffix p
  right : LeavesSuffix q
  agree : ∀ t ts, List.length (t :: ts) < n → p (t :: ts) = q (t :: ts)

theorem Alike.beforeToken {n : Nat} {p q : Rule α} (h : Alike n p q) : AlikeBeforeToken n p q :=
  ⟨h.left, h.right, fun t ts hts => h.agree (t :: ts) hts⟩

theorem next_bind_alike {n : Nat} {f g : Option Token → Rule β}
    (h : ∀ t, Alike n (f t) (g t)) : AlikeBeforeToken (n + 1) (next >>= f) (next >>= g) := by
  refine ⟨next_leaves.bind fun t => (h t).left, next_leaves.bind fun t => (h t).right, ?_⟩
  intro t ts hts
  exact (h (some t)).agree ts (by simpa using hts)

/-- Where a rule has seen the kind of the next token, there is one. -/
theorem peekKind_bind_alike {n : Nat} {f g : Option Kind → Rule β}
    (hnone : Alike n (f none) (g none))
    (hsome : ∀ k, AlikeBeforeToken n (f (some k)) (g (some k))) :
    Alike n (peekKind 0 >>= f) (peekKind 0 >>= g) := by
  refine ⟨(peekKind_leaves 0).bind fun k => ?_, (peekKind_leaves 0).bind fun k => ?_, ?_⟩
  · cases k with
    | none => exact hnone.left
    | some k => exact (hsome k).left
  · cases k with
    | none => exact hnone.right
    | some k => exact (hsome k).right
  · intro ts hts
    cases ts with
    | nil => exact hnone.agree [] hts
    | cons t ts => exact (hsome t.kind).agree t ts hts

/-- Rules that follow two equations of one form agree as far as the equations do. -/
theorem fix_alike {n : Nat} {f g : Rule α → Rule α}
    (h : ∀ p q, Alike n p q → Alike n (f p) (g q)) : Alike n (fix f) (fix g) := by
  have hrounds : ∀ k, Alike n (unroll f k) (unroll g k) := by
    intro k
    induction k with
    | zero => exact Alike.refl (refuse_leaves _) n
    | succ k ih => exact h _ _ ih
  exact ⟨fun ts => (hrounds (ts.length + 1)).left ts, fun ts => (hrounds (ts.length + 1)).right ts,
    fun ts hts => (hrounds (ts.length + 1)).agree ts hts⟩

theorem unroll_advances {f : Rule α → Rule α} (h : ∀ p, LeavesSuffix p → Advances (f p)) (n : Nat) :
    Advances (unroll f n) := by
  cases n with
  | zero => exact refuse_advances _
  | succ n => exact h _ (unroll_leaves (fun p hp => (h p hp).leaves) n)

/-- A recursive rule takes a token if its equation does. -/
theorem fix_advances {f : Rule α → Rule α} (h : ∀ p, LeavesSuffix p → Advances (f p)) :
    Advances (fix f) := fun ts => unroll_advances h (ts.length + 1) ts

theorem commaSeparated_alike {n : Nat} {p q : Rule α} (h : Alike n p q) :
    Alike n (commaSeparated p) (commaSeparated q) := by
  refine fix_alike fun a b hab => h.bind fun first => ?_
  refine (Alike.refl (accept_leaves _) n).bind fun comma => ?_
  cases comma with
  | none => exact Alike.refl (pure_leaves _) n
  | some _ => exact hab.bind fun more => Alike.refl (pure_leaves _) n

theorem commaSeparated_guarded {item : Rule α} (h : LeavesSuffix item) :
    Guarded fun again : Rule (List α) => do
      let first ← item
      match ← accept .comma with
      | some _ => return first :: (← again)
      | none => return [first] := by
  refine fun n p q hpq => (Alike.refl h _).bind fun first => ?_
  refine accept_bind_alike (fun t => ?_) (Alike.refl (pure_leaves _) _)
  exact hpq.bind fun more => Alike.refl (pure_leaves _) n

theorem commaSeparated_eq {item : Rule α} (h : LeavesSuffix item) :
    commaSeparated item = (do
      let first ← item
      match ← accept .comma with
      | some _ => return first :: (← commaSeparated item)
      | none => return [first]) := fix_eq (commaSeparated_guarded h)

theorem commaSeparated_leaves {item : Rule α} (h : LeavesSuffix item) :
    LeavesSuffix (commaSeparated item) := (commaSeparated_alike (Alike.refl h 0)).left

theorem lines_alike {n : Nat} {p q : Rule α} (h : Alike n p q) : Alike n (lines p) (lines q) := by
  refine fix_alike fun a b hab => ?_
  refine (Alike.refl (skip_leaves _) n).bind fun _ => ?_
  refine (Alike.refl blockEnd_leaves n).bind fun ended => ?_
  cases ended with
  | true => exact Alike.refl (pure_leaves _) n
  | false => exact h.bind fun first => hab.bind fun more => Alike.refl (pure_leaves _) n

theorem lines_guarded {item : Rule α} (h : Advances item) :
    Guarded fun again : Rule (List α) => do
      skipNewlines
      if ← blockEnd then return []
      else return (← item) :: (← again) := by
  refine fun n p q hpq => (Alike.refl (skip_leaves _) _).bind fun _ => ?_
  refine (Alike.refl blockEnd_leaves _).bind fun ended => ?_
  cases ended with
  | true => exact Alike.refl (pure_leaves _) _
  | false =>
    refine h.bind_alike fun first => ?_
    exact hpq.bind fun more => Alike.refl (pure_leaves _) n

theorem lines_eq {item : Rule α} (h : Advances item) :
    lines item = (do
      skipNewlines
      if ← blockEnd then return []
      else return (← item) :: (← lines item)) := fix_eq (lines_guarded h)

theorem lines_leaves {item : Rule α} (h : LeavesSuffix item) : LeavesSuffix (lines item) :=
  (lines_alike (Alike.refl h 0)).left

theorem operations_alike {ω : Type} {n : Nat} {op : Kind → Option ω} {p q : Rule α}
    (h : Alike n p q) : Alike n (operations op p) (operations op q) := by
  refine fix_alike fun a b hab => (Alike.refl (peekKind_leaves 0) n).bind fun kind => ?_
  cases kind.bind op with
  | none => exact Alike.refl (pure_leaves _) n
  | some o =>
    refine (Alike.refl next_leaves n).bind fun _ => h.bind fun operand => ?_
    exact hab.bind fun more => Alike.refl (pure_leaves _) n

theorem operations_guarded {ω : Type} {op : Kind → Option ω} {operand : Rule α}
    (h : Advances operand) :
    Guarded fun again : Rule (List (ω × α)) => do
      match (← peekKind 0).bind op with
      | none => return []
      | some o => do
        let _ ← next
        return (o, ← operand) :: (← again) := by
  refine fun n p q hpq => (Alike.refl (peekKind_leaves 0) _).bind fun kind => ?_
  cases kind.bind op with
  | none => exact Alike.refl (pure_leaves _) _
  | some o =>
    refine (Alike.refl next_leaves _).bind fun _ => h.bind_alike fun first => ?_
    exact hpq.bind fun more => Alike.refl (pure_leaves _) n

theorem operations_eq {ω : Type} {op : Kind → Option ω} {operand : Rule α}
    (h : Advances operand) :
    operations op operand = (do
      match (← peekKind 0).bind op with
      | none => return []
      | some o => do
        let _ ← next
        return (o, ← operand) :: (← operations op operand)) := fix_eq (operations_guarded h)

theorem chain_alike {ω : Type} {n : Nat} {op : Kind → Option ω} {join : ω → α → α → α}
    {p q : Rule α} (h : Alike n p q) : Alike n (chain op join p) (chain op join q) :=
  h.bind fun _ => (operations_alike h).bind fun _ => Alike.refl (pure_leaves _) n

theorem chain_advances {ω : Type} {op : Kind → Option ω} {join : ω → α → α → α} {p : Rule α}
    (h : Advances p) : Advances (chain op join p) :=
  h.bind fun _ => (operations_alike (Alike.refl h.leaves 0)).left.bind fun _ => pure_leaves _

end Offside.Rule
