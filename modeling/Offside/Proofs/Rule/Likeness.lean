import Offside.Proofs.Program.Rendering
import Offside.Proofs.Rule.Progress

/-!
Token lists that rules read alike. A likeness relates two lists at a place, which is a depth of open
blocks and the start or the inside of a line. It has the same tokens at the heads of both lists as
long as they may be taken, and is otherwise free where no rule looks. A rule carries a likeness from
place to place if it reads the same from both lists and leaves lists that are alike again. Carrying
composes along the rules, so each rule is followed once for every likeness.
-/
namespace Offside

theorem Token.kind_eq_of_face {t t' : Token} (h : t'.face = t.face) : t'.kind = t.kind :=
  congrArg Prod.fst h

theorem Token.content_eq_of_face {t t' : Token} (h : t'.face = t.face) :
    t'.content = t.content := by
  have htext : t'.text = t.text := congrArg Prod.snd h
  simp [Token.content, htext]

namespace Rule

variable {α β : Type}

/-- The kind of the first token. -/
def headKind (ts : List Token) : Option Kind := ts[0]?.map Token.kind

@[simp] theorem headKind_nil : headKind [] = none := rfl

@[simp] theorem headKind_cons (t : Token) (ts : List Token) :
    headKind (t :: ts) = some t.kind := rfl

theorem peekKind_head_bind (f : Option Kind → Rule β) (ts : List Token) :
    (peekKind 0 >>= f) ts = f (headKind ts) ts := rfl

/-- The kinds of tokens that lines and blocks are made with. -/
def layoutKinds : List Kind := [.newline, .indent, .dedent]

/-- What may follow a part of a program. No rule goes on because of such a token. -/
def closingKinds : List (Option Kind) :=
  [none, some .newline, some .rparen, some .dedent, some .keyClass, some .keyInterface]

/-- Operators stand inside lines and close nothing. -/
structure Operators {ω : Type} (op : Kind → Option ω) : Prop where
  closing : ∀ k ∈ closingKinds, k.bind op = none
  layout : ∀ k ∈ layoutKinds, op k = none

/-- Lists that are alike at places: inside a line or not, below a number of open blocks. Tokens are
taken from lists only as far as what is left is spared. -/
structure Likeness where
  like : Bool × Nat → List Token → List Token → Prop
  spared : List Token → Prop
  spared_of_suffix {rest ts : List Token} : rest <:+ ts → spared rest → spared ts
  head {s : Bool × Nat} {ts us : List Token} :
    like s ts us → headKind us = headKind ts ∨ headKind us ∈ closingKinds
  same {s : Bool × Nat} {t : Token} {ts us : List Token} : like s (t :: ts) us → spared ts →
    ∃ t' us', us = t' :: us' ∧ t'.face = t.face
  word {inside : Bool} {depth : Nat} {t t' : Token} {ts us : List Token} :
    like (inside, depth) (t :: ts) (t' :: us) → spared ts → t.kind ∉ layoutKinds →
    like (true, depth) ts us

/-- From lists that are alike at the one place, a token of the kind leads to the other place. -/
def Likeness.Passes (L : Likeness) (s : Bool × Nat) (kind : Kind) (s' : Bool × Nat) : Prop :=
  ∀ (t t' : Token) (ts us : List Token), L.like s (t :: ts) (t' :: us) → L.spared ts →
    t.kind = kind → L.like s' ts us

/-- The rule reads the same from lists that are alike at the one place, and leaves lists that are
alike at the other. -/
structure Carries (L : Likeness) (s : Bool × Nat) (p : Rule α) (s' : Bool × Nat) : Prop where
  leaves : LeavesSuffix p
  carry : ∀ ts us a rest, L.like s ts us → p ts = .ok (a, rest) → L.spared rest →
    ∃ rest', p us = .ok (a, rest') ∧ L.like s' rest rest'

/-- The rule reads a part of a line, from its start on or further inside. -/
def Enters (L : Likeness) (p : Rule α) : Prop :=
  ∀ inside depth, Carries L (inside, depth) p (true, depth)

/-- The rule carries lists that start with a token that stands in a line. -/
def CarriesWord (L : Likeness) (depth : Nat) (p : Rule α) (s' : Bool × Nat) : Prop :=
  ∀ (inside : Bool) (t t' : Token) (ts us : List Token) (a : α) (rest : List Token),
    t.kind ∉ layoutKinds → L.like (inside, depth) (t :: ts) (t' :: us) →
    p (t :: ts) = .ok (a, rest) → L.spared rest →
    ∃ rest', p (t' :: us) = .ok (a, rest') ∧ L.like s' rest rest'

/-- A rule that takes at least two tokens. -/
def TakesTwo (p : Rule α) : Prop :=
  ∀ ts rest a, p ts = .ok (a, rest) → ∃ t t' mid, ts = t :: t' :: mid ∧ rest <:+ mid

theorem Advances.exists_cons {p : Rule α} (hp : Advances p) {ts rest : List Token} {a : α}
    (h : p ts = .ok (a, rest)) : ∃ t mid, ts = t :: mid ∧ rest <:+ mid := by
  obtain ⟨hsuffix, hlt⟩ := hp ts rest a h
  cases ts with
  | nil => exact absurd hlt (Nat.not_lt_zero _)
  | cons t mid =>
    refine ⟨t, mid, rfl, ?_⟩
    rcases List.suffix_cons_iff.1 hsuffix with rfl | hmid
    · exact absurd hlt (Nat.lt_irrefl _)
    · exact hmid

theorem TakesTwo.advances {p : Rule α} (hp : TakesTwo p) : Advances p := by
  intro ts rest a h
  obtain ⟨t, t', mid, rfl, hrest⟩ := hp ts rest a h
  have hlength := hrest.length_le
  refine ⟨hrest.trans ((List.suffix_cons _ _).trans (List.suffix_cons _ _)), ?_⟩
  simp only [List.length_cons]
  omega

theorem Advances.bind_two {p : Rule α} {f : α → Rule β} (hp : Advances p)
    (hf : ∀ a, Advances (f a)) : TakesTwo (p >>= f) := by
  intro ts rest b h
  obtain ⟨a, mid, ha, hb⟩ := bind_eq_ok.1 h
  obtain ⟨t, more, rfl, hmid⟩ := hp.exists_cons ha
  obtain ⟨t', more', rfl, hrest⟩ := (hf a).exists_cons hb
  obtain ⟨before, hbefore⟩ := hmid
  cases before with
  | nil =>
    subst hbefore
    exact ⟨t, t', more', rfl, hrest⟩
  | cons u before =>
    subst hbefore
    exact ⟨t, u, _, rfl, hrest.trans ((List.suffix_cons _ _).trans (List.suffix_append _ _))⟩

theorem TakesTwo.bind {p : Rule α} {f : α → Rule β} (hp : TakesTwo p)
    (hf : ∀ a, LeavesSuffix (f a)) : TakesTwo (p >>= f) := by
  intro ts rest b h
  obtain ⟨a, mid, ha, hb⟩ := bind_eq_ok.1 h
  obtain ⟨t, t', more, rfl, hmid⟩ := hp _ _ _ ha
  exact ⟨t, t', more, rfl, (hf a _ _ _ hb).trans hmid⟩

theorem LeavesSuffix.bind_two {p : Rule α} {f : α → Rule β} (hp : LeavesSuffix p)
    (hf : ∀ a, TakesTwo (f a)) : TakesTwo (p >>= f) := by
  intro ts rest b h
  obtain ⟨a, mid, ha, hb⟩ := bind_eq_ok.1 h
  obtain ⟨t, t', more, rfl, hrest⟩ := hf a _ _ _ hb
  obtain ⟨before, rfl⟩ := hp _ _ _ ha
  cases before with
  | nil => exact ⟨t, t', more, rfl, hrest⟩
  | cons u before =>
    cases before with
    | nil => exact ⟨u, t, t' :: more, rfl, hrest.trans (List.suffix_cons _ _)⟩
    | cons v before =>
      refine ⟨u, v, before ++ t :: t' :: more, rfl, ?_⟩
      exact hrest.trans (((List.suffix_cons _ _).trans (List.suffix_cons _ _)).trans
        (List.suffix_append _ _))

/-- Behind its first token such a rule takes one more. -/
theorem TakesTwo.behind {p : Rule α} (hp : TakesTwo p) (t : Token) :
    Advances fun ts => p (t :: ts) := by
  intro ts rest a h
  obtain ⟨u, u', mid, hcons, hrest⟩ := hp _ _ _ h
  obtain ⟨-, rfl⟩ := List.cons.inj hcons
  exact ⟨hrest.trans (List.suffix_cons _ _), Nat.lt_succ_of_le hrest.length_le⟩

theorem Advances.behind {p : Rule α} (hp : Advances p) (t : Token) :
    LeavesSuffix fun ts => p (t :: ts) := by
  intro ts rest a h
  obtain ⟨u, mid, hcons, hrest⟩ := hp.exists_cons h
  obtain ⟨-, rfl⟩ := List.cons.inj hcons
  exact hrest

theorem bind_assoc {γ : Type} (p : Rule α) (f : α → Rule β) (g : β → Rule γ) :
    (p >>= f) >>= g = p >>= fun a => f a >>= g := by
  funext ts
  simp only [bind_apply]
  cases p ts with
  | error r => rfl
  | ok out => rfl

theorem exists_cons_of_headKind {ts : List Token} {k : Kind} (h : headKind ts = some k) :
    ∃ t mid, ts = t :: mid ∧ t.kind = k := by
  cases ts with
  | nil => cases h
  | cons t mid => exact ⟨t, mid, rfl, Option.some.inj h⟩

theorem accept_bind_of_eq {kind : Kind} {t : Token} (h : t.kind = kind)
    (f : Option Token → Rule β) (ts : List Token) :
    (accept kind >>= f) (t :: ts) = f (some t) ts := by
  rw [bind_apply]
  simp [accept, h]

theorem accept_bind_of_ne {kind : Kind} {ts : List Token} (h : headKind ts ≠ some kind)
    (f : Option Token → Rule β) : (accept kind >>= f) ts = f none ts := by
  cases ts with
  | nil => rfl
  | cons t ts =>
    have ht : t.kind ≠ kind := fun heq => h (congrArg some heq)
    rw [bind_apply]
    simp [accept, ht]

theorem word_bind_of_eq {what : String} {t : Token} (h : t.kind = .word) (f : String → Rule β)
    (ts : List Token) : (word what >>= f) (t :: ts) = f t.content ts :=
  bind_of_ok (word_eq_ok.2 ⟨t, rfl, h, rfl⟩) f

theorem skipNewlines_eq_ok {ts rest : List Token} :
    skipNewlines ts = .ok ((), rest) ↔ headKind rest ≠ some .newline ∧
      ∃ breaks : List Token, ts = breaks ++ rest ∧ ∀ t ∈ breaks, t.kind = .newline := by
  have hstep : ∀ (t : Token) (ts : List Token), skipNewlines (t :: ts) =
      if t.kind = .newline then skipNewlines ts else .ok ((), t :: ts) := by
    intro t ts
    by_cases ht : t.kind = .newline <;> simp [skipNewlines, skip, ht]
  induction ts with
  | nil =>
    constructor
    · intro h
      cases h
      exact ⟨by simp, [], rfl, by simp⟩
    · rintro ⟨-, breaks, heq, -⟩
      obtain ⟨-, rfl⟩ := List.nil_eq_append_iff.1 heq
      rfl
  | cons t ts ih =>
    rw [hstep]
    by_cases ht : t.kind = .newline
    · rw [if_pos ht]
      refine ih.trans (and_congr_right fun hhead => ⟨?_, ?_⟩)
      · rintro ⟨breaks, rfl, hbreaks⟩
        exact ⟨t :: breaks, rfl, List.forall_mem_cons.2 ⟨ht, hbreaks⟩⟩
      · rintro ⟨breaks, heq, hbreaks⟩
        cases breaks with
        | nil =>
          subst heq
          exact absurd (congrArg some ht) hhead
        | cons u breaks =>
          cases heq
          exact ⟨breaks, rfl, (List.forall_mem_cons.1 hbreaks).2⟩
    · rw [if_neg ht]
      constructor
      · intro h
        cases h
        exact ⟨fun hhead => ht (Option.some.inj hhead), [], rfl, by simp⟩
      · rintro ⟨-, breaks, heq, hbreaks⟩
        cases breaks with
        | nil =>
          subst heq
          rfl
        | cons u breaks =>
          cases heq
          exact absurd (hbreaks t List.mem_cons_self) ht

theorem lineEnd_eq_ok {ts rest : List Token} :
    lineEnd ts = .ok ((), rest) ↔
      headKind ts = some .newline ∧ skipNewlines ts = .ok ((), rest) ∨
      rest = ts ∧ (headKind ts = none ∨ headKind ts = some .dedent) := by
  cases ts with
  | nil => simp [lineEnd, eq_comm]
  | cons t ts =>
    unfold lineEnd
    simp only [headKind_cons]
    split
    · rename_i ht
      simp [ht]
    · rename_i ht
      simp [ht, eq_comm]
    · rename_i hnewline hdedent
      have hnewline : t.kind ≠ .newline := hnewline
      have hdedent : t.kind ≠ .dedent := hdedent
      simp [hnewline, hdedent, refuse]

theorem blockEnd_bind_of_eq {t : Token} (h : t.kind = .dedent) (f : Bool → Rule β)
    (ts : List Token) : (blockEnd >>= f) (t :: ts) = f true ts := by
  rw [bind_apply]
  simp [blockEnd, h]

theorem blockEnd_bind_of_ne {t : Token} (h : t.kind ≠ .dedent) (f : Bool → Rule β)
    (ts : List Token) : (blockEnd >>= f) (t :: ts) = f false (t :: ts) := by
  rw [bind_apply]
  simp [blockEnd, h]

namespace Likeness

variable {L : Likeness} {inside : Bool} {depth : Nat} {s : Bool × Nat} {ts us rest : List Token}

theorem passes {kind : Kind} (h : kind ∉ layoutKinds) :
    L.Passes (inside, depth) kind (true, depth) := by
  intro t t' ts us hlike hspared hkind
  exact L.word hlike hspared (hkind ▸ h)

/-- If more than what is left was there, both lists start with the same token. -/
theorem same_of_suffix {t : Token} (h : L.like s (t :: ts) us) (hrest : rest <:+ ts)
    (hspared : L.spared rest) : ∃ t' us', us = t' :: us' ∧ t'.face = t.face :=
  L.same h (L.spared_of_suffix hrest hspared)

theorem step {t : Token} (h : L.like (inside, depth) (t :: ts) us) (ht : t.kind ∉ layoutKinds)
    (hrest : rest <:+ ts) (hspared : L.spared rest) :
    ∃ t' us', us = t' :: us' ∧ t'.face = t.face ∧ L.like (true, depth) ts us' := by
  have hts := L.spared_of_suffix hrest hspared
  obtain ⟨t', us', rfl, hface⟩ := L.same h hts
  exact ⟨t', us', rfl, hface, L.word h hts ht⟩

theorem headKind_ne {k : Kind} (h : L.like s ts us)
    (hne : headKind ts ≠ some k) (hk : some k ∉ closingKinds) : headKind us ≠ some k := by
  intro hhead
  rcases L.head h with heq | hclosing
  · exact hne (heq ▸ hhead)
  · exact hk (hhead ▸ hclosing)

end Likeness

namespace Carries

variable {L : Likeness} {inside : Bool} {depth : Nat} {s s' s'' : Bool × Nat}

theorem pure (a : α) : Carries L s (pure a : Rule α) s := by
  refine ⟨pure_leaves a, ?_⟩
  intro ts us b rest h hok hspared
  cases hok
  exact ⟨us, rfl, h⟩

theorem refuse (what : String) : Carries L s (refuse what : Rule α) s' := by
  refine ⟨refuse_leaves what, ?_⟩
  intro ts us a rest h hok hspared
  cases hok

theorem bind {p : Rule α} {f : α → Rule β} (hp : Carries L s p s')
    (hf : ∀ a, Carries L s' (f a) s'') : Carries L s (p >>= f) s'' := by
  refine ⟨hp.leaves.bind fun a => (hf a).leaves, ?_⟩
  intro ts us b rest h hok hspared
  obtain ⟨a, mid, ha, hb⟩ := bind_eq_ok.1 hok
  have hmid : L.spared mid := L.spared_of_suffix ((hf a).leaves _ _ _ hb) hspared
  obtain ⟨mid', ha', h'⟩ := hp.carry ts us a mid h ha hmid
  obtain ⟨rest', hb', h''⟩ := (hf a).carry mid mid' b rest h' hb hspared
  exact ⟨rest', bind_eq_ok.2 ⟨a, mid', ha', hb'⟩, h''⟩

theorem map {p : Rule α} (hp : Carries L s p s') (f : α → β) :
    Carries L s (p >>= fun a => Pure.pure (f a)) s' := hp.bind fun a => .pure (f a)

/-- A rule that takes a token finds the same one at the head of both lists. -/
theorem of_head {p : Rule α} (hp : Advances p)
    (h : ∀ (t t' : Token) (ts us : List Token) (a : α) (rest : List Token), t'.face = t.face →
      L.spared ts → L.like s (t :: ts) (t' :: us) → p (t :: ts) = .ok (a, rest) →
      L.spared rest → ∃ rest', p (t' :: us) = .ok (a, rest') ∧ L.like s' rest rest') :
    Carries L s p s' := by
  refine ⟨hp.leaves, ?_⟩
  intro ts us a rest hlike hok hspared
  obtain ⟨t, mid, rfl, hrest⟩ := hp.exists_cons hok
  have hmid := L.spared_of_suffix hrest hspared
  obtain ⟨t', us', rfl, hface⟩ := L.same hlike hmid
  exact h t t' mid us' a rest hface hmid hlike hok hspared

/-- A rule that takes two tokens finds the same kinds of tokens in both lists. -/
theorem carry_two {p : Rule α} (hp : Carries L (inside, depth) p s') (htwo : TakesTwo p)
    {t t' : Token} {ts us rest : List Token} {a : α}
    (hlike : L.like (inside, depth) (t :: ts) (t' :: us)) (ht : t.kind ∉ layoutKinds)
    (hok : p (t :: ts) = .ok (a, rest)) (hspared : L.spared rest) :
    headKind us = headKind ts ∧ ∃ rest', p (t' :: us) = .ok (a, rest') ∧ L.like s' rest rest' := by
  obtain ⟨v, u, mid, heq, hrest⟩ := htwo _ _ _ hok
  cases heq
  obtain ⟨v', us', heq, -, hmid⟩ :=
    L.step hlike ht (hrest.trans (List.suffix_cons u mid)) hspared
  cases heq
  obtain ⟨u', us', rfl, hface⟩ := L.same_of_suffix hmid hrest hspared
  exact ⟨congrArg some (Token.kind_eq_of_face hface), hp.carry _ _ _ _ hlike hok hspared⟩

theorem next_bind {f : Option Token → Rule β} (hsame : ∀ o o', f o' = f o)
    (hf : ∀ o, Carries L (true, depth) (f o) s') : CarriesWord L depth (next >>= f) s' := by
  intro inside t t' ts us b rest ht hlike hok hspared
  have hb : f (some t) ts = .ok (b, rest) := hok
  have hts := L.spared_of_suffix ((hf _).leaves _ _ _ hb) hspared
  obtain ⟨rest', hb', h'⟩ := (hf _).carry _ _ _ _ (L.word hlike hts ht) hb hspared
  rw [← hsame (some t) (some t')] at hb'
  exact ⟨rest', hb', h'⟩

theorem map_word {p : Rule α} (hp : CarriesWord L depth p s')
    (f : α → β) : CarriesWord L depth (p >>= fun a => Pure.pure (f a)) s' := by
  intro inside t t' ts us b rest ht hlike hok hspared
  obtain ⟨a, mid, ha, hb⟩ := bind_eq_ok.1 hok
  cases hb
  obtain ⟨rest', ha', h'⟩ := hp inside t t' ts us a rest ht hlike ha hspared
  exact ⟨rest', bind_eq_ok.2 ⟨a, rest', ha', rfl⟩, h'⟩

theorem expect_bind {kind : Kind} {what : String} {f : Token → Rule β}
    (hpass : L.Passes s kind s') (hface : ∀ t t' : Token, t'.face = t.face → f t' = f t)
    (hf : ∀ t, Carries L s' (f t) s'') : Carries L s (expect kind what >>= f) s'' := by
  refine .of_head ((expect_advances _ _).bind fun t => (hf t).leaves) ?_
  intro t t' ts us b rest htt' hts hlike hok hspared
  obtain ⟨u, mid, hu, hb⟩ := bind_eq_ok.1 hok
  obtain ⟨heq, hkind⟩ := expect_eq_ok.1 hu
  cases heq
  have hkind' := (Token.kind_eq_of_face htt').trans hkind
  obtain ⟨rest', hb', h'⟩ := (hf t).carry _ _ _ _ (hpass t t' ts us hlike hts hkind) hb hspared
  rw [← hface t t' htt'] at hb'
  exact ⟨rest', bind_eq_ok.2 ⟨t', us, expect_eq_ok.2 ⟨rfl, hkind'⟩, hb'⟩, h'⟩

theorem literal {kind : Kind} {what : String} (hkind : kind ∉ layoutKinds) (f : String → α) :
    Enters L (expect kind what >>= fun t => Pure.pure (f t.content)) := by
  intro inside depth
  refine expect_bind (L.passes hkind) (fun t t' h => ?_) fun t => .pure (f t.content)
  rw [Token.content_eq_of_face h]

theorem word (what : String) : Enters L (word what) := literal (by decide) fun text => text

theorem accept_bind {kind : Kind} {f : Option Token → Rule β} (hpass : L.Passes s kind s')
    (hnext : some kind ∉ closingKinds ∨ Advances (f none))
    (hsame : ∀ t t', f (some t') = f (some t)) (hsome : ∀ t, Carries L s' (f (some t)) s'')
    (hnone : Carries L s (f none) s'') : Carries L s (accept kind >>= f) s'' := by
  refine ⟨(accept_leaves kind).bind fun o => ?_, ?_⟩
  · cases o with
    | none => exact hnone.leaves
    | some t => exact (hsome t).leaves
  · intro ts us b rest hlike hok hspared
    by_cases hhead : headKind ts = some kind
    · obtain ⟨t, ts, rfl, hkind⟩ := exists_cons_of_headKind hhead
      rw [accept_bind_of_eq hkind] at hok
      have hts := L.spared_of_suffix ((hsome t).leaves _ _ _ hok) hspared
      obtain ⟨t', us, rfl, hface⟩ := L.same hlike hts
      obtain ⟨rest', hb', h'⟩ :=
        (hsome t).carry _ _ _ _ (hpass t t' ts us hlike hts hkind) hok hspared
      refine ⟨rest', ?_, h'⟩
      rw [accept_bind_of_eq ((Token.kind_eq_of_face hface).trans hkind), hsame t t', hb']
    · rw [accept_bind_of_ne hhead] at hok
      have hhead' : headKind us ≠ some kind := by
        rcases hnext with hclosing | hadvances
        · exact L.headKind_ne hlike hhead hclosing
        · obtain ⟨t, mid, rfl, hrest⟩ := hadvances.exists_cons hok
          obtain ⟨t', us', rfl, hface⟩ := L.same_of_suffix hlike hrest hspared
          rw [headKind_cons, Token.kind_eq_of_face hface]
          exact hhead
      rw [accept_bind_of_ne hhead']
      exact hnone.carry ts us b rest hlike hok hspared

/-- A rule that goes on in one of two ways, as the next token says. -/
theorem choice {kind : Kind} {p q : Rule α} (hkind : some kind ∉ closingKinds)
    (hadvances : Advances p) (hp : Carries L s p s') (hq : Carries L s q s') :
    Carries L s (do if (← peekKind 0) = some kind then p else q) s' := by
  refine ⟨(peekKind_leaves 0).bind fun k => ?_, ?_⟩
  · split
    · exact hp.leaves
    · exact hq.leaves
  · intro ts us a rest hlike hok hspared
    rw [peekKind_bind] at hok
    split at hok
    · rename_i hhead
      obtain ⟨t, mid, rfl, hrest⟩ := hadvances.exists_cons hok
      obtain ⟨t', us', rfl, hface⟩ := L.same_of_suffix hlike hrest hspared
      obtain ⟨rest', ha', h'⟩ := hp.carry _ _ _ _ hlike hok hspared
      refine ⟨rest', ?_, h'⟩
      have hhead' : (t' :: us')[0]?.map Token.kind = some kind := by
        rw [← hhead]
        exact congrArg some (Token.kind_eq_of_face hface)
      rw [peekKind_bind, if_pos hhead', ha']
    · rename_i hhead
      obtain ⟨rest', ha', h'⟩ := hq.carry _ _ _ _ hlike hok hspared
      refine ⟨rest', ?_, h'⟩
      have hhead' : us[0]?.map Token.kind ≠ some kind := L.headKind_ne hlike hhead hkind
      rw [peekKind_bind, if_neg hhead', ha']

/-- A rule that asks for the kinds of two tokens, and takes both if they are as asked. -/
theorem startsWith_bind {first second : Kind} {f : Bool → Rule α} (hfirst : first ∉ layoutKinds)
    (hsecond : some second ∉ closingKinds) (htwo : TakesTwo (f true)) (hone : Advances (f false))
    (htrue : ∀ (t u : Token) (ts us : List Token) (a : α) (rest : List Token), t.kind = first →
      u.kind = second → L.like (inside, depth) (t :: u :: ts) us →
      f true (t :: u :: ts) = .ok (a, rest) → L.spared rest →
      ∃ rest', f true us = .ok (a, rest') ∧ L.like s' rest rest')
    (hfalse : Carries L (inside, depth) (f false) s') :
    Carries L (inside, depth) (startsWith first second >>= f) s' := by
  refine ⟨(startsWith_leaves _ _).bind fun b => ?_, ?_⟩
  · cases b with
    | true => exact htwo.advances.leaves
    | false => exact hfalse.leaves
  · intro ts us a rest hlike hok hspared
    rw [Rule.startsWith_bind] at hok ⊢
    by_cases hts : ts[0]?.map Token.kind = some first ∧ ts[1]?.map Token.kind = some second
    · rw [decide_eq_true hts] at hok
      obtain ⟨t, u, mid, rfl, hrest⟩ := htwo _ _ _ hok
      have ht : t.kind = first := Option.some.inj hts.1
      obtain ⟨t', us', rfl, hface, hmid⟩ :=
        L.step hlike (ht ▸ hfirst) (hrest.trans (List.suffix_cons u mid)) hspared
      obtain ⟨u', us', rfl, hface'⟩ := L.same_of_suffix hmid hrest hspared
      have hus : (t' :: u' :: us')[0]?.map Token.kind = some first ∧
          (t' :: u' :: us')[1]?.map Token.kind = some second :=
        ⟨(congrArg some (Token.kind_eq_of_face hface)).trans hts.1,
          (congrArg some (Token.kind_eq_of_face hface')).trans hts.2⟩
      rw [decide_eq_true hus]
      exact htrue t u mid _ a rest ht (Option.some.inj hts.2) hlike hok hspared
    · rw [decide_eq_false hts] at hok
      obtain ⟨t, mid, rfl, hrest⟩ := hone.exists_cons hok
      have hts' := L.spared_of_suffix hrest hspared
      obtain ⟨t', us', rfl, hface⟩ := L.same hlike hts'
      have hus : ¬ ((t' :: us')[0]?.map Token.kind = some first ∧
          (t' :: us')[1]?.map Token.kind = some second) := by
        rintro ⟨ht', hu'⟩
        have ht : t.kind = first :=
          (Token.kind_eq_of_face hface).symm.trans (Option.some.inj ht')
        refine L.headKind_ne (L.word hlike hts' (ht ▸ hfirst)) ?_ hsecond hu'
        exact fun hu => hts ⟨congrArg some ht, hu⟩
      rw [decide_eq_false hus]
      exact hfalse.carry _ _ _ _ hlike hok hspared

/-- A rule that asks for a name and a mark behind it, and takes both. -/
theorem named_bind {second : Kind} {f : Bool → Rule α} {g : String → Rule α} (what : String)
    (hline : second ∉ layoutKinds) (hsecond : some second ∉ closingKinds)
    (hstep : f true = Rule.word what >>= fun name => next >>= fun _ => g name)
    (hadvances : ∀ name, Advances (g name)) (hone : Advances (f false))
    (hg : ∀ name, Carries L (true, depth) (g name) s')
    (hfalse : Carries L (inside, depth) (f false) s') :
    Carries L (inside, depth) (startsWith .word second >>= f) s' := by
  refine startsWith_bind (by decide) hsecond ?_ hone ?_ hfalse
  · rw [hstep]
    exact (word_advances _).bind_two fun name => next_leaves.bind_advances fun _ => hadvances name
  · intro t u ts us a rest ht hu hlike hok hspared
    rw [hstep, word_bind_of_eq ht] at hok
    have ha : g t.content ts = .ok (a, rest) := hok
    have hts := L.spared_of_suffix ((hg _).leaves _ _ _ ha) hspared
    obtain ⟨t', us', rfl, hface, hmid⟩ :=
      L.step hlike (by rw [ht]; decide) (List.suffix_cons u ts) hts
    obtain ⟨u', us', rfl, -, hmid⟩ := L.step hmid (hu ▸ hline) (List.suffix_refl ts) hts
    obtain ⟨rest', ha', h'⟩ := (hg _).carry _ _ _ _ hmid ha hspared
    refine ⟨rest', ?_, h'⟩
    rw [hstep, word_bind_of_eq ((Token.kind_eq_of_face hface).trans ht),
      Token.content_eq_of_face hface]
    exact ha'

/-- A rule over a recursive one carries a likeness if it does so over every unrolling. -/
theorem of_unroll {f : Rule α → Rule α} {F : Rule α → Rule β} (hf : Guarded f)
    (hF : ∀ n p q, Alike n p q → Alike n (F p) (F q))
    (h : ∀ n, Carries L s (F (unroll f n)) s') : Carries L s (F (fix f)) s' := by
  have halike : ∀ n, Alike n (F (unroll f n)) (F (fix f)) :=
    fun n => hF n _ _ (unroll_alike_fix hf n)
  refine ⟨(halike 0).right, ?_⟩
  intro ts us a rest hlike hok hspared
  obtain ⟨n, hts, hus⟩ : ∃ n, ts.length < n ∧ us.length < n :=
    ⟨max ts.length us.length + 1, by omega, by omega⟩
  rw [← (halike n).agree ts hts] at hok
  rw [← (halike n).agree us hus]
  exact (h n).carry ts us a rest hlike hok hspared

theorem fix {f : Rule α → Rule α} (hf : Guarded f) (h : ∀ n, Carries L s (unroll f n) s') :
    Carries L s (fix f) s' :=
  of_unroll hf (F := fun p => p) (fun _ _ _ hpq => hpq) h

theorem commaSeparated {item : Rule α} (h : Enters L item) : Enters L (commaSeparated item) := by
  intro inside depth
  refine fix (commaSeparated_guarded (h true depth).leaves) fun n => ?_
  induction n generalizing inside with
  | zero => exact .refuse _
  | succ n ih =>
    refine (h inside depth).bind fun first => ?_
    refine accept_bind (L.passes (by decide)) (.inl (by decide)) (fun _ _ => rfl) (fun _ => ?_)
      (.pure _)
    exact (ih true).map (first :: ·)

section Chain

variable {ω : Type} {op : Kind → Option ω} {operand : Rule α}

/-- A rule that goes on behind an operator, if there is one. -/
theorem operator_bind {f : Option Kind → Rule β} {q : Rule β} {g : ω → Rule β}
    (hop : Operators op) (hnone : ∀ k, k.bind op = none → f k = q)
    (hsome : ∀ k o, op k = some o → f (some k) = next >>= fun _ => g o)
    (hq : Carries L (inside, depth) q s') (hg : ∀ o, Carries L (true, depth) (g o) s') :
    Carries L (inside, depth) (peekKind 0 >>= f) s' := by
  refine ⟨(peekKind_leaves 0).bind fun k => ?_, ?_⟩
  · cases hk : k.bind op with
    | none =>
      rw [hnone k hk]
      exact hq.leaves
    | some o =>
      obtain ⟨kind, rfl, ho⟩ := Option.bind_eq_some_iff.1 hk
      rw [hsome kind o ho]
      exact next_leaves.bind fun _ => (hg o).leaves
  · intro ts us b rest hlike hok hspared
    rw [peekKind_bind] at hok ⊢
    cases hhead : (headKind ts).bind op with
    | some o =>
      obtain ⟨kind, hkind, ho⟩ := Option.bind_eq_some_iff.1 hhead
      obtain ⟨t, ts, rfl, rfl⟩ := exists_cons_of_headKind hkind
      have hline : t.kind ∉ layoutKinds := by
        intro hmem
        rw [hop.layout _ hmem] at ho
        cases ho
      have hb : f (some t.kind) (t :: ts) = .ok (b, rest) := hok
      rw [hsome _ o ho] at hb
      have hb : g o ts = .ok (b, rest) := hb
      have hts := L.spared_of_suffix ((hg o).leaves _ _ _ hb) hspared
      obtain ⟨t', us, rfl, hface⟩ := L.same hlike hts
      obtain ⟨rest', hb', h'⟩ := (hg o).carry _ _ _ _ (L.word hlike hts hline) hb hspared
      refine ⟨rest', ?_, h'⟩
      show f (some t'.kind) (t' :: us) = .ok (b, rest')
      rw [Token.kind_eq_of_face hface, hsome _ o ho]
      exact hb'
    | none =>
      have hhead' : (headKind us).bind op = none := by
        rcases L.head hlike with heq | hmem
        · rw [heq, hhead]
        · exact hop.closing _ hmem
      have hb : f (headKind ts) ts = .ok (b, rest) := hok
      rw [hnone _ hhead] at hb
      obtain ⟨rest', hb', h'⟩ := hq.carry ts us b rest hlike hb hspared
      refine ⟨rest', ?_, h'⟩
      show f (headKind us) us = .ok (b, rest')
      rw [hnone _ hhead', hb']

theorem operations (hop : Operators op) (hadvances : Advances operand) (h : Enters L operand) :
    Carries L (true, depth) (operations op operand) (true, depth) := by
  refine fix (operations_guarded hadvances) fun n => ?_
  induction n with
  | zero => exact .refuse _
  | succ n ih =>
    refine operator_bind hop (fun k hk => ?_) (fun k o ho => ?_) (.pure [])
      fun o => (h true depth).bind fun first => ih.map ((o, first) :: ·)
    · rw [hk]
    · rw [Option.bind_some, ho]

theorem chain {join : ω → α → α → α} (hop : Operators op) (hadvances : Advances operand)
    (h : Enters L operand) : Enters L (chain op join operand) :=
  fun inside depth => (h inside depth).bind fun first => (operations hop hadvances h).map
    fun more => more.foldl (fun left step => join step.1 left step.2) first

end Chain

end Carries

/-- A likeness that goes over lines and blocks. -/
structure Layers extends Likeness where
  indent {depth : Nat} {t t' : Token} {ts us : List Token} :
    like (false, depth) (t :: ts) (t' :: us) → spared ts → t.kind = .indent →
    like (false, depth + 1) ts us
  dedent {depth : Nat} {t t' : Token} {ts us : List Token} :
    like (false, depth + 1) (t :: ts) (t' :: us) → spared ts → t.kind = .dedent →
    like (false, depth) ts us
  lineEnd {depth : Nat} {ts us rest : List Token} :
    like (true, depth) ts us → lineEnd ts = .ok ((), rest) → spared rest →
    ∃ rest', Rule.lineEnd us = .ok ((), rest') ∧ like (false, depth) rest rest'
  newlines {depth : Nat} {ts us rest : List Token} :
    like (false, depth) ts us → skipNewlines ts = .ok ((), rest) → spared rest →
    ∃ rest', skipNewlines us = .ok ((), rest') ∧ like (false, depth) rest rest'
  /-- Where the one input ends within a block, the block ends in the other one too. -/
  blockEnd {depth : Nat} {us : List Token} : like (false, depth + 1) [] us → spared [] →
    ∃ rest', Rule.blockEnd us = .ok (true, rest') ∧ like (false, depth) [] rest'

namespace Layers

variable {L : Layers} {depth : Nat} {s' : Bool × Nat}

theorem carries_lineEnd : Carries L.toLikeness (true, depth) Rule.lineEnd (false, depth) := by
  refine ⟨lineEnd_leaves, ?_⟩
  intro ts us a rest hlike hok hspared
  exact L.lineEnd hlike hok hspared

theorem carries_newlines : Carries L.toLikeness (false, depth) skipNewlines (false, depth) := by
  refine ⟨skip_leaves _, ?_⟩
  intro ts us a rest hlike hok hspared
  exact L.newlines hlike hok hspared

theorem passes_indent : L.Passes (false, depth) .indent (false, depth + 1) :=
  fun _ _ _ _ => L.indent

theorem carries_blockEnd_bind {f : Bool → Rule β} (hadvances : Advances (f false))
    (htrue : Carries L.toLikeness (false, depth) (f true) s')
    (hfalse : Carries L.toLikeness (false, depth + 1) (f false) s') :
    Carries L.toLikeness (false, depth + 1) (Rule.blockEnd >>= f) s' := by
  refine ⟨blockEnd_leaves.bind fun ended => ?_, ?_⟩
  · cases ended with
    | true => exact htrue.leaves
    | false => exact hfalse.leaves
  · intro ts us b rest hlike hok hspared
    cases ts with
    | nil =>
      have hb : f true [] = .ok (b, rest) := hok
      have hnil := L.spared_of_suffix (htrue.leaves _ _ _ hb) hspared
      obtain ⟨mid, hend, h'⟩ := L.blockEnd hlike hnil
      obtain ⟨rest', hb', h''⟩ := htrue.carry _ _ _ _ h' hb hspared
      exact ⟨rest', bind_eq_ok.2 ⟨true, mid, hend, hb'⟩, h''⟩
    | cons t ts =>
      by_cases hkind : t.kind = .dedent
      · rw [blockEnd_bind_of_eq hkind] at hok
        have hts := L.spared_of_suffix (htrue.leaves _ _ _ hok) hspared
        obtain ⟨t', us, rfl, hface⟩ := L.same hlike hts
        obtain ⟨rest', hb', h'⟩ := htrue.carry _ _ _ _ (L.dedent hlike hts hkind) hok hspared
        refine ⟨rest', ?_, h'⟩
        rw [blockEnd_bind_of_eq ((Token.kind_eq_of_face hface).trans hkind), hb']
      · rw [blockEnd_bind_of_ne hkind] at hok
        obtain ⟨u, mid, heq, hrest⟩ := hadvances.exists_cons hok
        cases heq
        obtain ⟨t', us, rfl, hface⟩ := L.same_of_suffix hlike hrest hspared
        rw [blockEnd_bind_of_ne fun heq => hkind ((Token.kind_eq_of_face hface).symm.trans heq)]
        exact hfalse.carry _ _ _ _ hlike hok hspared

theorem carries_lines {item : Rule α} (hadvances : Advances item)
    (h : ∀ depth, Carries L.toLikeness (false, depth) item (false, depth)) :
    Carries L.toLikeness (false, depth + 1) (lines item) (false, depth) := by
  refine .fix (lines_guarded hadvances) fun n => ?_
  induction n with
  | zero => exact .refuse _
  | succ n ih =>
    refine carries_newlines.bind fun _ => carries_blockEnd_bind ?_ (.pure []) ?_
    · exact hadvances.bind fun first => ih.leaves.bind fun more => pure_leaves _
    · exact (h _).bind fun first => ih.map (first :: ·)

end Layers

end Rule

end Offside
