import Offside.Proofs.Rule.Likeness

/-!
Where rules fail. A rule is mended if, whenever it refuses a token, the tokens before the refused
one can be completed to an input that it takes. Most rules stop at what stands behind their part of
a line, others only at the end of the input; `Takes` says which tails a rule is sure to stop at.
When one rule fails behind another, what the first one took is taken again before the completed
tail, because this tail is like the old one as far as the first rule looks.
-/
namespace Offside

/-- Some token of the kind. -/
def Kind.token (kind : Kind) : Token :=
  ⟨kind, Position.start,
    match kind with
    | .word => some "x"
    | .number => some "0"
    | _ => none⟩

@[simp] theorem Kind.kind_token (kind : Kind) : kind.token.kind = kind := rfl

/-- Only a group is refused as a nested one. -/
def Refusal.Fair (r : Refusal) : Prop :=
  r.complaint = .nestedGroup → Rule.headKind r.rest = some .lparen

theorem Refusal.fair_expected (what : String) (ts : List Token) :
    Refusal.Fair ⟨.expected what, ts⟩ := by
  intro hnested
  cases hnested

namespace Rule

variable {α β : Type}

/-- What stands behind a part of a line: the end of the line, of a group or of the input. -/
def LineTail (tail : List Token) : Prop := headKind tail ∈ [none, some Kind.newline, some .rparen]

/-- The end of the input. -/
def NoTail (tail : List Token) : Prop := tail = []

/-- The rule takes these tokens and no more, before each of the tails. -/
def Takes (p : Rule α) (ts : List Token) (T : List Token → Prop) : Prop :=
  ∀ tail, T tail → ∃ a, p (ts ++ tail) = .ok (a, tail)

/-- If the rule refuses a token of the list, what stands before it can be completed. -/
def MendsAt (p : Rule α) (T : List Token → Prop) (ts : List Token) : Prop :=
  ∀ r, p ts = .error r → ∃ used, ts = used ++ r.rest ∧ r.Fair ∧
    (used ≠ [] → ∃ ext, Takes p (used ++ ext) T)

def Mends (n : Nat) (p : Rule α) (T : List Token → Prop) : Prop :=
  ∀ ts : List Token, ts.length < n → MendsAt p T ts

/-- A rule that can be completed on all lists shorter than `n`, and that takes `ext` to start
with. -/
structure Mended (n : Nat) (p : Rule α) (ext : List Token) (T : List Token → Prop) : Prop where
  takes : Takes p ext T
  mends : Mends n p T

variable {m n : Nat} {p q : Rule α} {f : α → Rule β} {ext ext' : List Token}
  {T T' : List Token → Prop}

theorem bind_eq_error {ts : List Token} {r : Refusal} :
    (p >>= f) ts = .error r ↔
      p ts = .error r ∨ ∃ a mid, p ts = .ok (a, mid) ∧ f a mid = .error r := by
  rw [bind_apply]
  cases p ts with
  | error r' => simp
  | ok out =>
    obtain ⟨a, mid⟩ := out
    simp

theorem LineTail.closing {tail : List Token} (h : LineTail tail) :
    headKind tail ∈ closingKinds := by
  unfold LineTail at h
  generalize headKind tail = kind at h ⊢
  revert kind
  decide

theorem LineTail.ne {tail : List Token} (h : LineTail tail) {kind : Kind}
    (hkind : kind ≠ .newline ∧ kind ≠ .rparen) : headKind tail ≠ some kind := by
  intro hhead
  simp [LineTail, hhead, hkind.1, hkind.2] at h

theorem NoTail.lineTail {tail : List Token} (h : NoTail tail) : LineTail tail := by
  rw [NoTail] at h
  subst h
  simp [LineTail]

theorem lineTail_rparen (tail : List Token) : LineTail (Kind.rparen.token :: tail) := by
  simp [LineTail]

theorem lineTail_newline (tail : List Token) : LineTail (Kind.newline.token :: tail) := by
  simp [LineTail]

theorem headKind_append_of_ne_nil {ts : List Token} (h : ts ≠ []) (us us' : List Token) :
    headKind (ts ++ us) = headKind (ts ++ us') := by
  cases ts with
  | nil => exact absurd rfl h
  | cons t ts => rfl

namespace Takes

theorem pure (a : α) : Takes (pure a : Rule α) [] T := fun _ _ => ⟨a, rfl⟩

theorem bind (hp : Takes p ext T') (hf : ∀ a, Takes (f a) ext' T)
    (hT : ∀ tail, T tail → T' (ext' ++ tail)) : Takes (p >>= f) (ext ++ ext') T := by
  intro tail htail
  obtain ⟨a, ha⟩ := hp (ext' ++ tail) (hT tail htail)
  obtain ⟨b, hb⟩ := hf a tail htail
  refine ⟨b, ?_⟩
  rw [List.append_assoc, bind_of_ok ha, hb]

theorem map (hp : Takes p ext T) (g : α → β) : Takes (p >>= fun a => Pure.pure (g a)) ext T := by
  intro tail htail
  obtain ⟨a, ha⟩ := hp tail htail
  exact ⟨g a, bind_of_ok ha _⟩

theorem accept_some {kind : Kind} {f : Option Token → Rule β}
    (hsome : ∀ t, Takes (f (some t)) ext T) : Takes (accept kind >>= f) (kind.token :: ext) T := by
  intro tail htail
  obtain ⟨b, hb⟩ := hsome kind.token tail htail
  exact ⟨b, (accept_bind_of_eq (Kind.kind_token kind) f _).trans hb⟩

theorem accept_none {kind : Kind} {f : Option Token → Rule β} (hnone : Takes (f none) ext T)
    (hext : ∀ tail, T tail → headKind (ext ++ tail) ≠ some kind) :
    Takes (accept kind >>= f) ext T := by
  intro tail htail
  obtain ⟨b, hb⟩ := hnone tail htail
  exact ⟨b, (accept_bind_of_ne (hext tail htail) f).trans hb⟩

/-- A rule that asks for the kinds of two tokens and does not find the second. -/
theorem startsWith_bind {first second : Kind} {f : Bool → Rule β} {t : Token}
    (h : Takes (f false) (t :: ext) T)
    (hext : ∀ tail, T tail → headKind (ext ++ tail) ≠ some second) :
    Takes (startsWith first second >>= f) (t :: ext) T := by
  intro tail htail
  obtain ⟨b, hb⟩ := h tail htail
  refine ⟨b, ?_⟩
  rw [Rule.startsWith_bind, decide_eq_false]
  · exact hb
  · exact fun hkinds => hext tail htail hkinds.2

/-- A rule does what another one does on the lists that start with the same tokens. -/
theorem of_eq (h : Takes q ext' T) (heq : ∀ tail, p (ext ++ tail) = q (ext' ++ tail)) :
    Takes p ext T := by
  intro tail htail
  rw [heq tail]
  exact h tail htail

end Takes

/-- A list that is spared does not reach beyond the first token of what was used. -/
theorem exists_cons_of_suffix {t : Token} {ts used rest : List Token}
    (h : t :: ts = used ++ rest) (hrest : rest <:+ ts) :
    ∃ more, used = t :: more ∧ ts = more ++ rest := by
  cases used with
  | nil =>
    have hlength := hrest.length_le
    rw [List.nil_append] at h
    rw [← h, List.length_cons] at hlength
    omega
  | cons u more =>
    obtain ⟨rfl, htail⟩ := List.cons.inj h
    exact ⟨more, rfl, htail⟩

theorem getElem?_of_take {ts us : List Token} {i k : Nat} (h : us.take k = ts.take k) (hi : i < k) :
    us[i]? = ts[i]? := by
  rw [← List.getElem?_take_of_lt hi, h, List.getElem?_take_of_lt hi]

namespace MendsAt

variable {ts : List Token}

theorem of_ok {a : α} {rest : List Token} (h : p ts = .ok (a, rest)) : MendsAt p T ts := by
  intro r hr
  rw [h] at hr
  cases hr

/-- A rule that refuses the first token. -/
theorem of_refuse (what : String) (h : p ts = .error ⟨.expected what, ts⟩) : MendsAt p T ts := by
  intro r hr
  rw [h] at hr
  cases hr
  exact ⟨[], rfl, Refusal.fair_expected what ts, fun hne => absurd rfl hne⟩

/-- A rule that behaves as another one because of the first `k` tokens. Fewer of them are completed
in another way. -/
theorem of_look (k : Nat) (hq : MendsAt q T ts) (heq : ∀ us, us.take k = ts.take k → p us = q us)
    (hshort : ∀ used more, used ≠ [] → used.length < k → ts = used ++ more →
      ∃ ext, Takes p (used ++ ext) T) : MendsAt p T ts := by
  intro r hr
  rw [heq ts rfl] at hr
  obtain ⟨used, rfl, hfair, hext⟩ := hq r hr
  refine ⟨used, rfl, hfair, fun hused => ?_⟩
  by_cases hk : used.length < k
  · exact hshort used r.rest hused hk rfl
  · obtain ⟨ext, htakes⟩ := hext hused
    refine ⟨ext, htakes.of_eq fun tail => heq _ ?_⟩
    rw [List.append_assoc, List.take_append_of_le_length (by omega),
      List.take_append_of_le_length (by omega)]

/-- A rule that behaves as another one because of the kind of the first token. -/
theorem of_headKind (hq : MendsAt q T ts)
    (heq : ∀ us, headKind us = headKind ts → p us = q us) : MendsAt p T ts := by
  refine of_look 1 hq (fun us hus => heq us ?_) fun used more hused hlength => ?_
  · exact congrArg (Option.map Token.kind) (getElem?_of_take hus Nat.one_pos)
  · exact absurd (List.length_pos_iff.2 hused) (by omega)

/-- A rule that behaves as another one because of the first two tokens. A single one is completed
in another way. -/
theorem of_two (hq : MendsAt q T ts)
    (heq : ∀ us, us[0]? = ts[0]? → us[1]? = ts[1]? → p us = q us)
    (hshort : ∀ t, ts[0]? = some t → ∃ ext, Takes p (t :: ext) T) : MendsAt p T ts := by
  refine of_look 2 hq (fun us hus => ?_) fun used more hused hlength hts => ?_
  · exact heq us (getElem?_of_take hus Nat.two_pos) (getElem?_of_take hus Nat.one_lt_two)
  · obtain ⟨t, rfl⟩ : ∃ t, used = [t] := by
      have hpos := List.length_pos_iff.2 hused
      exact List.length_eq_one_iff.1 (by omega)
    subst hts
    exact hshort t rfl

/-- A rule that takes the tokens of `front` and then behaves as another one. -/
theorem behind (front : List Token) (hq : MendsAt q T ts) (htakes : Takes q ext T)
    (heq : ∀ us, p (front ++ us) = q us) : MendsAt p T (front ++ ts) := by
  intro r hr
  rw [heq] at hr
  obtain ⟨used, rfl, hfair, hext⟩ := hq r hr
  refine ⟨front ++ used, (List.append_assoc _ _ _).symm, hfair, fun _ => ?_⟩
  by_cases hused : used = []
  · subst hused
    refine ⟨ext, htakes.of_eq fun tail => ?_⟩
    simp only [List.append_nil, List.append_assoc]
    exact heq _
  · obtain ⟨ext', htakes'⟩ := hext hused
    refine ⟨ext', htakes'.of_eq fun tail => ?_⟩
    simp only [List.append_assoc]
    exact heq _

end MendsAt

/-- The lists end with `rest` and with `tail`, and are the same before. -/
def exchange (rest tail : List Token)
    (h : headKind tail = headKind rest ∨ headKind tail ∈ closingKinds) : Likeness where
  like _ ts us := ∃ used, ts = used ++ rest ∧ us = used ++ tail
  spared left := rest <:+ left
  spared_of_suffix hleft hrest := hrest.trans hleft
  head := by
    rintro s ts us ⟨used, rfl, rfl⟩
    by_cases hused : used = []
    · subst hused
      exact h
    · exact .inl (headKind_append_of_ne_nil hused _ _)
  same := by
    rintro s t ts us ⟨used, heq, rfl⟩ hspared
    obtain ⟨more, rfl, -⟩ := exists_cons_of_suffix heq hspared
    exact ⟨t, more ++ tail, rfl, rfl⟩
  word := by
    rintro inside depth t t' ts us ⟨used, heq, heq'⟩ hspared -
    obtain ⟨more, rfl, rfl⟩ := exists_cons_of_suffix heq hspared
    exact ⟨more, rfl, (List.cons.inj heq').2⟩

section Lines

variable {rest tail used left : List Token}
  (h : headKind tail = headKind rest ∨ rest ≠ [] ∧ tail = [])
include h

theorem headKind_exchange (used : List Token) :
    headKind (used ++ tail) = headKind (used ++ rest) ∨ headKind (used ++ tail) = none := by
  by_cases hused : used = []
  · subst hused
    rcases h with hsame | ⟨-, rfl⟩
    · exact .inl hsame
    · exact .inr rfl
  · exact .inl (headKind_append_of_ne_nil hused _ _)

theorem skipNewlines_exchange (hskip : skipNewlines (used ++ rest) = .ok ((), left))
    (hleft : rest <:+ left) :
    ∃ more, left = more ++ rest ∧ skipNewlines (used ++ tail) = .ok ((), more ++ tail) := by
  obtain ⟨hhead, breaks, heq, hbreaks⟩ := skipNewlines_eq_ok.1 hskip
  obtain ⟨more, rfl⟩ := hleft
  rw [← List.append_assoc] at heq
  obtain rfl := List.append_cancel_right heq
  refine ⟨more, rfl, skipNewlines_eq_ok.2 ⟨?_, breaks, List.append_assoc _ _ _, hbreaks⟩⟩
  rcases headKind_exchange h more with hsame | hnone
  · rwa [hsame]
  · rw [hnone]
    simp

theorem lineEnd_exchange (hend : lineEnd (used ++ rest) = .ok ((), left)) (hleft : rest <:+ left) :
    ∃ more, left = more ++ rest ∧ lineEnd (used ++ tail) = .ok ((), more ++ tail) := by
  rcases lineEnd_eq_ok.1 hend with ⟨hnewline, hskip⟩ | ⟨rfl, hclosed⟩
  · obtain ⟨more, rfl, hskip'⟩ := skipNewlines_exchange h hskip hleft
    refine ⟨more, rfl, lineEnd_eq_ok.2 (.inl ⟨?_, hskip'⟩)⟩
    have hused : used ≠ [] := by
      rintro rfl
      have hhead := (skipNewlines_eq_ok.1 hskip).1
      have hlength := (skip_leaves _ _ _ _ hskip).length_le
      have hmore : more = [] := by
        rw [List.nil_append, List.length_append] at hlength
        exact List.length_eq_zero_iff.1 (by omega)
      subst hmore
      exact hhead hnewline
    rw [headKind_append_of_ne_nil hused tail rest, hnewline]
  · refine ⟨used, rfl, lineEnd_eq_ok.2 (.inr ⟨rfl, ?_⟩)⟩
    rcases headKind_exchange h used with hsame | hnone
    · rwa [hsame]
    · exact .inl hnone

end Lines

/-- The same for rules that read lines and blocks. They may find the end of the input in the place
of anything else. -/
def exchangeLines (rest tail : List Token)
    (h : headKind tail = headKind rest ∨ rest ≠ [] ∧ tail = []) : Layers where
  toLikeness := exchange rest tail (h.imp_right fun htail => by rw [htail.2]; decide)
  indent := by
    rintro depth t t' ts us ⟨used, heq, heq'⟩ hspared -
    obtain ⟨more, rfl, rfl⟩ := exists_cons_of_suffix heq hspared
    exact ⟨more, rfl, (List.cons.inj heq').2⟩
  dedent := by
    rintro depth t t' ts us ⟨used, heq, heq'⟩ hspared -
    obtain ⟨more, rfl, rfl⟩ := exists_cons_of_suffix heq hspared
    exact ⟨more, rfl, (List.cons.inj heq').2⟩
  newlines := by
    rintro depth ts us left ⟨used, rfl, rfl⟩ hskip hspared
    obtain ⟨more, rfl, hskip'⟩ := skipNewlines_exchange h hskip hspared
    exact ⟨_, hskip', more, rfl, rfl⟩
  lineEnd := by
    rintro depth ts us left ⟨used, rfl, rfl⟩ hend hspared
    obtain ⟨more, rfl, hend'⟩ := lineEnd_exchange h hend hspared
    exact ⟨_, hend', more, rfl, rfl⟩
  blockEnd := by
    rintro depth us ⟨used, heq, rfl⟩ -
    obtain ⟨rfl, rfl⟩ := List.append_eq_nil_iff.1 heq.symm
    have htail : tail = [] := by
      rcases h with hsame | ⟨hne, -⟩
      · cases tail with
        | nil => rfl
        | cons t tail => cases hsame
      · exact absurd rfl hne
    subst htail
    exact ⟨[], rfl, [], rfl, rfl⟩

/-- What is left for both lists of an exchange. -/
theorem eq_of_like_rest {rest tail left : List Token}
    (h : ∃ used, rest = used ++ rest ∧ left = used ++ tail) : left = tail := by
  obtain ⟨used, heq, rfl⟩ := h
  obtain rfl := List.self_eq_append_left.1 heq
  rfl

/-- A rule that reads a part of a line takes the same before another tail. -/
theorem exchange_of_enters (hp : ∀ L, Carries L (true, 0) p (true, 0)) {used rest tail : List Token}
    {a : α} (ha : p (used ++ rest) = .ok (a, rest))
    (htail : headKind tail = headKind rest ∨ headKind tail ∈ closingKinds) :
    p (used ++ tail) = .ok (a, tail) := by
  obtain ⟨left, ha', hlike⟩ := (hp (exchange rest tail htail)).carry _ _ _ _ ⟨used, rfl, rfl⟩ ha
    List.suffix_rfl
  rwa [eq_of_like_rest hlike] at ha'

/-- A rule that reads lines and blocks takes the same before another tail. -/
theorem exchange_of_lines (hp : ∀ L : Layers, Carries L.toLikeness (false, 0) p (false, 0))
    {used rest tail : List Token} {a : α} (ha : p (used ++ rest) = .ok (a, rest))
    (htail : headKind tail = headKind rest ∨ rest ≠ [] ∧ tail = []) :
    p (used ++ tail) = .ok (a, tail) := by
  obtain ⟨left, ha', hlike⟩ := (hp (exchangeLines rest tail htail)).carry _ _ _ _ ⟨used, rfl, rfl⟩
    ha List.suffix_rfl
  rwa [eq_of_like_rest hlike] at ha'

theorem Mends.mono (h : Mends n p T) (hmn : m ≤ n) : Mends m p T :=
  fun ts hts => h ts (Nat.lt_of_lt_of_le hts hmn)

theorem Mends.of_mended (ext : List Token) (h : Mended n p ext T) : Mends n p T := h.mends

theorem Mends.refuse (what : String) : Mends n (refuse what : Rule α) T :=
  fun _ _ => .of_refuse _ rfl

namespace Mended

theorem mono (h : Mended n p ext T) (hmn : m ≤ n) : Mended m p ext T :=
  ⟨h.takes, h.mends.mono hmn⟩

theorem pure (a : α) : Mended n (pure a : Rule α) [] T :=
  ⟨.pure a, fun _ _ => .of_ok rfl⟩

/-- The tokens before a refused one, and how to complete them. -/
theorem exists_takes (h : Mended n p ext T) {ts : List Token} (hts : ts.length < n) {r : Refusal}
    (hr : p ts = .error r) : ∃ used more, ts = used ++ r.rest ∧ r.Fair ∧ Takes p (used ++ more) T ∧
      (used = [] → more = ext) := by
  obtain ⟨used, heq, hfair, hext⟩ := h.mends ts hts r hr
  by_cases hused : used = []
  · subst hused
    exact ⟨[], ext, heq, hfair, h.takes, fun _ => rfl⟩
  · obtain ⟨more, hmore⟩ := hext hused
    exact ⟨used, more, heq, hfair, hmore, fun hnil => absurd hnil hused⟩

/-- A rule that takes a token and then behaves as another one. -/
theorem behind {t : Token} {ts : List Token} (hq : Mended m q ext T) (hts : ts.length < m)
    (heq : ∀ us, p (t :: us) = q us) : MendsAt p T (t :: ts) :=
  .behind [t] (hq.mends ts hts) hq.takes heq

theorem map (hp : Mended n p ext T) (g : α → β) :
    Mended n (p >>= fun a => Pure.pure (g a)) ext T := by
  refine ⟨hp.takes.map g, fun ts hts r hr => ?_⟩
  rcases bind_eq_error.1 hr with hr | ⟨a, mid, -, hr⟩
  · obtain ⟨used, heq, hfair, hext⟩ := hp.mends ts hts r hr
    exact ⟨used, heq, hfair, fun hused => (hext hused).imp fun more hmore => hmore.map g⟩
  · cases hr

/-- One rule behind another. What the first one took it takes again, before a list with the same
first token and before the tokens that the second rule starts with. -/
theorem bind_of_exchange (hp : Mended n p ext T') (hleaves : LeavesSuffix p)
    (hf : ∀ a, Mended m (f a) ext' T) (hT : ∀ tail, T tail → T' (ext' ++ tail))
    (hlength : ∀ ts mid a, p ts = .ok (a, mid) → ts.length < n → mid.length < m)
    (hsame : ∀ used rest tail a, p (used ++ rest) = .ok (a, rest) → headKind tail = headKind rest →
      p (used ++ tail) = .ok (a, tail))
    (hopen : ∀ used rest tail a r, p (used ++ rest) = .ok (a, rest) → f a rest = .error r →
      T tail → p (used ++ (ext' ++ tail)) = .ok (a, ext' ++ tail)) :
    Mended n (p >>= f) (ext ++ ext') T := by
  have htakes : Takes (p >>= f) (ext ++ ext') T := hp.takes.bind (fun a => (hf a).takes) hT
  refine ⟨htakes, fun ts hts r hr => ?_⟩
  rcases bind_eq_error.1 hr with hr | ⟨a, mid, ha, hfa⟩
  · obtain ⟨used, heq, hfair, hext⟩ := hp.mends ts hts r hr
    refine ⟨used, heq, hfair, fun hused => ?_⟩
    obtain ⟨more, hmore⟩ := hext hused
    refine ⟨more ++ ext', ?_⟩
    rw [← List.append_assoc]
    exact hmore.bind (fun a => (hf a).takes) hT
  · obtain ⟨used, more, rfl, hfair, hmore, hnil⟩ :=
      (hf a).exists_takes (hlength ts mid a ha hts) hfa
    obtain ⟨front, rfl⟩ := hleaves _ _ _ ha
    refine ⟨front ++ used, (List.append_assoc _ _ _).symm, hfair, fun _ => ⟨more, ?_⟩⟩
    intro tail htail
    obtain ⟨b, hb⟩ := hmore tail htail
    have hfront : p (front ++ (used ++ more ++ tail)) = .ok (a, used ++ more ++ tail) := by
      by_cases hused : used = []
      · subst hused
        rw [hnil rfl]
        exact hopen front _ tail a r ha hfa htail
      · refine hsame front _ _ a ha ?_
        rw [List.append_assoc]
        exact headKind_append_of_ne_nil hused _ _
    refine ⟨b, ?_⟩
    rw [List.append_assoc, List.append_assoc, ← List.append_assoc used, bind_of_ok hfront, hb]

/-- A rule behind a part of a line. -/
theorem bind (hp : Mended n p ext LineTail) (hline : ∀ L, Carries L (true, 0) p (true, 0))
    (hf : ∀ a, Mended n (f a) ext' T) (hT : ∀ tail, T tail → LineTail (ext' ++ tail)) :
    Mended n (p >>= f) (ext ++ ext') T := by
  have hleaves : LeavesSuffix p := (hline (exchange [] [] (.inl rfl))).leaves
  refine hp.bind_of_exchange hleaves hf hT ?_ ?_ ?_
  · intro ts mid a ha hts
    exact Nat.lt_of_le_of_lt (hleaves _ _ _ ha).length_le hts
  · intro used rest tail a ha hhead
    exact exchange_of_enters hline ha (.inl hhead)
  · intro used rest tail a r ha hr htail
    exact exchange_of_enters hline ha (.inr (hT tail htail).closing)

/-- A rule behind lines, which may also find the end of the input. -/
theorem bind_lines (hp : Mended n p ext NoTail) (hadvances : Advances p)
    (hlines : ∀ L : Layers, Carries L.toLikeness (false, 0) p (false, 0))
    (hf : ∀ a, Mended m (f a) [] NoTail) (hmn : n ≤ m + 1) : Mended n (p >>= f) ext NoTail := by
  rw [← List.append_nil ext]
  refine hp.bind_of_exchange hadvances.leaves hf (fun tail htail => htail) ?_ ?_ ?_
  · intro ts mid a ha hts
    have hlt := (hadvances _ _ _ ha).2
    omega
  · intro used rest tail a ha hhead
    exact exchange_of_lines hlines ha (.inl hhead)
  · intro used rest tail a r ha hr htail
    rw [NoTail] at htail
    subst htail
    refine exchange_of_lines hlines ha (.inr ⟨?_, rfl⟩)
    rintro rfl
    -- The second rule does not fail at the end of the input.
    obtain ⟨b, hb⟩ := (hf a).takes [] rfl
    cases hr.symm.trans hb

/-- A rule behind one that looks at nothing but the token that it takes. -/
theorem bind_token (hp : Mended n p ext fun _ => True) (hadvances : Advances p)
    (hexact : ∀ used rest tail a, p (used ++ rest) = .ok (a, rest) →
      p (used ++ tail) = .ok (a, tail))
    (hf : ∀ a, Mended m (f a) ext' T) (hmn : n ≤ m + 1) : Mended n (p >>= f) (ext ++ ext') T := by
  refine hp.bind_of_exchange hadvances.leaves hf (fun _ _ => trivial) ?_ ?_ ?_
  · intro ts mid a ha hts
    have hlt := (hadvances _ _ _ ha).2
    omega
  · intro used rest tail a ha hhead
    exact hexact used rest tail a ha
  · intro used rest tail a r ha hr htail
    exact hexact used rest _ a ha

theorem expect (kind : Kind) (what : String) :
    Mended n (expect kind what) [kind.token] fun _ => True := by
  refine ⟨fun tail _ => ⟨kind.token, expect_eq_ok.2 ⟨rfl, rfl⟩⟩, fun ts hts => ?_⟩
  cases ts with
  | nil => exact .of_refuse _ rfl
  | cons t ts =>
    by_cases ht : t.kind = kind
    · exact .of_ok (expect_eq_ok.2 ⟨rfl, ht⟩)
    · have hr : Rule.expect kind what (t :: ts) = .error ⟨.expected what, t :: ts⟩ := by
        simp [Rule.expect, ht]
      exact .of_refuse _ hr

theorem expect_bind {kind : Kind} {what : String} {f : Token → Rule β}
    (hf : ∀ t, Mended m (f t) ext T) (hmn : n ≤ m + 1) :
    Mended n (Rule.expect kind what >>= f) (kind.token :: ext) T := by
  refine (expect kind what).bind_token (expect_advances kind what) ?_ hf hmn
  intro used rest tail t ht
  obtain ⟨heq, hkind⟩ := expect_eq_ok.1 ht
  have hused : used ++ rest = [t] ++ rest := heq
  obtain rfl := List.append_cancel_right hused
  exact expect_eq_ok.2 ⟨rfl, hkind⟩

theorem word (what : String) : Mended n (word what) [Kind.word.token] T :=
  expect_bind (fun t => .pure t.content) (Nat.le_succ n)

theorem word_bind {what : String} {f : String → Rule β}
    (hf : ∀ name, Mended m (f name) ext T) (hmn : n ≤ m + 1) :
    Mended n (Rule.word what >>= f) (Kind.word.token :: ext) T := by
  rw [word_eq, bind_assoc]
  exact expect_bind (fun t => hf t.content) hmn

end Mended

/-- A token that is accepted is taken; otherwise the rule looks at no more than the first token. -/
theorem Mends.accept_bind {kind : Kind} {f : Option Token → Rule β}
    (hsome : ∀ t, Mended m (f (some t)) ext T) (hnone : Mends n (f none) T) (hmn : n ≤ m + 1) :
    Mends n (accept kind >>= f) T := by
  intro ts hts
  by_cases hhead : headKind ts = some kind
  · obtain ⟨t, ts, rfl, ht⟩ := exists_cons_of_headKind hhead
    have hbehind := (hsome t).mends ts (by rw [List.length_cons] at hts; omega)
    exact .behind [t] hbehind (hsome t).takes (accept_bind_of_eq ht f)
  · exact .of_headKind (hnone ts hts) fun us hus => accept_bind_of_ne (hus ▸ hhead) f

/-- A rule that goes on in one of two ways, as the next token says. -/
theorem Mends.choice {kind : Kind} (hp : Mends n p T) (hq : Mends n q T) :
    Mends n (do if (← peekKind 0) = some kind then p else q) T := by
  intro ts hts
  by_cases hkind : headKind ts = some kind
  · refine .of_headKind (hp ts hts) fun us hus => ?_
    rw [peekKind_bind, if_pos]
    exact hus.trans hkind
  · refine .of_headKind (hq ts hts) fun us hus => ?_
    rw [peekKind_bind, if_neg]
    exact fun heq => hkind (hus.symm.trans heq)

/-- A rule that asks for the kinds of the first two tokens. A single token of the first kind is
completed in another way. -/
theorem Mends.startsWith_bind {first second : Kind} {f : Bool → Rule β}
    (htrue : ∀ t u ts, t.kind = first → u.kind = second → (t :: u :: ts).length < n →
      MendsAt (f true) T (t :: u :: ts)) (hfalse : Mends n (f false) T)
    (hshort : ∀ t : Token, t.kind = first →
      ∃ ext, Takes (startsWith first second >>= f) (t :: ext) T) :
    Mends n (startsWith first second >>= f) T := by
  intro ts hts
  by_cases hfirst : headKind ts = some first
  · obtain ⟨t, ts, rfl, ht⟩ := exists_cons_of_headKind hfirst
    have hone : ∀ t', (t :: ts)[0]? = some t' →
        ∃ ext, Takes (startsWith first second >>= f) (t' :: ext) T := by
      intro t' ht'
      cases ht'
      exact hshort t ht
    by_cases hsecond : headKind ts = some second
    · obtain ⟨u, ts, rfl, hu⟩ := exists_cons_of_headKind hsecond
      refine .of_two (htrue t u ts ht hu hts) (fun us h₀ h₁ => ?_) hone
      rw [Rule.startsWith_bind, h₀, h₁, decide_eq_true]
      exact ⟨hfirst, hsecond⟩
    · refine .of_two (hfalse _ hts) (fun us h₀ h₁ => ?_) hone
      rw [Rule.startsWith_bind, h₀, h₁, decide_eq_false]
      exact fun h => hsecond h.2
  · refine .of_headKind (hfalse ts hts) fun us hus => ?_
    rw [Rule.startsWith_bind, decide_eq_false]
    exact fun h => hfirst (hus.symm.trans h.1)

/-- A rule that asks for a name and a mark behind it, and takes both. -/
theorem Mends.named_bind {second : Kind} {f : Bool → Rule β} {g : String → Rule β} (what : String)
    (hstep : f true = Rule.word what >>= fun name => next >>= fun _ => g name)
    (hg : ∀ name, Mended m (g name) ext T) (hfalse : Mends n (f false) T)
    (hshort : ∀ t : Token, t.kind = .word →
      ∃ ext, Takes (startsWith .word second >>= f) (t :: ext) T) (hmn : n ≤ m + 2) :
    Mends n (startsWith .word second >>= f) T := by
  refine .startsWith_bind (fun t u ts ht hu hts => ?_) hfalse hshort
  have hlength : ts.length < m := by
    simp only [List.length_cons] at hts
    omega
  refine .behind [t, u] ((hg t.content).mends ts hlength) (hg t.content).takes fun us => ?_
  rw [hstep]
  exact word_bind_of_eq ht _ _

/-- The same, if a name without the mark may stand there too. -/
theorem Mended.named_bind {second : Kind} {f : Bool → Rule β} {g : String → Rule β} (what : String)
    (hstep : f true = Rule.word what >>= fun name => next >>= fun _ => g name)
    (hg : ∀ name, Mended m (g name) ext' T) (hfalse : Mends n (f false) T)
    (htakes : ∀ t : Token, t.kind = .word → Takes (f false) (t :: ext) T)
    (hext : ∀ tail, T tail → headKind (ext ++ tail) ≠ some second) (hmn : n ≤ m + 2) :
    Mended n (startsWith .word second >>= f) (Kind.word.token :: ext) T := by
  have hshort : ∀ t : Token, t.kind = .word →
      Takes (startsWith .word second >>= f) (t :: ext) T :=
    fun t ht => (htakes t ht).startsWith_bind hext
  exact ⟨hshort _ rfl, .named_bind what hstep hg hfalse (fun t ht => ⟨ext, hshort t ht⟩) hmn⟩

section Chain

variable {ω : Type} {op : Kind → Option ω} {f : Option Kind → Rule β} {q : Rule β} {g : ω → Rule β}

theorem Takes.operator_bind (hop : Operators op) (hnone : ∀ k, k.bind op = none → f k = q)
    (hq : Takes q [] LineTail) : Takes (peekKind 0 >>= f) [] LineTail := by
  intro tail htail
  have hkind : f (headKind tail) = q := hnone _ (hop.closing _ htail.closing)
  obtain ⟨b, hb⟩ := hq tail htail
  refine ⟨b, ?_⟩
  rw [List.nil_append] at hb ⊢
  show f (headKind tail) tail = .ok (b, tail)
  rw [hkind, hb]

theorem Takes.operations {operand : Rule α} (hop : Operators op) (hadvances : Advances operand) :
    Takes (operations op operand) [] LineTail := by
  have heq : Rule.operations op operand = _ := operations_eq hadvances
  rw [heq]
  refine .operator_bind hop (fun k hk => ?_) (.pure [])
  rw [hk]

theorem Takes.chain {join : ω → α → α → α} {operand : Rule α} (hop : Operators op)
    (hadvances : Advances operand) (hoperand : Takes operand ext LineTail) :
    Takes (chain op join operand) ext LineTail := by
  rw [← List.append_nil ext]
  exact hoperand.bind (fun first => (Takes.operations hop hadvances).map _) fun _ h => h

/-- A rule that goes on behind an operator, if there is one. -/
theorem Mends.operator_bind (op : Kind → Option ω) (hnone : ∀ k, k.bind op = none → f k = q)
    (hsome : ∀ k o, op k = some o → f (some k) = next >>= fun _ => g o)
    (hq : Mends n q T) (hg : ∀ o, Mended m (g o) ext T) (hmn : n ≤ m + 1) :
    Mends n (peekKind 0 >>= f) T := by
  intro ts hts
  cases hhead : (headKind ts).bind op with
  | none =>
    refine .of_headKind (hq ts hts) fun us hus => ?_
    show f (headKind us) us = q us
    rw [hus, hnone _ hhead]
  | some o =>
    obtain ⟨kind, hkind, ho⟩ := Option.bind_eq_some_iff.1 hhead
    obtain ⟨t, ts, rfl, rfl⟩ := exists_cons_of_headKind hkind
    have hlength : ts.length < m := by
      rw [List.length_cons] at hts
      omega
    refine .behind [t] ((hg o).mends ts hlength) (hg o).takes fun us => ?_
    exact congrFun (hsome t.kind o ho) (t :: us)

end Chain

section Lines

variable {q : Rule β}

/-- A rule behind empty lines, if there are any. -/
theorem Mended.skipNewlines_bind (hq : Mended n q ext T)
    (hext : ∀ tail, T tail → headKind (ext ++ tail) ≠ some .newline) :
    Mended n (skipNewlines >>= fun _ => q) ext T := by
  have htakes : ∀ breaks ts : List Token, (∀ t ∈ breaks, t.kind = .newline) → Takes q ts T →
      (∀ tail, T tail → headKind (ts ++ tail) ≠ some .newline) →
      Takes (skipNewlines >>= fun _ => q) (breaks ++ ts) T := by
    intro breaks ts hbreaks hts hhead tail htail
    have hskip : skipNewlines (breaks ++ ts ++ tail) = .ok ((), ts ++ tail) :=
      skipNewlines_eq_ok.2 ⟨hhead tail htail, breaks, List.append_assoc _ _ _, hbreaks⟩
    obtain ⟨b, hb⟩ := hts tail htail
    exact ⟨b, by rw [bind_of_ok hskip, hb]⟩
  refine ⟨htakes [] ext (by simp) hq.takes hext, fun ts hts r hr => ?_⟩
  obtain ⟨mid, hskip⟩ : ∃ mid, skipNewlines ts = .ok ((), mid) := ⟨_, rfl⟩
  rw [bind_of_ok hskip] at hr
  obtain ⟨hhead, breaks, rfl, hbreaks⟩ := skipNewlines_eq_ok.1 hskip
  rw [List.length_append] at hts
  obtain ⟨used, more, rfl, hfair, hmore, hnil⟩ := hq.exists_takes (by omega) hr
  refine ⟨breaks ++ used, (List.append_assoc _ _ _).symm, hfair, fun _ => ⟨more, ?_⟩⟩
  rw [List.append_assoc]
  refine htakes breaks _ hbreaks hmore fun tail htail => ?_
  by_cases hused : used = []
  · subst hused
    rw [hnil rfl]
    exact hext tail htail
  · rwa [List.append_assoc, headKind_append_of_ne_nil hused _ r.rest]

theorem lineEnd_bind_of_newline {ts : List Token} (h : headKind ts = some .newline)
    (f : Unit → Rule β) : (lineEnd >>= f) ts = (skipNewlines >>= f) ts := by
  obtain ⟨t, ts, rfl, ht⟩ := exists_cons_of_headKind h
  rw [bind_apply, bind_apply]
  simp [lineEnd, ht]

theorem lineEnd_eq_error {ts : List Token} (hnewline : headKind ts ≠ some .newline)
    (hnone : headKind ts ≠ none) (hdedent : headKind ts ≠ some .dedent) :
    lineEnd ts = .error ⟨.expected "end of line", ts⟩ := by
  cases ts with
  | nil => exact absurd rfl hnone
  | cons t ts =>
    unfold lineEnd
    simp only
    split
    · rename_i ht
      exact absurd (congrArg some ht) hnewline
    · rename_i ht
      exact absurd (congrArg some ht) hdedent
    · rfl

/-- A rule behind the end of a line. -/
theorem Mended.lineEnd_bind (hq : Mended n q ext T)
    (hext : ∀ tail, T tail → headKind (ext ++ tail) ≠ some .newline) :
    Mended n (lineEnd >>= fun _ => q) (Kind.newline.token :: ext) T := by
  have hskip := hq.skipNewlines_bind hext
  refine ⟨?_, fun ts hts => ?_⟩
  · intro tail htail
    have hend : lineEnd (Kind.newline.token :: ext ++ tail) = .ok ((), ext ++ tail) := by
      refine lineEnd_eq_ok.2 (.inl ⟨rfl, skipNewlines_eq_ok.2 ⟨hext tail htail, ?_⟩⟩)
      exact ⟨[Kind.newline.token], rfl, by simp⟩
    obtain ⟨b, hb⟩ := hq.takes tail htail
    exact ⟨b, by rw [bind_of_ok hend, hb]⟩
  · by_cases hnewline : headKind ts = some .newline
    · refine .of_headKind (hskip.mends ts hts) fun us hus => ?_
      exact lineEnd_bind_of_newline (hus.trans hnewline) _
    · by_cases hend : headKind ts = none ∨ headKind ts = some .dedent
      · refine .of_headKind (hq.mends ts hts) fun us hus => ?_
        exact bind_of_ok (lineEnd_eq_ok.2 (.inr ⟨rfl, hus ▸ hend⟩)) _
      · refine .of_refuse _ (bind_of_error (lineEnd_eq_error hnewline ?_ ?_) _)
        · exact fun hnone => hend (.inl hnone)
        · exact fun hdedent => hend (.inr hdedent)

/-- A rule behind the end of a line, if there is nothing more to read. -/
theorem Mended.lineEnd_map (a : β) :
    Mended n (lineEnd >>= fun _ => Pure.pure a) [] NoTail := by
  have hend : Mended n (lineEnd >>= fun _ => Pure.pure a) [Kind.newline.token] NoTail := by
    refine Mended.lineEnd_bind (.pure a) fun tail htail => ?_
    rw [NoTail] at htail
    simp [htail]
  refine ⟨?_, hend.mends⟩
  intro tail htail
  rw [NoTail] at htail
  subst htail
  exact ⟨a, rfl⟩

/-- A rule that asks whether a block ends, at the end of the input. -/
theorem Mended.blockEnd_bind {f : Bool → Rule β} (htrue : Mended n (f true) [] NoTail)
    (hfalse : Mends n (f false) NoTail) : Mended n (blockEnd >>= f) [] NoTail := by
  obtain ⟨b, hb⟩ := htrue.takes [] rfl
  refine ⟨?_, fun ts hts => ?_⟩
  · rintro tail rfl
    exact ⟨b, hb⟩
  · cases ts with
    | nil => exact .of_ok hb
    | cons t ts =>
      by_cases ht : t.kind = .dedent
      · have hbehind := htrue.mends ts (Nat.lt_of_succ_lt hts)
        exact .behind [t] hbehind htrue.takes (blockEnd_bind_of_eq ht f)
      · refine .of_headKind (hfalse _ hts) fun us hus => ?_
        obtain ⟨u, us, rfl, hu⟩ := exists_cons_of_headKind hus
        exact blockEnd_bind_of_ne (hu ▸ ht) f us

end Lines

/-- A recursive rule that can be completed on lists of a length if it can on all shorter ones. -/
theorem Mended.of_rounds (htakes : Takes p ext T)
    (hstep : ∀ k < n, Mended k p ext T → Mends (k + 1) p T) : Mended n p ext T := by
  induction n with
  | zero => exact ⟨htakes, fun ts hts => absurd hts (Nat.not_lt_zero _)⟩
  | succ n ih =>
    have hprevious := ih fun k hk => hstep k (Nat.lt_succ_of_lt hk)
    exact ⟨htakes, hstep n (Nat.lt_succ_self n) hprevious⟩

namespace Mended

variable {item : Rule α}

theorem commaSeparated (hitem : Mended n item ext LineTail) (hline : ∀ L, Enters L item) :
    Mended n (commaSeparated item) ext LineTail := by
  have heq := commaSeparated_eq (hline (exchange [] [] (.inl rfl)) true 0).leaves
  have htail : ∀ tail, LineTail tail → headKind ([] ++ tail) ≠ some .comma :=
    fun tail htail => htail.ne (by decide)
  refine .of_rounds ?_ fun k hk hagain => ?_
  · rw [heq, ← List.append_nil ext]
    exact hitem.takes.bind (fun first => .accept_none (.pure [first]) htail) fun _ h => h
  · rw [heq]
    refine .of_mended (ext ++ []) ?_
    refine (hitem.mono hk).bind (fun L => hline L true 0) (fun first => ?_) fun _ h => h
    refine ⟨.accept_none (.pure [first]) htail, ?_⟩
    exact .accept_bind (fun _ => hagain.map _) (pure [first]).mends (Nat.le_refl _)

/-- A list in parentheses. -/
theorem parenthesized (hitem : Mended n item ext LineTail) (hline : ∀ L, Enters L item) :
    Mended (n + 1) (do
      let _ ← Rule.expect .lparen "'('"
      match ← accept .rparen with
      | some _ => return []
      | none => do
        let items ← Rule.commaSeparated item
        let _ ← Rule.expect .rparen "')'"
        return items) [Kind.lparen.token, Kind.rparen.token] T := by
  refine expect_bind (fun _ => ⟨.accept_some fun _ => .pure [], ?_⟩) (Nat.le_refl _)
  refine .accept_bind (fun _ => pure []) (.of_mended (ext ++ [Kind.rparen.token]) ?_)
    (Nat.le_succ n)
  refine (hitem.commaSeparated hline).bind (fun L => Carries.commaSeparated (hline L) true 0)
    (fun items => ?_) fun tail _ => lineTail_rparen tail
  exact expect_bind (fun _ => pure items) (Nat.le_succ n)

/-- A list behind a mark, if there is one. -/
theorem markedList {kind : Kind} (hitem : Mended n item ext LineTail)
    (hline : ∀ L, Enters L item) (hkind : kind ≠ .newline ∧ kind ≠ .rparen) :
    Mended n (do
      match ← accept kind with
      | some _ => Rule.commaSeparated item
      | none => return []) [] LineTail := by
  refine ⟨.accept_none (.pure []) fun tail htail => htail.ne hkind, ?_⟩
  exact .accept_bind (fun _ => hitem.commaSeparated hline) (pure []).mends (Nat.le_succ n)

theorem lines (hitem : Mended n item ext NoTail) (hadvances : Advances item)
    (hlines : ∀ L : Layers, Carries L.toLikeness (false, 0) item (false, 0)) :
    Mended n (lines item) [] NoTail := by
  have htakes : Takes (Rule.lines item) [] NoTail := by
    rintro tail rfl
    exact ⟨[], rfl⟩
  refine .of_rounds htakes fun k hk hagain => ?_
  rw [lines_eq hadvances]
  refine .of_mended [] (skipNewlines_bind (blockEnd_bind (.pure []) ?_) ?_)
  · refine .of_mended ext ?_
    exact (hitem.mono hk).bind_lines hadvances hlines (fun first => hagain.map _) (Nat.le_refl _)
  · rintro tail rfl
    simp

/-- An indented block, if there is one. -/
theorem optionalLines (hitem : Mended n item ext NoTail) (hadvances : Advances item)
    (hlines : ∀ L : Layers, Carries L.toLikeness (false, 0) item (false, 0)) :
    Mended n (do
      match ← accept .indent with
      | some _ => Rule.lines item
      | none => return []) [] NoTail := by
  refine ⟨.accept_none (.pure []) fun tail htail => ?_, ?_⟩
  · rw [NoTail] at htail
    simp [htail]
  · exact .accept_bind (fun _ => hitem.lines hadvances hlines) (pure []).mends (Nat.le_succ n)

section Chain

variable {ω : Type} {op : Kind → Option ω} {operand : Rule α}

theorem operations (hop : Operators op) (hoperand : Mended n operand ext LineTail)
    (hadvances : Advances operand) (hline : ∀ L, Enters L operand) :
    Mended n (operations op operand) [] LineTail := by
  have heq : Rule.operations op operand = _ := operations_eq hadvances
  refine .of_rounds (.operations hop hadvances) fun k hk hagain => ?_
  have hbehind : ∀ o : ω, Mended k (do
      return (o, ← operand) :: (← Rule.operations op operand)) (ext ++ []) LineTail := fun o =>
    (hoperand.mono (Nat.le_of_lt hk)).bind (fun L => hline L true 0)
      (fun first => hagain.map ((o, first) :: ·)) fun _ h => h
  rw [heq]
  refine .operator_bind op (fun k hk => ?_) (fun k o ho => ?_) (pure []).mends hbehind
    (Nat.le_refl _)
  · rw [hk]
  · rw [Option.bind_some, ho]

theorem chain {join : ω → α → α → α} (hop : Operators op) (hoperand : Mended n operand ext LineTail)
    (hadvances : Advances operand) (hline : ∀ L, Enters L operand) :
    Mended n (chain op join operand) ext LineTail := by
  rw [← List.append_nil ext]
  exact hoperand.bind (fun L => hline L true 0)
    (fun first => (hoperand.operations hop hadvances hline).map _) fun _ h => h

end Chain

end Mended

end Rule

end Offside
