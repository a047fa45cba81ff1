import Offside.Proofs.Grammar.Likeness
import Offside.Proofs.Token.Concatenation

/-!
The program of one source behind another. Three likenesses lead there: lists that say the same, a
list that closes as many blocks as are open, and a list of which the closing dedents move behind the
empty lines in front of another one. The first source is read as before, down to its last dedent,
and what the second one declares follows.
-/
namespace Offside.Rule

section Faces

variable {ts us rest : List Token}

theorem headKind_of_faces (h : us.map Token.face = ts.map Token.face) :
    headKind us = headKind ts := by
  have hkinds := congrArg (fun faces => (faces[0]?.map Prod.fst : Option Kind)) h
  simpa [headKind, Function.comp_def, Token.face] using hkinds

theorem skipNewlines_of_faces (h : us.map Token.face = ts.map Token.face)
    (hskip : skipNewlines ts = .ok ((), rest)) :
    ∃ rest', skipNewlines us = .ok ((), rest') ∧ rest'.map Token.face = rest.map Token.face := by
  obtain ⟨hhead, breaks, rfl, hbreaks⟩ := skipNewlines_eq_ok.1 hskip
  rw [List.map_append] at h
  obtain ⟨breaks', rest', rfl, hbreaks', hrest'⟩ := List.map_eq_append_iff.1 h
  refine ⟨rest', skipNewlines_eq_ok.2 ⟨?_, breaks', rfl, ?_⟩, hrest'⟩
  · rwa [headKind_of_faces hrest']
  · intro t ht
    obtain ⟨t', ht', hface⟩ := List.mem_map.1 (hbreaks' ▸ List.mem_map_of_mem ht)
    rw [← hbreaks t' ht']
    exact (Token.kind_eq_of_face hface).symm

end Faces

/-- Lists that say the same, at any places. -/
def sameFaces : Layers where
  like _ ts us := us.map Token.face = ts.map Token.face
  spared _ := True
  spared_of_suffix _ _ := trivial
  head h := .inl (headKind_of_faces h)
  same h _ := by
    obtain ⟨t', us', rfl, hface, -⟩ := List.map_eq_cons_iff.1 h
    exact ⟨t', us', rfl, hface⟩
  word h _ _ := (List.cons.inj h).2
  indent h _ _ := (List.cons.inj h).2
  dedent h _ _ := (List.cons.inj h).2
  newlines h hskip _ := skipNewlines_of_faces h hskip
  lineEnd h hend _ := by
    have hhead := headKind_of_faces h
    rcases lineEnd_eq_ok.1 hend with ⟨hnewline, hskip⟩ | ⟨rfl, hclosed⟩
    · obtain ⟨rest', hskip', hrest'⟩ := skipNewlines_of_faces h hskip
      exact ⟨rest', lineEnd_eq_ok.2 (.inl ⟨hhead.trans hnewline, hskip'⟩), hrest'⟩
    · exact ⟨_, lineEnd_eq_ok.2 (.inr ⟨rfl, hhead ▸ hclosed⟩), h⟩
  blockEnd h _ := by
    obtain rfl := List.map_eq_nil_iff.1 h
    exact ⟨[], rfl, rfl⟩

/-- The list closes the blocks that are open, and those that it opens. -/
def Balanced (depth : Nat) (ts : List Token) : Prop :=
  depth + ts.countP Token.isIndent = ts.countP Token.isDedent

namespace Balanced

variable {depth : Nat} {t : Token} {ts rest breaks : List Token}

theorem other (h : Balanced depth (t :: ts)) (hi : t.kind ≠ .indent) (hd : t.kind ≠ .dedent) :
    Balanced depth ts := by
  simpa [Balanced, Token.isIndent, Token.isDedent, hi, hd] using h

theorem word (h : Balanced depth (t :: ts)) (ht : t.kind ∉ layoutKinds) : Balanced depth ts := by
  simp only [layoutKinds, List.mem_cons, List.not_mem_nil, or_false, not_or] at ht
  exact h.other ht.2.1 ht.2.2

theorem indent (h : Balanced depth (t :: ts)) (ht : t.kind = .indent) :
    Balanced (depth + 1) ts := by
  simp [Balanced, Token.isIndent, Token.isDedent, ht] at h ⊢
  omega

theorem dedent (h : Balanced (depth + 1) (t :: ts)) (ht : t.kind = .dedent) :
    Balanced depth ts := by
  simp [Balanced, Token.isIndent, Token.isDedent, ht] at h ⊢
  omega

theorem of_append (h : Balanced depth (breaks ++ rest))
    (hbreaks : ∀ t ∈ breaks, t.kind = .newline) :
    Balanced depth rest := by
  induction breaks with
  | nil => exact h
  | cons t breaks ih =>
    have ht := hbreaks t List.mem_cons_self
    have hrest : Balanced depth (breaks ++ rest) :=
      Balanced.other h (by simp [ht]) (by simp [ht])
    exact ih hrest fun u hu => hbreaks u (List.mem_cons_of_mem t hu)

theorem skipNewlines (h : Balanced depth ts) (hskip : skipNewlines ts = .ok ((), rest)) :
    Balanced depth rest := by
  obtain ⟨-, breaks, rfl, hbreaks⟩ := skipNewlines_eq_ok.1 hskip
  exact h.of_append hbreaks

theorem lineEnd (h : Balanced depth ts) (hend : lineEnd ts = .ok ((), rest)) :
    Balanced depth rest := by
  rcases lineEnd_eq_ok.1 hend with ⟨-, hskip⟩ | ⟨rfl, -⟩
  · exact h.skipNewlines hskip
  · exact h

/-- A list that closes what it opens does not consist of closing dedents. -/
theorem eq_nil (h : Balanced 0 ts) (hhead : headKind ts ≠ some .newline)
    (hts : ∀ t ∈ ts, t.kind = .dedent ∨ t.kind = .newline) : ts = [] := by
  cases ts with
  | nil => rfl
  | cons t ts =>
    have hindents : (t :: ts).countP Token.isIndent = 0 := by
      rw [List.countP_eq_zero]
      intro u hu
      rcases hts u hu with hkind | hkind <;> simp [Token.isIndent, hkind]
    have ht : t.kind = .dedent := by
      refine (hts t List.mem_cons_self).resolve_right fun hnewline => ?_
      exact hhead (congrArg some hnewline)
    have hdedent : Token.isDedent t = true := by simp [Token.isDedent, ht]
    have hpos : 0 < (t :: ts).countP Token.isDedent :=
      List.countP_pos_iff.2 ⟨t, List.mem_cons_self, hdedent⟩
    unfold Balanced at h
    omega

end Balanced

/-- A list beside itself, which closes the blocks that are open. -/
def balanced : Layers where
  like s ts us := us = ts ∧ Balanced s.2 ts
  spared _ := True
  spared_of_suffix _ _ := trivial
  head h := .inl (congrArg headKind h.1)
  same h _ := ⟨_, _, h.1, rfl⟩
  word h _ ht := ⟨(List.cons.inj h.1).2, h.2.word ht⟩
  indent h _ ht := ⟨(List.cons.inj h.1).2, h.2.indent ht⟩
  dedent h _ ht := ⟨(List.cons.inj h.1).2, h.2.dedent ht⟩
  newlines h hskip _ := ⟨_, h.1.symm ▸ hskip, rfl, h.2.skipNewlines hskip⟩
  lineEnd h hend _ := ⟨_, h.1.symm ▸ hend, rfl, h.2.lineEnd hend⟩
  blockEnd h _ := by
    have hzero := h.2
    simp [Balanced] at hzero

/-- The last token ends a line. -/
def EndsLine (ts : List Token) : Prop := ts.getLast?.map Token.kind = some .newline

namespace EndsLine

variable {t : Token} {ts us : List Token}

theorem ne_nil (h : EndsLine ts) : ts ≠ [] := by
  rintro rfl
  cases h

theorem of_append (h : EndsLine (ts ++ us)) : us = [] ∨ EndsLine us := by
  by_cases hus : us = []
  · exact .inl hus
  · unfold EndsLine at h
    rw [List.getLast?_append_of_ne_nil _ hus] at h
    exact .inr h

/-- A line goes on after a token that does not end it. -/
theorem tail (h : EndsLine (t :: ts)) (ht : t.kind ≠ .newline) : EndsLine ts := by
  have hsplit : EndsLine ([t] ++ ts) := h
  refine hsplit.of_append.resolve_left ?_
  rintro rfl
  exact ht (Option.some.inj h)

end EndsLine

/-- The second list is the first one with `more` behind it, and with `breaks` before the dedents at
the end of the first. In a line, these dedents are further on. -/
inductive Joins (breaks more : List Token) : Bool → List Token → List Token → Prop
  | before {ts closing : List Token} (inside : Bool) (hts : EndsLine ts)
      (hclosing : ∀ t ∈ closing, t.kind = .dedent) :
      Joins breaks more inside (ts ++ closing) (ts ++ (breaks ++ (closing ++ more)))
  | closing {closing : List Token} (hclosing : ∀ t ∈ closing, t.kind = .dedent) :
      Joins breaks more false closing (closing ++ more)

namespace Joins

variable {breaks more ts us rest : List Token} {t t' : Token} {inside : Bool}

theorem same (h : Joins breaks more inside (t :: ts) us) : ∃ us', us = t :: us' := by
  generalize heq : t :: ts = whole at h
  cases h with
  | @before x closing _ hx _ =>
    cases x with
    | nil => exact absurd rfl hx.ne_nil
    | cons u x =>
      cases heq
      exact ⟨_, rfl⟩
  | closing _ =>
    subst heq
    exact ⟨_, rfl⟩

theorem eq_of_nil (h : Joins breaks more inside [] us) : us = more := by
  generalize heq : [] = whole at h
  cases h with
  | before _ hx _ => exact absurd (List.append_eq_nil_iff.1 heq.symm).1 hx.ne_nil
  | closing _ =>
    subst heq
    rfl

theorem outside (h : Joins breaks more true ts us) :
    Joins breaks more false ts us ∧ ts ≠ [] := by
  cases h with
  | before _ hx hclosing =>
    exact ⟨.before false hx hclosing, List.append_ne_nil_of_left_ne_nil hx.ne_nil _⟩

/-- Behind a token that is neither a dedent nor the end of a line. -/
theorem tail (h : Joins breaks more inside (t :: ts) (t' :: us)) (hdedent : t.kind ≠ .dedent)
    (hnewline : t.kind ≠ .newline) (inside' : Bool) : Joins breaks more inside' ts us := by
  generalize heq : t :: ts = whole, hus : t' :: us = whole' at h
  cases h with
  | @before x closing _ hx hclosing =>
    cases x with
    | nil => exact absurd rfl hx.ne_nil
    | cons u x =>
      cases heq
      cases hus
      exact .before inside' (hx.tail hnewline) hclosing
  | closing hclosing =>
    subst heq
    exact absurd (hclosing t List.mem_cons_self) hdedent

theorem tail_dedent (h : Joins breaks more false (t :: ts) (t' :: us))
    (hdedent : t.kind = .dedent) :
    Joins breaks more false ts us := by
  generalize heq : t :: ts = whole, hus : t' :: us = whole' at h
  cases h with
  | @before x closing _ hx hclosing =>
    cases x with
    | nil => exact absurd rfl hx.ne_nil
    | cons u x =>
      cases heq
      cases hus
      exact .before false (hx.tail (by simp [hdedent])) hclosing
  | closing hclosing =>
    subst heq
    cases hus
    exact .closing fun u hu => hclosing u (List.mem_cons_of_mem t hu)

theorem headKind_append {ts : List Token} (h : ts ≠ []) (us : List Token) :
    headKind (ts ++ us) = headKind ts := by
  cases ts with
  | nil => exact absurd rfl h
  | cons t ts => rfl

theorem headKind_closing_ne {closing : List Token} (hclosing : ∀ t ∈ closing, t.kind = .dedent)
    (hmore : headKind more ≠ some .newline) : headKind (closing ++ more) ≠ some .newline := by
  cases closing with
  | nil => exact hmore
  | cons t closing => simp [hclosing t List.mem_cons_self]

/-- Newlines at the head of a list come before the dedents at its end. -/
theorem exists_of_newlines {lines closing : List Token} (heq : ts ++ closing = lines ++ rest)
    (hlines : ∀ t ∈ lines, t.kind = .newline) (hclosing : ∀ t ∈ closing, t.kind = .dedent) :
    ∃ later, ts = lines ++ later ∧ rest = later ++ closing := by
  rcases List.append_eq_append_iff.1 heq with ⟨mid, rfl, hmid⟩ | ⟨later, rfl, rfl⟩
  · have hnil : mid = [] := by
      refine List.eq_nil_iff_forall_not_mem.2 fun t ht => ?_
      have hnewline := hlines t (List.mem_append_right ts ht)
      have hdedent := hclosing t (hmid ▸ List.mem_append_left rest ht)
      cases hnewline.symm.trans hdedent
    subst hnil
    exact ⟨[], (List.append_nil _).symm ▸ (List.append_nil _).symm, hmid.symm⟩
  · exact ⟨later, rfl, rfl⟩

theorem skipNewlines (h : Joins breaks more inside ts us)
    (hbreaks : ∀ t ∈ breaks, t.kind = .newline) (hmore : headKind more ≠ some .newline)
    (hskip : skipNewlines ts = .ok ((), rest)) :
    ∃ rest', Rule.skipNewlines us = .ok ((), rest') ∧ Joins breaks more false rest rest' := by
  obtain ⟨hhead, lines, hlines, hkinds⟩ := skipNewlines_eq_ok.1 hskip
  cases h with
  | @before x closing _ hx hclosing =>
    obtain ⟨later, rfl, rfl⟩ := exists_of_newlines hlines hkinds hclosing
    rcases hx.of_append with rfl | hlater
    · refine ⟨closing ++ more, skipNewlines_eq_ok.2 ⟨?_, lines ++ breaks, by simp, ?_⟩,
        .closing hclosing⟩
      · exact headKind_closing_ne hclosing hmore
      · intro t ht
        exact (List.mem_append.1 ht).elim (hkinds t) (hbreaks t)
    · refine ⟨_, skipNewlines_eq_ok.2 ⟨?_, lines, List.append_assoc _ _ _, hkinds⟩,
        .before false hlater hclosing⟩
      rw [headKind_append hlater.ne_nil] at hhead ⊢
      exact hhead
  | closing hclosing =>
    rw [← List.nil_append ts] at hlines
    obtain ⟨later, hnil, rfl⟩ := exists_of_newlines hlines hkinds hclosing
    obtain ⟨rfl, rfl⟩ := List.append_eq_nil_iff.1 hnil.symm
    exact ⟨_, skipNewlines_eq_ok.2 ⟨headKind_closing_ne hclosing hmore, [], rfl, by simp⟩,
      .closing hclosing⟩

theorem lineEnd (h : Joins breaks more true ts us)
    (hbreaks : ∀ t ∈ breaks, t.kind = .newline) (hmore : headKind more ≠ some .newline)
    (hend : lineEnd ts = .ok ((), rest)) :
    ∃ rest', Rule.lineEnd us = .ok ((), rest') ∧ Joins breaks more false rest rest' := by
  obtain ⟨houtside, hne⟩ := h.outside
  obtain ⟨t, ts, rfl⟩ := List.exists_cons_of_ne_nil hne
  obtain ⟨us, rfl⟩ := h.same
  rcases lineEnd_eq_ok.1 hend with ⟨hnewline, hskip⟩ | ⟨rfl, hclosed⟩
  · obtain ⟨rest', hskip', hrest'⟩ := houtside.skipNewlines hbreaks hmore hskip
    exact ⟨rest', lineEnd_eq_ok.2 (.inl ⟨hnewline, hskip'⟩), hrest'⟩
  · exact ⟨_, lineEnd_eq_ok.2 (.inr ⟨rfl, hclosed⟩), houtside⟩

end Joins

/-- The first list, which closes the blocks that are open, and the second one as it is joined. -/
def joined (breaks more : List Token) (hbreaks : ∀ t ∈ breaks, t.kind = .newline)
    (hmore : headKind more ∈ [none, some Kind.keyClass, some .keyInterface]) : Layers where
  like s ts us := Balanced s.2 ts ∧ Joins breaks more s.1 ts us
  spared _ := True
  spared_of_suffix _ _ := trivial
  head {s ts us} h := by
    cases ts with
    | nil =>
      obtain rfl := h.2.eq_of_nil
      refine .inr ?_
      revert hmore
      generalize headKind us = kind
      revert kind
      decide
    | cons t ts =>
      obtain ⟨us', rfl⟩ := h.2.same
      exact .inl rfl
  same h _ := by
    obtain ⟨us', rfl⟩ := h.2.same
    exact ⟨_, us', rfl, rfl⟩
  word h _ ht := by
    simp only [layoutKinds, List.mem_cons, List.not_mem_nil, or_false, not_or] at ht
    exact ⟨h.1.other ht.2.1 ht.2.2, h.2.tail ht.2.2 ht.1 true⟩
  indent h _ ht := ⟨h.1.indent ht, h.2.tail (by simp [ht]) (by simp [ht]) false⟩
  dedent h _ ht := ⟨h.1.dedent ht, h.2.tail_dedent ht⟩
  newlines h hskip _ := by
    obtain ⟨rest', hskip', hjoins⟩ :=
      h.2.skipNewlines hbreaks (ne_of_mem_of_not_mem hmore (by decide)) hskip
    exact ⟨rest', hskip', h.1.skipNewlines hskip, hjoins⟩
  lineEnd h hend _ := by
    obtain ⟨rest', hend', hjoins⟩ :=
      h.2.lineEnd hbreaks (ne_of_mem_of_not_mem hmore (by decide)) hend
    exact ⟨rest', hend', h.1.lineEnd hend, hjoins⟩
  blockEnd h _ := by
    have hzero := h.1
    simp [Balanced] at hzero

end Offside.Rule

namespace Offside.Grammar

open Rule

variable {ts us : List Token} {ds es : List TopLevel}

theorem program_of_topLevel (h : topLevel ts = .ok (ds, [])) :
    program ts = .ok (⟨TopLevel.classes ds, TopLevel.interfaces ds⟩, []) := by
  unfold program
  rw [bind_of_ok h]
  rfl

/-- The declarations of a program that closes all its blocks leave nothing, not even a dedent. -/
theorem topLevel_of_program {p : Program} {rest : List Token} (h : program ts = .ok (p, rest))
    (hts : Balanced 0 ts) :
    ∃ ds, topLevel ts = .ok (ds, []) ∧ p = ⟨TopLevel.classes ds, TopLevel.interfaces ds⟩ := by
  unfold program at h
  obtain ⟨ds, left, htop, h⟩ := bind_eq_ok.1 h
  obtain ⟨_, mid, hskip, h⟩ := bind_eq_ok.1 h
  obtain ⟨ended, mid', hended, h⟩ := bind_eq_ok.1 h
  cases hskip
  cases hended
  have hlike : balanced.like (false, 0) ts ts := ⟨rfl, hts⟩
  obtain ⟨left', ⟨rfl, hleft⟩, hhead, -⟩ := topLevel_carry hlike htop trivial
  split at h
  · rename_i hempty
    cases h
    have hkinds := List.dropWhile_eq_nil_iff.1 (List.isEmpty_iff.1 hempty)
    have hnil : left' = [] := hleft.eq_nil hhead fun t ht => by simpa using hkinds t ht
    subst hnil
    exact ⟨ds, htop, rfl⟩
  · cases h

/-- Lists that say the same declare the same. -/
theorem topLevel_of_faces (h : us.map Token.face = ts.map Token.face)
    (htop : topLevel ts = .ok (ds, [])) : topLevel us = .ok (ds, []) := by
  have hlike : sameFaces.like (false, 0) ts us := h
  obtain ⟨left, hleft, -, hmore⟩ := topLevel_carry hlike htop trivial
  obtain rfl := List.map_eq_nil_iff.1 hleft
  simpa using hmore [] [] rfl

theorem headKind_of_topLevel (h : topLevel ts = .ok (ds, []))
    (hhead : headKind ts ≠ some .newline) :
    headKind ts ∈ [none, some Kind.keyClass, some .keyInterface] := by
  rcases topLevel_cases h hhead with ⟨-, rfl, -, -⟩ | ⟨t, mid, after, d, more, rfl, ht, -⟩
  · simp
  · rcases ht with ht | ht <;> simp [ht]

/-- Declarations behind others, with the dedents that close the first ones next to the second. -/
theorem topLevel_append {lines closing breaks more : List Token}
    (hlines : EndsLine lines) (hclosing : ∀ t ∈ closing, t.kind = .dedent)
    (hbreaks : ∀ t ∈ breaks, t.kind = .newline) (hbalanced : Balanced 0 (lines ++ closing))
    (hfirst : topLevel (lines ++ closing) = .ok (ds, []))
    (hmore : topLevel more = .ok (es, [])) (hhead : headKind more ≠ some .newline) :
    topLevel (lines ++ (breaks ++ (closing ++ more))) = .ok (ds ++ es, []) := by
  let L := joined breaks more hbreaks (headKind_of_topLevel hmore hhead)
  have hlike : L.like (false, 0) (lines ++ closing) (lines ++ (breaks ++ (closing ++ more))) :=
    ⟨hbalanced, .before false hlines hclosing⟩
  obtain ⟨left, ⟨-, hleft⟩, -, hothers⟩ := topLevel_carry hlike hfirst trivial
  obtain rfl := hleft.eq_of_nil
  exact hothers es [] hmore

end Offside.Grammar

namespace Offside

open Rule Scan Sign

theorem map_face_of_signs {ts us : List Token} (h : us.map Token.sign = ts.map Token.sign) :
    us.map Token.face = ts.map Token.face := by
  have hface : Token.face = (fun x : Sign => (x.kind, x.text)) ∘ Token.sign := rfl
  rw [hface, ← List.map_map, ← List.map_map, h]

theorem kind_of_signs {ts : List Token} {n : Nat} {x : Sign}
    (h : ts.map Token.sign = List.replicate n x) : ∀ t ∈ ts, t.kind = x.kind := by
  intro t ht
  have hsign : t.sign = x := List.eq_of_mem_replicate (h ▸ List.mem_map_of_mem ht)
  exact congrArg Sign.kind hsign

theorem endsLine_of_signs {ts : List Token} {lines : List Sign}
    (h : ts.map Token.sign = lines ++ [newline]) : EndsLine ts := by
  have hlast := congrArg (fun signs => signs.getLast?.map Sign.kind) h
  simpa [EndsLine, Function.comp_def, Token.sign, newline] using hlast

theorem head?_of_signs {ts : List Token} {signs : List Sign} (h : ts.map Token.sign = signs) :
    signs.head?.map Sign.kind = headKind ts := by
  subst h
  cases ts <;> rfl

theorem balanced_of_tokenize {source : String} {ts : List Token} (h : tokenize source = .ok ts) :
    Balanced 0 ts := by
  obtain ⟨us, last, hreach, -, rfl⟩ := exists_reaches_of_tokenize h
  have hnests : Nests 0 (us ++ last.close) 0 := hreach.nests.append (nests_close last)
  simpa [Rule.Balanced] using hnests.total

/-- The declarations of a source that is read as a program. -/
theorem topLevel_of_ofTokens {source : String} {ts : List Token} {p : Program}
    (h : tokenize source = .ok ts) (hp : Program.ofTokens ts = .ok p) :
    ∃ ds, Grammar.topLevel ts = .ok (ds, []) ∧
      p = ⟨Grammar.TopLevel.classes ds, Grammar.TopLevel.interfaces ds⟩ := by
  unfold Program.ofTokens at hp
  split at hp
  · rename_i q rest hprogram
    cases hp
    exact Grammar.topLevel_of_program hprogram (balanced_of_tokenize h)
  · cases hp

/-- The signs of one source behind those of another. The empty lines at the head of the second one
come before the dedents at the end of the first, and no sign is lost. -/
def Spliced (first second whole : List Sign) : Prop :=
  ∃ lines closing breaks rest : List Sign,
    (∀ x ∈ closing, x = dedent) ∧ (∀ x ∈ breaks, x = newline) ∧
    first = lines ++ closing ∧ second = breaks ++ rest ∧
    whole = lines ++ (breaks ++ (closing ++ rest))

/-- The tokens of two sources, of which the second one starts with a declaration, if with
anything. -/
theorem topLevel_of_tokenize_append {a b : String} {ts us : List Token}
    {ds es : List Grammar.TopLevel} (ha : tokenize a = .ok ts) (hb : tokenize b = .ok us)
    (hts : Grammar.topLevel ts = .ok (ds, [])) (hus : Grammar.topLevel us = .ok (es, []))
    (hend : a.toList.getLast? = some '\n') (hreturns : ReturnsFeed b.toList) :
    ∃ vs, tokenize (a ++ b) = .ok vs ∧ Grammar.topLevel vs = .ok (ds ++ es, []) ∧
      Spliced (ts.map Token.sign) (us.map Token.sign) (vs.map Token.sign) := by
  have hbalanced := balanced_of_tokenize ha
  obtain ⟨lines, depth, k, rest, hfirst, hsecond, hnewline, hwhole⟩ :=
    tokenize_append ha hb hend hreturns
  obtain ⟨front, closing, rfl, hfront, hclosing⟩ := List.map_eq_append_iff.1 hfirst
  obtain ⟨breaks, more, rfl, hbreaks, hmore⟩ := List.map_eq_append_iff.1 hsecond
  have hkinds := head?_of_signs hmore
  have hhead : headKind more ≠ some .newline := by
    intro hkind
    obtain ⟨t, more, rfl, ht⟩ := exists_cons_of_headKind hkind
    have hmem : t.sign ∈ (breaks ++ t :: more).map Token.sign := by simp
    have hsign := ((arranged_of_tokenize hb).fits _ hmem).eq_newline ht
    rw [← hmore, List.map_cons, List.head?_cons, hsign] at hnewline
    exact hnewline rfl
  have hskip : skipNewlines (breaks ++ more) = .ok ((), more) :=
    skipNewlines_eq_ok.2 ⟨hhead, breaks, rfl, kind_of_signs hbreaks⟩
  rw [Grammar.topLevel_skipNewlines hskip] at hus
  have hstart := Grammar.headKind_of_topLevel hus hhead
  have hindent : rest.head? ≠ some indent := by
    intro hrest
    rw [hrest] at hkinds
    rw [← hkinds] at hstart
    exact absurd hstart (by decide)
  obtain ⟨vs, hvs, hsigns⟩ := hwhole.resolve_left hindent
  refine ⟨vs, hvs, ?_, lines ++ [newline], List.replicate depth dedent,
    List.replicate k newline, rest, fun x hx => List.eq_of_mem_replicate hx,
    fun x hx => List.eq_of_mem_replicate hx, hfirst, hsecond, hsigns⟩
  have hjoined := Grammar.topLevel_append (endsLine_of_signs hfront) (kind_of_signs hclosing)
    (kind_of_signs hbreaks) hbalanced hts hus hhead
  refine Grammar.topLevel_of_faces (map_face_of_signs ?_) hjoined
  simp only [hsigns, List.map_append, hfront, hclosing, hbreaks, hmore]

/-- A source behind another one that is empty or ends with a line feed. The program has what both
declare, and the declarations leave nothing of the tokens. -/
theorem ofTokens_of_tokenize_append {a b : String} {ts us : List Token} {p q : Program}
    (ha : tokenize a = .ok ts) (hp : Program.ofTokens ts = .ok p)
    (hb : tokenize b = .ok us) (hq : Program.ofTokens us = .ok q)
    (hend : a = "" ∨ a.toList.getLast? = some '\n')
    (hreturns : ∀ i : Nat, b.toList[i]? = some '\r' → b.toList[i + 1]? = some '\n') :
    ∃ vs ds es, tokenize (a ++ b) = .ok vs ∧
      Program.ofTokens vs = .ok ⟨p.classes ++ q.classes, p.interfaces ++ q.interfaces⟩ ∧
      Grammar.topLevel ts = .ok (ds, []) ∧ Grammar.topLevel us = .ok (es, []) ∧
      Grammar.topLevel vs = .ok (ds ++ es, []) ∧
      Spliced (ts.map Token.sign) (us.map Token.sign) (vs.map Token.sign) := by
  obtain ⟨ds, hds, rfl⟩ := topLevel_of_ofTokens ha hp
  obtain ⟨es, hes, rfl⟩ := topLevel_of_ofTokens hb hq
  obtain ⟨vs, hvs, htop, hspliced⟩ : ∃ vs, tokenize (a ++ b) = .ok vs ∧
      Grammar.topLevel vs = .ok (ds ++ es, []) ∧
      Spliced (ts.map Token.sign) (us.map Token.sign) (vs.map Token.sign) := by
    rcases hend with rfl | hend
    · have hnil : tokenize "" = .ok [] := by decide +kernel
      cases hnil.symm.trans ha
      cases hds
      exact ⟨us, by rwa [String.empty_append], hes, [], [], [], _, by simp, by simp, rfl, rfl, rfl⟩
    · exact topLevel_of_tokenize_append ha hb hds hes hend hreturns
  refine ⟨vs, ds, es, hvs, ?_, hds, hes, htop, hspliced⟩
  rw [Program.ofTokens, Grammar.program_of_topLevel htop]
  simp [Grammar.TopLevel.classes, Grammar.TopLevel.interfaces]

namespace Splice

/-- A class that ends inside a block of a block. -/
def nested : String := "class A\n\tm()\n\t\tx = y\n"

def nestedTokens : List Token :=
  [⟨.keyClass, ⟨1, 0⟩, none⟩, ⟨.word, ⟨1, 6⟩, some "A"⟩, ⟨.newline, ⟨1, 7⟩, none⟩,
    ⟨.indent, ⟨2, 0⟩, none⟩, ⟨.word, ⟨2, 4⟩, some "m"⟩, ⟨.lparen, ⟨2, 5⟩, none⟩,
    ⟨.rparen, ⟨2, 6⟩, none⟩, ⟨.newline, ⟨2, 7⟩, none⟩, ⟨.indent, ⟨3, 0⟩, none⟩,
    ⟨.word, ⟨3, 8⟩, some "x"⟩, ⟨.assign, ⟨3, 10⟩, none⟩, ⟨.word, ⟨3, 12⟩, some "y"⟩,
    ⟨.newline, ⟨3, 13⟩, none⟩, ⟨.dedent, ⟨4, 0⟩, none⟩, ⟨.dedent, ⟨4, 0⟩, none⟩]

def nestedClass : Class :=
  ⟨"A", [], [], [], [⟨"m", false, false, false, [], [], [],
    .statements [.assign "x" (.var "y")]⟩]⟩

/-- An interface behind an empty line. -/
def spaced : String := "\r\ninterface I\n\tn()"

def spacedTokens : List Token :=
  [⟨.newline, ⟨1, 1⟩, none⟩, ⟨.keyInterface, ⟨2, 0⟩, none⟩, ⟨.word, ⟨2, 10⟩, some "I"⟩,
    ⟨.newline, ⟨2, 11⟩, none⟩, ⟨.indent, ⟨3, 0⟩, none⟩, ⟨.word, ⟨3, 4⟩, some "n"⟩,
    ⟨.lparen, ⟨3, 5⟩, none⟩, ⟨.rparen, ⟨3, 6⟩, none⟩, ⟨.dedent, ⟨3, 7⟩, none⟩]

def spacedInterface : Interface := ⟨"I", [⟨"n", [], []⟩]⟩

theorem feeds_spaced :
    ∀ i : Nat, spaced.toList[i]? = some '\r' → spaced.toList[i + 1]? = some '\n' := by
  intro i hi
  have hlt : i < spaced.toList.length := (List.getElem?_eq_some_iff.1 hi).1
  have hall : ∀ i < spaced.toList.length,
      spaced.toList[i]? = some '\r' → spaced.toList[i + 1]? = some '\n' := by decide +kernel
  exact hall i hlt hi

end Splice

open Splice in
theorem ofTokens_of_tokenize_append_nested : ∃ vs,
    tokenize (nested ++ spaced) = .ok vs ∧
      Program.ofTokens vs = .ok ⟨[nestedClass], [spacedInterface]⟩ ∧
      Spliced (nestedTokens.map Token.sign) (spacedTokens.map Token.sign) (vs.map Token.sign) := by
  have hnested : tokenize nested = .ok nestedTokens := by decide +kernel
  have hspaced : tokenize spaced = .ok spacedTokens := by decide +kernel
  have hclass : Program.ofTokens nestedTokens = .ok ⟨[nestedClass], []⟩ := rfl
  have hinterface : Program.ofTokens spacedTokens = .ok ⟨[], [spacedInterface]⟩ := rfl
  obtain ⟨vs, -, -, hvs, hprogram, -, -, -, hspliced⟩ := ofTokens_of_tokenize_append hnested hclass
    hspaced hinterface (.inr (by decide +kernel)) feeds_spaced
  exact ⟨vs, hvs, hprogram, hspliced⟩

end Offside
