import Offside.Proofs.Rule.Likeness

/-!
Token lists that rules cannot tell apart. A blur relates lists that have the same tokens up to a
newline, or up to the end of the first, where the second may go on with dedents. A rule is blind to
a blur if it does the same with related lists: both times it gives one value, or has one complaint,
and what is left is related again. Where a likeness follows the rules that succeed, from the first
list to the second, a blur also follows those that refuse, and both ways. A rule that takes a token
without looking is blind only where it stands behind a look: `BlindOn` keeps the kinds that were
seen.
-/
namespace Offside.Rule

variable {α β : Type}

/-- The kinds of tokens where lists that rules cannot tell apart may part. -/
def breakKinds : List Kind := [.newline, .dedent]

theorem ne_newline_of_not_break {k : Kind} (h : k ∉ breakKinds) : k ≠ .newline := by
  rintro rfl
  exact h (by decide)

theorem ne_dedent_of_not_break {k : Kind} (h : k ∉ breakKinds) : k ≠ .dedent := by
  rintro rfl
  exact h (by decide)

/-- Lists that are the same to rules, the second perhaps longer. -/
structure Blur where
  rel : List Token → List Token → Prop
  /-- The heads are of one kind, or a dedent stands where the first list ends. -/
  head {ts us : List Token} : rel ts us →
    headKind us = headKind ts ∨ headKind ts = none ∧ headKind us = some .dedent
  /-- Up to a newline the tokens are the same. -/
  tail {t u : Token} {ts us : List Token} : rel (t :: ts) (u :: us) → t.kind ≠ .newline →
    u = t ∧ rel ts us
  /-- Behind the end of the first list the second may be read on. -/
  drain {u : Token} {us : List Token} : rel [] (u :: us) → rel [] us
  /-- Newlines may be passed, alone or among others. -/
  pass {kinds : List Kind} {ts us : List Token} : .newline ∈ kinds → rel ts us →
    rel (ts.dropWhile fun t => kinds.contains t.kind) (us.dropWhile fun t => kinds.contains t.kind)

namespace Blur

variable {B : Blur} {ks : List Kind} {ts us : List Token}

/-- Outcomes with one value or one complaint that leave related lists. -/
inductive Agree (B : Blur) :
    Except Refusal (α × List Token) → Except Refusal (α × List Token) → Prop
  | ok (a : α) {ts us : List Token} (h : B.rel ts us) : Agree B (.ok (a, ts)) (.ok (a, us))
  | error (c : Complaint) {ts us : List Token} (h : B.rel ts us) :
      Agree B (.error ⟨c, ts⟩) (.error ⟨c, us⟩)

/-- A rule does the same with related lists if the first tokens are of the kinds `ks`. -/
def BlindOn (B : Blur) (ks : List Kind) (p : Rule α) : Prop :=
  ∀ ts us, B.rel ts us → ks <+: ts.map Token.kind → B.Agree (p ts) (p us)

def Blind (B : Blur) (p : Rule α) : Prop := B.BlindOn [] p

theorem BlindOn.mono {ks' : List Kind} {p : Rule α} (h : B.BlindOn ks p) (hks : ks <+: ks') :
    B.BlindOn ks' p := fun ts us hrel hts => h ts us hrel (hks.trans hts)

theorem Blind.on {p : Rule α} (h : B.Blind p) : B.BlindOn ks p := BlindOn.mono h List.nil_prefix

/-- Related lists are both empty, or a dedent follows the first, or both go on with tokens of one
kind. -/
theorem cases_of_rel (h : B.rel ts us) :
    ts = [] ∧ us = [] ∨
    (∃ u more, ts = [] ∧ us = u :: more ∧ u.kind = .dedent ∧ B.rel [] more) ∨
    ∃ t u more more', ts = t :: more ∧ us = u :: more' ∧ u.kind = t.kind ∧
      (t.kind ≠ .newline → u = t ∧ B.rel more more') := by
  cases ts with
  | nil =>
    cases us with
    | nil => exact .inl ⟨rfl, rfl⟩
    | cons u us =>
      rcases B.head h with hk | ⟨-, hk⟩
      · cases hk
      · exact .inr (.inl ⟨u, us, rfl, rfl, Option.some.inj hk, B.drain h⟩)
  | cons t ts =>
    rcases B.head h with hk | ⟨hk, -⟩
    · obtain ⟨u, us, rfl, hu⟩ := exists_cons_of_headKind hk
      exact .inr (.inr ⟨t, u, ts, us, rfl, rfl, hu, B.tail h⟩)
    · cases hk

/-- A token that was seen and is no newline stands at both heads. -/
theorem exists_cons_of_seen {k : Kind} (h : B.rel ts us) (hk : k ≠ .newline)
    (hts : k :: ks <+: ts.map Token.kind) :
    ∃ t more more', ts = t :: more ∧ us = t :: more' ∧ t.kind = k ∧ B.rel more more' ∧
      ks <+: more.map Token.kind := by
  rcases cases_of_rel h with ⟨rfl, -⟩ | ⟨u, more, rfl, -⟩ | ⟨t, u, more, more', rfl, rfl, -, hsame⟩
  · simp at hts
  · simp at hts
  · obtain ⟨rfl, hmore⟩ := List.cons_prefix_cons.1 hts
    obtain ⟨rfl, hrel⟩ := hsame hk
    exact ⟨u, more, more', rfl, rfl, rfl, hrel, hmore⟩

/-- Behind tokens that were seen and are no newlines the lists are related. -/
theorem rel_drop (h : B.rel ts us) (hks : .newline ∉ ks) (hts : ks <+: ts.map Token.kind) :
    B.rel (ts.drop ks.length) (us.drop ks.length) := by
  induction ks generalizing ts us with
  | nil => exact h
  | cons k ks ih =>
    obtain ⟨hk, hks⟩ := not_or.1 (mt List.mem_cons.2 hks)
    obtain ⟨t, more, more', rfl, rfl, -, hmore, hts⟩ := exists_cons_of_seen h (Ne.symm hk) hts
    exact ih hmore hks hts

namespace BlindOn

theorem pure (a : α) : B.BlindOn ks (pure a : Rule α) := fun _ _ h _ => .ok a h

theorem refuse (what : String) : B.BlindOn ks (refuse what : Rule α) := fun _ _ h _ => .error _ h

theorem bind {p : Rule α} {f : α → Rule β} (hp : B.BlindOn ks p) (hf : ∀ a, B.Blind (f a)) :
    B.BlindOn ks (p >>= f) := by
  intro ts us hrel hts
  have hagree := hp ts us hrel hts
  rw [bind_apply, bind_apply]
  generalize p ts = x at hagree
  generalize p us = y at hagree
  cases hagree with
  | ok a h => exact hf a _ _ h List.nil_prefix
  | error c h => exact .error c h

theorem map {p : Rule α} (hp : B.BlindOn ks p) (g : α → β) :
    B.BlindOn ks (p >>= fun a => Pure.pure (g a)) := hp.bind fun _ => .pure _

theorem next_bind {k : Kind} {f : Option Token → Rule β} (hk : k ≠ .newline)
    (hf : ∀ t, B.BlindOn ks (f t)) : B.BlindOn (k :: ks) (next >>= f) := by
  intro ts us hrel hts
  obtain ⟨t, more, more', rfl, rfl, -, hmore, hts⟩ := exists_cons_of_seen hrel hk hts
  exact hf (some t) more more' hmore hts

theorem expect_bind {k : Kind} {what : String} {f : Token → Rule β} (hk : k ≠ .newline)
    (hf : ∀ t, B.BlindOn ks (f t)) : B.BlindOn (k :: ks) (expect k what >>= f) := by
  intro ts us hrel hts
  obtain ⟨t, more, more', rfl, rfl, ht, hmore, hts⟩ := exists_cons_of_seen hrel hk hts
  rw [bind_of_ok (expect_eq_ok.2 ⟨rfl, ht⟩), bind_of_ok (expect_eq_ok.2 ⟨rfl, ht⟩)]
  exact hf t more more' hmore hts

/-- A rule may look at the token behind those that were seen. A dedent there says no more than the
end of the list. -/
theorem peek {i : Nat} {f : Option Kind → Rule β} (hi : ks.length = i) (hks : .newline ∉ ks)
    (hdedent : f (some .dedent) = f none) (hf : ∀ k, B.BlindOn (ks ++ k.toList) (f k)) :
    B.BlindOn ks (peekKind i >>= f) := by
  intro ts us hrel hts
  have hseen : ∀ k ∈ ts[i]?.map Token.kind, ks ++ [k] <+: ts.map Token.kind := by
    intro k hk
    obtain ⟨more, hmore⟩ := hts
    subst hi
    rw [← List.getElem?_map, ← hmore] at hk
    cases more with
    | nil => simp at hk
    | cons l more =>
      obtain rfl : l = k := by simpa using hk
      exact ⟨more, by simpa using hmore⟩
  have hknown : ks ++ (ts[i]?.map Token.kind).toList <+: ts.map Token.kind := by
    cases hk : ts[i]?.map Token.kind with
    | none => simpa using hts
    | some k => exact hseen k hk
  have hhead := B.head (rel_drop hrel hks hts)
  simp only [headKind, List.getElem?_drop, hi, Nat.add_zero] at hhead
  rw [peekKind_bind, peekKind_bind]
  rcases hhead with hsame | ⟨hnone, hsome⟩
  · rw [hsame]
    exact hf _ ts us hrel hknown
  · rw [hsome, hdedent, hnone]
    rw [hnone] at hknown
    exact hf none ts us hrel hknown

/-- A rule may look at two tokens. Where the first is a newline, the second may not be the same in
both lists, so there it must not matter. -/
theorem peek_two {f : Option Kind → Option Kind → Rule β} {q : Rule β} (hq : B.Blind q)
    (hnone : ∀ l, f none l = q) (hnewline : ∀ l, f (some .newline) l = q)
    (hdedent : ∀ l, f (some .dedent) l = q)
    (hsecond : ∀ k, f (some k) (some .dedent) = f (some k) none)
    (hf : ∀ k l, k ≠ .newline → B.BlindOn (k :: l.toList) (f (some k) l)) :
    B.Blind (peekKind 0 >>= fun k => peekKind 1 >>= f k) := by
  have hend : ∀ k, (∀ l, f k l = q) → (peekKind 1 >>= f k) = q := by
    intro k hk
    funext ts
    rw [peekKind_bind, hk]
  refine .peek rfl (by simp) ?_ fun first => ?_
  · rw [hend _ hdedent, hend _ hnone]
  · rcases first with _ | k
    · rw [hend _ hnone]
      exact hq.on
    · by_cases hk : k = .newline
      · rw [hk, hend _ hnewline]
        exact hq.on
      · exact .peek rfl (by simpa using Ne.symm hk) (hsecond k) fun l => hf k l hk

theorem expect {kind : Kind} {what : String} (hkind : kind ∉ breakKinds) :
    B.BlindOn ks (expect kind what) := by
  intro ts us hrel _
  rcases cases_of_rel hrel with
    ⟨rfl, rfl⟩ | ⟨u, more, rfl, rfl, hu, -⟩ | ⟨t, u, more, more', rfl, rfl, hu, hsame⟩
  · exact .error _ hrel
  · have hne : u.kind ≠ kind := by
      rw [hu]
      exact (ne_dedent_of_not_break hkind).symm
    simp only [Rule.expect, if_neg hne]
    exact .error _ hrel
  · by_cases ht : t.kind = kind
    · obtain ⟨rfl, hmore⟩ := hsame (ht ▸ ne_newline_of_not_break hkind)
      simp only [Rule.expect, if_pos ht]
      exact .ok u hmore
    · simp only [Rule.expect, if_neg ht, if_neg (hu ▸ ht : u.kind ≠ kind)]
      exact .error _ hrel

theorem word (what : String) : B.BlindOn ks (word what) := by
  rw [word_eq]
  exact (expect (by decide)).map _

theorem accept {kind : Kind} (hkind : kind ∉ breakKinds) : B.BlindOn ks (accept kind) := by
  intro ts us hrel _
  rcases cases_of_rel hrel with
    ⟨rfl, rfl⟩ | ⟨u, more, rfl, rfl, hu, -⟩ | ⟨t, u, more, more', rfl, rfl, hu, hsame⟩
  · exact .ok none hrel
  · have hne : u.kind ≠ kind := by
      rw [hu]
      exact (ne_dedent_of_not_break hkind).symm
    simp only [Rule.accept, if_neg hne]
    exact .ok none hrel
  · by_cases ht : t.kind = kind
    · obtain ⟨rfl, hmore⟩ := hsame (ht ▸ ne_newline_of_not_break hkind)
      simp only [Rule.accept, if_pos ht]
      exact .ok (some u) hmore
    · simp only [Rule.accept, if_neg ht, if_neg (hu ▸ ht : u.kind ≠ kind)]
      exact .ok none hrel

theorem accept_bind {kind : Kind} {f : Option Token → Rule β} (hkind : kind ∉ breakKinds)
    (hsome : ∀ t, B.Blind (f (some t))) (hnone : B.Blind (f none)) :
    B.BlindOn ks (Rule.accept kind >>= f) := by
  refine (accept hkind).bind fun taken => ?_
  cases taken with
  | some t => exact hsome t
  | none => exact hnone

theorem skip {kinds : List Kind} (h : .newline ∈ kinds) : B.BlindOn ks (skip kinds) :=
  fun _ _ hrel _ => .ok () (B.pass h hrel)

theorem skipNewlines : B.BlindOn ks skipNewlines := skip (by simp)

theorem lineEnd : B.BlindOn ks lineEnd := by
  intro ts us hrel hts
  rcases cases_of_rel hrel with
    ⟨rfl, rfl⟩ | ⟨u, more, rfl, rfl, hu, -⟩ | ⟨t, u, more, more', rfl, rfl, hu, -⟩
  · exact .ok () hrel
  · simp only [Rule.lineEnd, hu]
    exact .ok () hrel
  · simp only [Rule.lineEnd, hu]
    split
    · exact skipNewlines _ _ hrel hts
    · exact .ok () hrel
    · exact .error _ hrel

theorem blockEnd : B.BlindOn ks blockEnd := by
  intro ts us hrel _
  rcases cases_of_rel hrel with
    ⟨rfl, rfl⟩ | ⟨u, more, rfl, rfl, hu, hmore⟩ | ⟨t, u, more, more', rfl, rfl, hu, hsame⟩
  · exact .ok true hrel
  · simp only [Rule.blockEnd, if_pos hu]
    exact .ok true hmore
  · by_cases ht : t.kind = .dedent
    · obtain ⟨rfl, hmore⟩ := hsame (by simp [ht])
      simp only [Rule.blockEnd, if_pos ht]
      exact .ok true hmore
    · simp only [Rule.blockEnd, if_neg ht, if_neg (hu ▸ ht : u.kind ≠ .dedent)]
      exact .ok false hrel

/-- A rule may choose by the kind of the token behind those that were seen. -/
theorem choice {i : Nat} {kind : Kind} {p q : Rule α} (hi : ks.length = i) (hks : .newline ∉ ks)
    (hkind : kind ∉ breakKinds) (hp : B.BlindOn (ks ++ [kind]) p) (hq : B.BlindOn ks q) :
    B.BlindOn ks (peekKind i >>= fun k => if k = some kind then p else q) := by
  refine .peek hi hks ?_ fun k => ?_
  · have hne : some Kind.dedent ≠ some kind := fun h =>
      ne_dedent_of_not_break hkind (Option.some.inj h).symm
    rw [if_neg hne, if_neg (by simp)]
  · split
    · rename_i hk
      subst hk
      exact hp
    · exact hq.mono (List.prefix_append _ _)

/-- Two tokens inside a line are seen in both lists or in none. -/
theorem startsWith_bind {first second : Kind} {f : Bool → Rule β} (hfirst : first ∉ breakKinds)
    (hsecond : second ∉ breakKinds) (htrue : B.BlindOn [first, second] (f true))
    (hfalse : B.Blind (f false)) : B.Blind (startsWith first second >>= f) := by
  have hlook : startsWith first second >>= f = (peekKind 0 >>= fun k =>
      if k = some first then peekKind 1 >>= fun l => if l = some second then f true else f false
      else f false) := by
    funext ts
    rw [Rule.startsWith_bind, peekKind_bind]
    by_cases h : ts[0]?.map Token.kind = some first
    · rw [if_pos h, peekKind_bind]
      by_cases h' : ts[1]?.map Token.kind = some second
      · rw [if_pos h', decide_eq_true ⟨h, h'⟩]
      · rw [if_neg h', decide_eq_false fun hand => h' hand.2]
    · rw [if_neg h, decide_eq_false fun hand => h hand.1]
  rw [hlook]
  refine .choice rfl (by simp) hfirst ?_ hfalse
  refine .choice rfl ?_ hsecond htrue hfalse.on
  simpa using (ne_newline_of_not_break hfirst).symm

/-- A name, and a mark behind it that is taken without a look. -/
theorem named_bind {second : Kind} {f : Bool → Rule β} {g : String → Rule β} (what : String)
    (hsecond : second ∉ breakKinds)
    (hstep : f true = Rule.word what >>= fun name => next >>= fun _ => g name)
    (hg : ∀ name, B.Blind (g name)) (hfalse : B.Blind (f false)) :
    B.Blind (startsWith .word second >>= f) := by
  refine startsWith_bind (by decide) hsecond ?_ hfalse
  rw [hstep, word_eq, bind_assoc]
  refine expect_bind (by decide) fun t => ?_
  exact next_bind (ne_newline_of_not_break hsecond) fun _ => (hg t.content).on

/-- An operator is taken without a look, behind the look that told it. -/
theorem operator_bind {ω : Type} {op : Kind → Option ω} {f : Option Kind → Rule β} {q : Rule β}
    {g : ω → Rule β} (hop : Operators op) (hnone : ∀ k, k.bind op = none → f k = q)
    (hsome : ∀ k o, op k = some o → f (some k) = next >>= fun _ => g o) (hq : B.Blind q)
    (hg : ∀ o, B.Blind (g o)) : B.Blind (peekKind 0 >>= f) := by
  refine .peek rfl (by simp) ?_ fun k => ?_
  · rw [hnone _ (hop.closing _ (by decide)), hnone none rfl]
  · cases ho : k.bind op with
    | none =>
      rw [hnone k ho]
      exact hq.on
    | some o =>
      obtain ⟨k, rfl, hk⟩ := Option.bind_eq_some_iff.1 ho
      rw [hsome k o hk]
      refine next_bind ?_ fun _ => hg o
      rintro rfl
      cases hk.symm.trans (hop.layout _ (by decide))

/-- A recursive rule is blind if each round is. -/
theorem fix {f : Rule α → Rule α} (hf : Guarded f)
    (h : ∀ n, B.Blind (unroll f n) → B.Blind (f (unroll f n))) : B.Blind (fix f) := by
  have hrounds : ∀ n, B.Blind (unroll f n) := by
    intro n
    induction n with
    | zero => exact .refuse _
    | succ n ih => exact h n ih
  intro ts us hrel hts
  -- the lists may differ in length, so the rounds are counted for the longer one
  obtain ⟨n, hlt, hlt'⟩ : ∃ n, ts.length < n ∧ us.length < n :=
    ⟨max ts.length us.length + 1, by omega, by omega⟩
  rw [← (unroll_alike_fix hf n).agree ts hlt, ← (unroll_alike_fix hf n).agree us hlt']
  exact hrounds n ts us hrel hts

theorem commaSeparated {item : Rule α} (hleaves : LeavesSuffix item) (h : B.Blind item) :
    B.Blind (commaSeparated item) := by
  refine fix (commaSeparated_guarded hleaves) fun _ hagain => ?_
  exact h.bind fun first => .accept_bind (by decide) (fun _ => hagain.map _) (.pure _)

theorem lines {item : Rule α} (hadvances : Advances item) (h : B.Blind item) :
    B.Blind (lines item) := by
  refine fix (lines_guarded hadvances) fun _ hagain => ?_
  refine skipNewlines.bind fun _ => blockEnd.bind fun ended => ?_
  cases ended with
  | true => exact .pure _
  | false => exact h.bind fun first => hagain.map _

theorem operations {ω : Type} {op : Kind → Option ω} {operand : Rule α} (hop : Operators op)
    (hadvances : Advances operand) (h : B.Blind operand) : B.Blind (operations op operand) := by
  refine fix (operations_guarded hadvances) fun _ hagain => ?_
  refine operator_bind hop (fun k hk => ?_) (fun k o hk => ?_) (.pure [])
    fun o => h.bind fun first => hagain.map fun more => (o, first) :: more
  · rw [hk]
  · simp only [Option.bind_some, hk]

theorem chain {ω : Type} {op : Kind → Option ω} {join : ω → α → α → α} {operand : Rule α}
    (hop : Operators op) (hadvances : Advances operand) (h : B.Blind operand) :
    B.Blind (chain op join operand) :=
  h.bind fun _ => (operations hop hadvances h).map _

end BlindOn

end Blur

end Offside.Rule
