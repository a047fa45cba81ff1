import Offside.Proofs.Token.Indentation

/-!
Which rows of tokens a text can have, places aside. `Arranged` says it of the row as a whole: which
texts go with which kinds, where levels may stand, and that they nest. `Laid` builds the same rows
line by line, with the number of open levels in hand. The tokens of every text are laid out so
(`Scan.Reaches.laid`), and the two descriptions agree (`Laid.placed`, `Arranged.laid`).
-/
namespace Offside

/-- A token without its place. -/
structure Sign where
  kind : Kind
  text : Option String
deriving DecidableEq

def Token.sign (t : Token) : Sign := ⟨t.kind, t.text⟩

namespace Sign

def newline : Sign := ⟨.newline, none⟩

def indent : Sign := ⟨.indent, none⟩

def dedent : Sign := ⟨.dedent, none⟩

def isIndent (x : Sign) : Bool := x.kind == .indent

def isDedent (x : Sign) : Bool := x.kind == .dedent

/-- Neither the end of a line nor a level. -/
def Ordinary (x : Sign) : Prop := x.kind ≠ .newline ∧ x.kind ≠ .indent ∧ x.kind ≠ .dedent

/-- The text is one that tokens of the kind have; only words and literals have any. -/
def Fits (x : Sign) : Prop :=
  match x.kind with
  | .word => ∃ text, x.text = some text ∧ text ≠ "" ∧ (∀ c ∈ text.toList, isAlphabetic c) ∧
      Kind.ofKeyword? text = none
  | .number => ∃ text, x.text = some text ∧ IsNumeral text.toList
  | .string => ∃ text, x.text = some text
  | .character => ∃ c, x.text = some (String.singleton c)
  | _ => x.text = none

theorem Fits.eq_newline {x : Sign} (h : x.Fits) (hk : x.kind = .newline) : x = newline := by
  obtain ⟨kind, text⟩ := x
  cases hk
  exact congrArg (Sign.mk .newline) h

theorem Fits.eq_indent {x : Sign} (h : x.Fits) (hk : x.kind = .indent) : x = indent := by
  obtain ⟨kind, text⟩ := x
  cases hk
  exact congrArg (Sign.mk .indent) h

theorem Fits.eq_dedent {x : Sign} (h : x.Fits) (hk : x.kind = .dedent) : x = dedent := by
  obtain ⟨kind, text⟩ := x
  cases hk
  exact congrArg (Sign.mk .dedent) h

theorem Ordinary.ne {x : Sign} (h : x.Ordinary) : x ≠ newline ∧ x ≠ indent ∧ x ≠ dedent := by
  refine ⟨?_, ?_, ?_⟩ <;> rintro rfl
  · exact h.1 rfl
  · exact h.2.1 rfl
  · exact h.2.2 rfl

theorem Ordinary.counts {x : Sign} (h : x.Ordinary) : x.isIndent = false ∧ x.isDedent = false :=
  ⟨beq_eq_false_iff_ne.2 h.2.1, beq_eq_false_iff_ne.2 h.2.2⟩

end Sign

open Sign

theorem Spells.fits {text : List Char} {kind : Kind} {value : Option String}
    (h : Spells text kind value) : Fits ⟨kind, value⟩ := by
  cases h with
  | newline | doubledAnd | doubledOr => rfl
  | fixed h => cases kind <;> first | rfl | cases h
  | word hne hl hk => exact ⟨_, rfl, by simpa using hne, by simpa using hl, hk⟩
  | number h => exact ⟨_, rfl, by simpa using h⟩
  | string h => exact ⟨_, rfl⟩
  | @character _ c h => exact ⟨c, rfl⟩

/-- What comes after these signs starts a line. -/
def StartsLine (before : List Sign) : Prop :=
  before = [] ∨ ∃ earlier, before = earlier ++ [newline]

theorem startsLine_concat {before : List Sign} {x : Sign} :
    StartsLine (before ++ [x]) ↔ x = newline := by
  constructor
  · rintro (hnil | ⟨earlier, heq⟩)
    · simp at hnil
    · exact (List.cons.inj (List.append_inj' heq rfl).2).1
  · rintro rfl
    exact .inr ⟨before, rfl⟩

/-- A level stands where it may. An indent is the first sign of a line and an ordinary sign comes
next. The dedents around a dedent end the row, or they are the first signs of a line and an
ordinary sign comes next. -/
def InPlace (before : List Sign) (x : Sign) (after : List Sign) : Prop :=
  (x = indent → StartsLine before ∧ ∃ y later, after = y :: later ∧ y.Ordinary) ∧
  (x = dedent → (∀ y ∈ after, y = dedent) ∨ ∃ earlier i j y later,
    before = earlier ++ newline :: List.replicate i dedent ∧
    after = List.replicate j dedent ++ y :: later ∧ y.Ordinary)

theorem inPlace_of_ne {before after : List Sign} {x : Sign} (hi : x ≠ indent) (hd : x ≠ dedent) :
    InPlace before x after :=
  ⟨fun h => absurd h hi, fun h => absurd h hd⟩

/-- Rows of signs that a text can have. -/
structure Arranged (signs : List Sign) : Prop where
  fits : ∀ x ∈ signs, x.Fits
  inPlace : ∀ before x after, signs = before ++ x :: after → InPlace before x after
  dedents_le : ∀ pre, pre <+: signs → pre.countP isDedent ≤ pre.countP isIndent
  balanced : signs.countP isDedent = signs.countP isIndent

/-- The signs from here to the end of a text, when `depth` levels are open and `start` says whether
a line starts here. -/
inductive Laid : Nat → Bool → List Sign → Prop
  | closed (depth : Nat) (start : Bool) : Laid depth start (List.replicate depth dedent)
  | lineEnd {depth : Nat} {rest : List Sign} (start : Bool) (h : Laid depth true rest) :
      Laid depth start (newline :: rest)
  | ordinary {depth : Nat} {x : Sign} {rest : List Sign} (hx : x.Ordinary)
      (h : Laid depth false rest) : Laid depth false (x :: rest)
  | indented {depth : Nat} {x : Sign} {rest : List Sign} (hx : x.Ordinary)
      (h : Laid (depth + 1) false rest) : Laid depth true (indent :: x :: rest)
  | dedented {depth : Nat} {x : Sign} {rest : List Sign} (n : Nat) (hx : x.Ordinary)
      (h : Laid depth false rest) : Laid (depth + n) true (List.replicate n dedent ++ x :: rest)

namespace Laid

/-- A line may go on as one that starts here. -/
theorem of_inside {depth : Nat} {signs : List Sign} (h : Laid depth false signs) :
    Laid depth true signs := by
  cases h with
  | closed => exact .closed depth true
  | lineEnd _ h => exact .lineEnd true h
  | ordinary hx h => exact .dedented 0 hx h

theorem tail_of_ordinary {depth : Nat} {x : Sign} {rest : List Sign} (hx : x.Ordinary)
    (h : Laid depth false (x :: rest)) : Laid depth false rest := by
  generalize hs : x :: rest = signs at h
  cases h with
  | closed =>
    have hmem : x ∈ List.replicate depth dedent := hs ▸ List.mem_cons_self
    exact absurd (List.eq_of_mem_replicate hmem) hx.ne.2.2
  | lineEnd => exact absurd (List.cons.inj hs).1 hx.ne.1
  | ordinary _ h =>
    cases hs
    exact h

/-- Every sign of `signs` is in place, with `pre` before them. -/
def Placed (pre signs : List Sign) : Prop :=
  ∀ before x after, signs = before ++ x :: after → InPlace (pre ++ before) x after

theorem Placed.cons {pre rest : List Sign} {x : Sign} (hx : InPlace pre x rest)
    (h : Placed (pre ++ [x]) rest) : Placed pre (x :: rest) := by
  intro before y after hsplit
  cases before with
  | nil =>
    obtain ⟨rfl, rfl⟩ := List.cons.inj hsplit
    simpa using hx
  | cons z before =>
    obtain ⟨rfl, hrest⟩ := List.cons.inj hsplit
    simpa using h before y after hrest

theorem Placed.of_dedents (pre : List Sign) (n : Nat) : Placed pre (List.replicate n dedent) := by
  intro before x after hsplit
  have hall : ∀ y ∈ before ++ x :: after, y = dedent := fun y hy =>
    List.eq_of_mem_replicate (hsplit ▸ hy)
  have hx : x = dedent := hall x (by simp)
  refine ⟨fun hi => ?_, fun _ => .inl fun y hy => hall y (by simp [hy])⟩
  rw [hx] at hi
  cases hi

/-- Dedents after the end of a line, and the ordinary sign after them. -/
theorem Placed.dedents {earlier rest : List Sign} {x : Sign} (hx : x.Ordinary) (i n : Nat)
    (h : ∀ pre, Placed (pre ++ [x]) rest) :
    Placed (earlier ++ newline :: List.replicate i dedent)
      (List.replicate n dedent ++ x :: rest) := by
  induction n generalizing i with
  | zero => exact .cons (inPlace_of_ne hx.ne.2.1 hx.ne.2.2) (h _)
  | succ n ih =>
    refine .cons ⟨fun hi => absurd hi (by decide), fun _ => .inr ?_⟩ ?_
    · exact ⟨earlier, i, n, x, rest, rfl, rfl, hx⟩
    · have hnext := ih (i + 1)
      rwa [List.replicate_succ', ← List.cons_append, ← List.append_assoc] at hnext

/-- Levels stand in place. No level is open at the start of a text. -/
theorem placed {depth : Nat} {start : Bool} {signs : List Sign} (h : Laid depth start signs) :
    ∀ pre, (start = true → pre = [] ∧ depth = 0 ∨ ∃ earlier, pre = earlier ++ [newline]) →
      Placed pre signs := by
  induction h with
  | closed depth _ => exact fun pre _ => .of_dedents pre depth
  | lineEnd _ _ ih =>
    intro pre _
    exact .cons (inPlace_of_ne (by decide) (by decide)) (ih _ fun _ => .inr ⟨pre, rfl⟩)
  | ordinary hx _ ih =>
    intro pre _
    exact .cons (inPlace_of_ne hx.ne.2.1 hx.ne.2.2) (ih _ (by simp))
  | indented hx _ ih =>
    intro pre hpre
    refine .cons ⟨fun _ => ⟨?_, _, _, rfl, hx⟩, fun hd => by cases hd⟩ ?_
    · rcases hpre rfl with ⟨hnil, -⟩ | hline
      · exact .inl hnil
      · exact .inr hline
    · exact .cons (inPlace_of_ne hx.ne.2.1 hx.ne.2.2) (ih _ (by simp))
  | dedented n hx _ ih =>
    intro pre hpre
    rcases hpre rfl with ⟨-, hdepth⟩ | ⟨earlier, rfl⟩
    · obtain rfl : n = 0 := by omega
      exact .cons (inPlace_of_ne hx.ne.2.1 hx.ne.2.2) (ih _ (by simp))
    · exact .dedents hx 0 n fun pre => ih _ (by simp)

end Laid

theorem countP_isDedent_dedents (n : Nat) : (List.replicate n dedent).countP isDedent = n := by
  simp [List.countP_replicate, isDedent, dedent]

theorem countP_isIndent_dedents (n : Nat) : (List.replicate n dedent).countP isIndent = 0 := by
  simp [List.countP_replicate, isIndent, dedent]

/-- A point of a row that is not just after a level, with the levels open there. -/
structure Point (signs pre rest : List Sign) (depth : Nat) (start : Bool) : Prop where
  split : signs = pre ++ rest
  last_ne : ∀ earlier, pre ≠ earlier ++ [dedent]
  depth_eq : depth + pre.countP isDedent = pre.countP isIndent
  start_iff : start = true ↔ StartsLine pre

namespace Point

variable {signs pre rest : List Sign} {depth : Nat} {start : Bool} {x : Sign}

/-- The point after some levels and one more sign that is none. -/
theorem pass (levels : List Sign) (level : Nat)
    (h : Point signs pre (levels ++ x :: rest) depth start)
    (hx : x.isIndent = false ∧ x.isDedent = false)
    (hlevel : level + levels.countP isDedent = depth + levels.countP isIndent) :
    Point signs (pre ++ levels ++ [x]) rest level (decide (x = newline)) where
  split := by simp [h.split]
  last_ne earlier he := by
    obtain rfl := (List.cons.inj (List.append_inj' he rfl).2).1
    exact absurd hx.2 (by decide)
  depth_eq := by
    have hdepth := h.depth_eq
    simp only [List.countP_append, List.countP_singleton, hx.1, hx.2]
    simp only [Bool.false_eq_true, if_false]
    omega
  start_iff := by rw [startsLine_concat, decide_eq_true_iff]

theorem startsLine_of_dedents {earlier : List Sign} {i : Nat} (h : Point signs pre rest depth start)
    (hpre : pre = earlier ++ newline :: List.replicate i dedent) : start = true := by
  rw [h.start_iff]
  cases i with
  | zero => exact .inr ⟨earlier, hpre⟩
  | succ i =>
    rw [List.replicate_succ', ← List.cons_append, ← List.append_assoc] at hpre
    exact absurd hpre (h.last_ne _)

end Point

section Arranged

variable {signs pre rest : List Sign} {depth n : Nat} {start : Bool}

/-- Dedents close only levels that are open. -/
theorem Arranged.dedents_le_depth (h : Arranged signs)
    (hpoint : Point signs pre (List.replicate n dedent ++ rest) depth start) : n ≤ depth := by
  have hdepth := hpoint.depth_eq
  have hle := h.dedents_le (pre ++ List.replicate n dedent) ⟨rest, by simp [hpoint.split]⟩
  rw [List.countP_append, List.countP_append, countP_isDedent_dedents,
    countP_isIndent_dedents] at hle
  omega

/-- Dedents at the end close every level that is open. -/
theorem Arranged.depth_eq_dedents (h : Arranged signs)
    (hpoint : Point signs pre (List.replicate n dedent) depth start) : depth = n := by
  have hdepth := hpoint.depth_eq
  have hbalanced := h.balanced
  rw [hpoint.split, List.countP_append, List.countP_append, countP_isDedent_dedents,
    countP_isIndent_dedents] at hbalanced
  omega

end Arranged

/-- From every such point on, an arranged row is laid out. -/
theorem Arranged.laid_from {signs : List Sign} (h : Arranged signs) (rest : List Sign) :
    ∀ {pre : List Sign} {depth : Nat} {start : Bool}, Point signs pre rest depth start →
      Laid depth start rest := by
  induction hn : rest.length using Nat.strong_induction_on generalizing rest with
  | _ n ih =>
  intro pre depth start hpoint
  cases rest with
  | nil =>
    obtain rfl : depth = 0 := h.depth_eq_dedents hpoint
    exact .closed 0 start
  | cons x rest =>
    have hfits := h.fits x (by simp [hpoint.split])
    obtain ⟨hindent, hdedent⟩ := h.inPlace pre x rest hpoint.split
    rw [List.length_cons] at hn
    by_cases hnewline : x.kind = .newline
    · obtain rfl := hfits.eq_newline hnewline
      exact .lineEnd start (ih _ (by omega) rest rfl (hpoint.pass [] depth (by decide) rfl))
    by_cases hi : x.kind = .indent
    · obtain rfl := hfits.eq_indent hi
      obtain ⟨hline, y, later, rfl, hy⟩ := hindent rfl
      obtain rfl := hpoint.start_iff.2 hline
      have hnext := ih _ (by simp at hn; omega) later rfl
        (hpoint.pass [indent] (depth + 1) hy.counts rfl)
      rw [decide_eq_false hy.ne.1] at hnext
      exact .indented hy hnext
    by_cases hd : x.kind = .dedent
    · obtain rfl := hfits.eq_dedent hd
      rcases hdedent rfl with hall | ⟨earlier, i, j, y, later, hpre, rfl, hy⟩
      · have hrun : dedent :: rest = List.replicate (rest.length + 1) dedent := by
          rw [List.replicate_succ, ← List.eq_replicate_of_mem hall]
        rw [hrun] at hpoint ⊢
        obtain rfl := h.depth_eq_dedents hpoint
        exact .closed _ start
      · obtain rfl := hpoint.startsLine_of_dedents hpre
        rw [← List.cons_append, ← List.replicate_succ] at hpoint ⊢
        obtain ⟨level, rfl⟩ := Nat.exists_eq_add_of_le' (h.dedents_le_depth hpoint)
        have hnext := ih _ (by simp at hn; omega) later rfl
          (hpoint.pass _ level hy.counts
            (by simp [countP_isDedent_dedents, countP_isIndent_dedents]))
        rw [decide_eq_false hy.ne.1] at hnext
        exact .dedented (j + 1) hy hnext
    · have hx : x.Ordinary := ⟨hnewline, hi, hd⟩
      have hnext := ih _ (by omega) rest rfl (hpoint.pass [] depth hx.counts rfl)
      rw [decide_eq_false hx.ne.1] at hnext
      cases start with
      | true => exact .dedented 0 hx hnext
      | false => exact .ordinary hx hnext

theorem Arranged.laid {signs : List Sign} (h : Arranged signs) : Laid 0 true signs := by
  have hstart : Point signs [] signs 0 true :=
    ⟨rfl, by simp, rfl, ⟨fun _ => .inl rfl, fun _ => rfl⟩⟩
  exact h.laid_from signs hstart

namespace Scan

variable {s last : Scan} {text : List Char} {us : List Token}

theorem close_signs (s : Scan) : s.close.map Token.sign = List.replicate s.depth dedent := by
  simp [close, Token.sign, dedent]

theorem shift_signs_of_lt {depth level : Nat} (h : depth < level) (p : Position) :
    (Layout.shift depth level p).map Token.sign = [indent] := by
  simp [Layout.shift, h, Token.sign, indent]

theorem shift_signs_of_le {level n : Nat} (p : Position) :
    (Layout.shift (level + n) level p).map Token.sign = List.replicate n dedent := by
  rw [Layout.shift, if_neg (by omega), Nat.add_sub_cancel_left, List.map_replicate]
  rfl

/-- A line with content, after the levels that lead to it. -/
theorem laid_shift {depth level : Nat} {x : Sign} {rest : List Sign} (hle : level ≤ depth + 1)
    (p : Position) (hx : x.Ordinary) (h : Laid level false rest) :
    Laid depth true ((Layout.shift depth level p).map Token.sign ++ x :: rest) := by
  rcases Nat.lt_or_ge depth level with hlt | hge
  · obtain rfl : level = depth + 1 := by omega
    rw [shift_signs_of_lt hlt]
    exact .indented hx h
  · obtain ⟨n, rfl⟩ := Nat.exists_eq_add_of_le hge
    rw [shift_signs_of_le]
    exact .dedented n hx h

theorem fits_of_mem_shift {depth level : Nat} {p : Position} {t : Token}
    (h : t ∈ Layout.shift depth level p) : t.sign.Fits := by
  unfold Layout.shift at h
  split at h
  · rw [List.mem_singleton.1 h]
    rfl
  · rw [List.eq_of_mem_replicate h]
    rfl

/-- After the head of a line with content an ordinary token comes next. -/
theorem Reaches.exists_ordinary {h : Layout.Head} (hr : Layout.readHead s.cursor.rest = .ok h)
    (he : h.isEmpty = false) {inside : Scan} (hl : inside.lineStart = false)
    (hrest : inside.cursor.rest = h.rest) (hto : Reaches inside text us last)
    (hlast : last.cursor.rest = []) : ∃ token later, us = token :: later ∧ token.sign.Ordinary := by
  obtain ⟨-, -, hbare⟩ := Layout.readHead_sound hr
  obtain ⟨blanks, comments, rest⟩ := h
  cases rest with
  | nil => simp [Layout.Head.isEmpty] at he
  | cons c more =>
    obtain ⟨hc, hopen⟩ := hbare c rfl
    simp only [Layout.Head.isEmpty, Layout.isBlank, Bool.or_eq_false_iff, beq_eq_false_iff_ne]
      at he hc
    let line : ContentLine (c :: more) [] :=
      ⟨[], [], [], c, more, rfl, .inl rfl, by simp, .nil, hc.1, hc.2, hopen, he.1, he.2⟩
    obtain ⟨token, later, hus, ⟨hlevel, hkind⟩, -⟩ := line.exists_token hl hrest hto hlast
    refine ⟨token, later, hus, hkind, ?_⟩
    simpa [Token.isLevel, Token.isIndent, Token.isDedent, Token.sign] using hlevel

/-- The tokens from a scan to the end of its text are laid out in lines. -/
theorem Reaches.laid (h : Reaches s text us last) (hlast : last.cursor.rest = []) :
    Laid s.depth s.lineStart ((us ++ last.close).map Token.sign) := by
  induction h with
  | refl s =>
    rw [List.nil_append, close_signs]
    exact .closed _ _
  | head hm hr ih =>
    have hnext := ih hlast
    cases hm.effect with
    | emptyHead hl _ _ =>
      rw [hl]
      exact hnext.of_inside
    | gap hl _ _ _ =>
      rw [hl]
      exact hnext
    | @lexeme _ _ kind _ hl _ ht =>
      rw [hl]
      by_cases hk : kind = .newline
      · subst hk
        obtain rfl := congrArg Sign.text (ht.fits.eq_newline rfl)
        exact .lineEnd false hnext
      · rw [beq_false_of_ne hk] at hnext
        exact .ordinary ⟨hk, ht.kind_ne⟩ hnext
    | @lineHead head level hl hhead he hd =>
      obtain ⟨-, -, hle⟩ := Layout.level_ok hd
      obtain ⟨token, later, rfl, htoken⟩ := hr.exists_ordinary hhead he rfl rfl hlast
      rw [hl, List.append_assoc, List.map_append]
      exact laid_shift hle _ htoken (hnext.tail_of_ordinary htoken)

/-- Every token of a scan has a text that fits its kind. -/
theorem Reaches.fits (h : Reaches s text us last) : ∀ t ∈ us, t.sign.Fits := by
  induction h with
  | refl => simp
  | head hm _ ih =>
    intro t ht
    rcases List.mem_append.1 ht with ht | ht
    · cases hm.effect with
      | emptyHead _ _ _ | gap _ _ _ _ => simp at ht
      | lexeme _ _ hs =>
        obtain rfl := List.mem_singleton.1 ht
        exact hs.fits
      | lineHead _ _ _ _ => exact fits_of_mem_shift ht
    · exact ih t ht

end Scan

theorem countP_isIndent_sign (ts : List Token) :
    (ts.map Token.sign).countP isIndent = ts.countP Token.isIndent := List.countP_map ..

theorem countP_isDedent_sign (ts : List Token) :
    (ts.map Token.sign).countP isDedent = ts.countP Token.isDedent := List.countP_map ..

/-- The tokens of a text are arranged. -/
theorem arranged_of_tokenize {source : String} {ts : List Token} (h : tokenize source = .ok ts) :
    Arranged (ts.map Token.sign) := by
  obtain ⟨us, last, hrun, hlast, rfl⟩ := exists_reaches_of_tokenize h
  have hlaid : Laid 0 true ((us ++ last.close).map Token.sign) := hrun.laid hlast
  have hnests : Nests 0 (us ++ last.close) 0 := hrun.nests.append (Scan.nests_close last)
  constructor
  · intro x hx
    obtain ⟨t, ht, rfl⟩ := List.mem_map.1 hx
    rcases List.mem_append.1 ht with ht | ht
    · exact hrun.fits t ht
    · rw [List.eq_of_mem_replicate ht]
      rfl
  · simpa [Laid.Placed] using hlaid.placed [] fun _ => .inl ⟨rfl, rfl⟩
  · intro pre hpre
    rw [List.prefix_iff_eq_take.1 hpre, ← List.map_take, countP_isDedent_sign,
      countP_isIndent_sign]
    simpa using hnests.dedents_le _ (List.take_prefix pre.length _)
  · rw [countP_isDedent_sign, countP_isIndent_sign]
    simpa using hnests.total.symm

end Offside
