import Offside.Proofs.Token.Course

/-!
Levels in the token list. Indents and dedents nest, and before the first token of a line with
content their difference is the level of that line: the width of its leading blanks over four. A
line is described by its place in the text alone, and the course of the scan is shown to stand at
its start. Between two such lines with none in between the level does not change, so a line is at
most one level deeper than the one before it.
-/
namespace Offside

/-- The tokens lead from one level to another, and dedents close only levels that are open. -/
structure Nests (depth : Nat) (ts : List Token) (final : Nat) : Prop where
  total : depth + ts.countP Token.isIndent = final + ts.countP Token.isDedent
  dedents_le : ∀ pre, pre <+: ts → pre.countP Token.isDedent ≤ depth + pre.countP Token.isIndent

namespace Nests

theorem of_dedents_le {depth final : Nat} {ts : List Token}
    (htotal : depth + ts.countP Token.isIndent = final + ts.countP Token.isDedent)
    (hle : ts.countP Token.isDedent ≤ depth) : Nests depth ts final := by
  refine ⟨htotal, fun pre hpre => ?_⟩
  have hpart := hpre.sublist.countP_le (p := Token.isDedent)
  omega

theorem nil (depth : Nat) : Nests depth [] depth :=
  of_dedents_le rfl (Nat.zero_le depth)

theorem append {depth mid final : Nat} {ts us : List Token} (h : Nests depth ts mid)
    (h' : Nests mid us final) : Nests depth (ts ++ us) final := by
  have htotal := h.total
  refine ⟨?_, fun pre hpre => ?_⟩
  · have htotal' := h'.total
    simp only [List.countP_append]
    omega
  · obtain ⟨rest, hrest⟩ := hpre
    rcases List.append_eq_append_iff.1 hrest with ⟨more, hts, -⟩ | ⟨more, hpre, hus⟩
    · exact h.dedents_le pre ⟨more, hts.symm⟩
    · have hmore := h'.dedents_le more ⟨rest, hus.symm⟩
      simp only [hpre, List.countP_append]
      omega

/-- A token that is neither an indent nor a dedent keeps the level. -/
theorem other {t : Token} (h : t.isLevel = false) (depth : Nat) : Nests depth [t] depth := by
  obtain ⟨hi, hd⟩ := Bool.or_eq_false_iff.1 h
  exact of_dedents_le (by simp [hi, hd]) (by simp [hd])

theorem indent (depth : Nat) (p : Position) : Nests depth [⟨.indent, p, none⟩] (depth + 1) :=
  of_dedents_le rfl (Nat.zero_le depth)

theorem dedents {depth final : Nat} (h : final ≤ depth) (p : Position) :
    Nests depth (List.replicate (depth - final) ⟨.dedent, p, none⟩) final := by
  apply of_dedents_le
  · simp [List.countP_replicate, Token.isIndent, Token.isDedent]
    omega
  · simp [List.countP_replicate, Token.isDedent]

end Nests

namespace Layout

theorem level_ok {depth width final : Nat} (h : level depth width = .ok final) :
    4 ∣ width ∧ final = width / 4 ∧ final ≤ depth + 1 := by
  unfold level at h
  split at h
  · cases h
  · split at h
    · cases h
    · rename_i hwhole hdeep
      simp only [indentUnit, Except.ok.injEq] at h hwhole hdeep
      omega

theorem nests_shift {depth final : Nat} (h : final ≤ depth + 1) (p : Position) :
    Nests depth (shift depth final p) final := by
  unfold shift
  split
  · obtain rfl : final = depth + 1 := by omega
    exact .indent depth p
  · exact .dedents (by omega) p

theorem width_eq {blanks : List Char} (h : ∀ c ∈ blanks, isBlank c) :
    width blanks = blanks.count ' ' + 4 * blanks.count '\t' := by
  induction blanks with
  | nil => rfl
  | cons c blanks ih =>
    have hc : c = ' ' ∨ c = '\t' := by simpa [isBlank] using h c List.mem_cons_self
    rw [width, ih fun d hd => h d (List.mem_cons_of_mem c hd)]
    rcases hc with rfl | rfl
    · simp
      omega
    · simp [tabWidth]
      omega

end Layout

namespace Scan

variable {s t next last : Scan} {text : List Char} {ts : List Token}

theorem Moves.nests (h : Moves s text ts next) : Nests s.depth ts next.depth := by
  cases h.effect with
  | emptyHead _ _ _ => exact .nil _
  | lineHead _ _ _ hd => exact Layout.nests_shift (Layout.level_ok hd).2.2 _
  | gap _ _ _ _ => exact .nil _
  | lexeme _ _ ht =>
    exact .other (ht.isLevel_eq _) _

theorem Reaches.nests (h : Reaches s text ts t) : Nests s.depth ts t.depth := by
  induction h with
  | refl => exact .nil _
  | head hm _ ih => exact hm.nests.append ih

theorem nests_close (s : Scan) : Nests s.depth s.close 0 := by
  exact Nests.dedents (Nat.zero_le s.depth) s.cursor.position

/-- Every token that is no level stands before the place that the scan has reached. -/
theorem Reaches.position_lt {source : String} (h : Reaches (start source) text ts t) :
    ∀ u ∈ ts, u.isLevel = false → u.position < t.cursor.position := by
  refine h.invariant (fun _ us s => ∀ u ∈ us, u.isLevel = false → u.position < s.cursor.position)
    (by simp) ?_
  intro w us mid v vs next _ hmid hm u hu hlevel
  rcases List.mem_append.1 hu with hu | hu
  · rw [hm.position_eq]
    exact (hmid u hu hlevel).trans_le (Position.le_after _ v)
  · cases hm.effect with
    | emptyHead _ _ _ => simp at hu
    | lineHead _ _ _ _ => simp [(Layout.of_mem_shift hu).1] at hlevel
    | gap _ _ _ _ => simp at hu
    | lexeme _ _ ht =>
      rw [List.mem_singleton.1 hu]
      exact Position.lt_after _ ht.ne_nil

theorem isLevel_eq_false_of_newline {x : Token} (hx : x.kind = .newline) : x.isLevel = false := by
  simp [Token.isLevel, Token.isIndent, Token.isDedent, hx]

/-- A move that gives a newline token takes a line feed and leads to the start of a line. -/
theorem Moves.newline (h : Moves s text ts next) {x : Token} (hx : x ∈ ts)
    (hk : x.kind = .newline) :
    text = ['\n'] ∧ x.position = s.cursor.position ∧ next.lineStart = true := by
  have hlevel := isLevel_eq_false_of_newline hk
  cases h.effect with
  | emptyHead _ _ _ => simp at hx
  | lineHead _ _ _ _ => simp [(Layout.of_mem_shift hx).1] at hlevel
  | gap _ _ _ _ => simp at hx
  | lexeme _ _ ht =>
    obtain rfl := List.mem_singleton.1 hx
    dsimp only at hk
    subst hk
    exact ⟨ht.eq_of_newline, rfl, rfl⟩

/-- A newline token was given by a scan that then stood at the start of a line. -/
theorem Reaches.exists_lineStart {source : String} (h : Reaches (start source) text ts t) :
    ∀ x ∈ ts, x.kind = .newline → ∃ shorter us s, Reaches (start source) (shorter ++ ['\n']) us s ∧
      s.lineStart = true ∧ x.position = Position.ofText shorter := by
  refine h.invariant (fun _ ts _ => ∀ x ∈ ts, x.kind = .newline → ∃ shorter us s,
    Reaches (start source) (shorter ++ ['\n']) us s ∧ s.lineStart = true ∧
      x.position = Position.ofText shorter) (by simp) ?_
  intro w us mid v vs next hreach hmid hm x hx hk
  rcases List.mem_append.1 hx with hx | hx
  · exact hmid x hx hk
  · obtain ⟨rfl, hposition, hl⟩ := hm.newline hx hk
    have hplace := hposition.trans hreach.position_start
    exact ⟨w, us ++ vs, next, hreach.trans (.single hm), hl, hplace⟩

/-- A scan stands at the start of a line only at the start of the text and after newlines. -/
theorem Reaches.lineStart_cases {source : String} (h : Reaches (start source) text ts t)
    (hl : t.lineStart = true) : text = [] ∨ ∃ shorter x, text = shorter ++ ['\n'] ∧ x ∈ ts ∧
      x.kind = .newline ∧ x.position = Position.ofText shorter := by
  revert hl
  refine h.invariant (fun text ts t => t.lineStart = true → text = [] ∨ ∃ shorter x,
    text = shorter ++ ['\n'] ∧ x ∈ ts ∧ x.kind = .newline ∧ x.position = Position.ofText shorter)
    (fun _ => .inl rfl) ?_
  intro w us mid v vs next hreach _ hm hl
  cases hm.effect with
  | emptyHead _ _ _ | lineHead _ _ _ _ | gap _ _ _ _ => simp at hl
  | lexeme _ _ ht =>
    obtain rfl := beq_iff_eq.1 hl
    rw [ht.eq_of_newline]
    exact .inr ⟨w, _, rfl, List.mem_append_right us List.mem_cons_self, rfl, hreach.position_start⟩

end Scan

/-- A line that holds more than blanks and comments. It starts with the text, or right after the
line feed of a newline token. -/
structure ContentLine (source : List Char) (ts : List Token) where
  before : List Char
  blanks : List Char
  comments : List Char
  first : Char
  more : List Char
  source_eq : source = before ++ (blanks ++ comments ++ first :: more)
  starts : before = [] ∨ ∃ shorter t, before = shorter ++ ['\n'] ∧ t ∈ ts ∧ t.kind = .newline ∧
    t.position = Position.ofText shorter
  blank : ∀ c ∈ blanks, c = ' ' ∨ c = '\t'
  commented : Commented comments
  content : first ≠ ' ' ∧ first ≠ '\t' ∧ first ≠ '\x7b' ∧ first ≠ '\n' ∧ first ≠ '\r'

namespace ContentLine

variable {source : List Char} {ts : List Token}

/-- The columns that the leading blanks cover. -/
def width (l : ContentLine source ts) : Nat := l.blanks.count ' ' + 4 * l.blanks.count '\t'

def level (l : ContentLine source ts) : Nat := l.width / 4

/-- The weight of a scan that stands at the start of the line. -/
def weight (l : ContentLine source ts) : Nat :=
  2 * (l.blanks ++ l.comments ++ l.first :: l.more).length + 1

/-- Lighter lines come later. -/
theorem weight_lt_iff (l m : ContentLine source ts) :
    m.weight < l.weight ↔ l.before.length < m.before.length := by
  have hl := congrArg List.length l.source_eq
  have hm := congrArg List.length m.source_eq
  rw [List.length_append] at hl hm
  unfold weight
  omega

/-- The line with content that comes just before `l`. -/
def IsPrevious (prev l : ContentLine source ts) : Prop :=
  prev.before.length < l.before.length ∧ ∀ m : ContentLine source ts,
    m.before.length ≤ prev.before.length ∨ l.before.length ≤ m.before.length

/-- The text before the first character of the content. -/
def lead (l : ContentLine source ts) : List Char := l.before ++ (l.blanks ++ l.comments)

theorem isBlank_of_mem (l : ContentLine source ts) : ∀ c ∈ l.blanks, Layout.isBlank c := by
  intro c hc
  rcases l.blank c hc with rfl | rfl <;> rfl

theorem readHead_eq (l : ContentLine source ts) :
    Layout.readHead (l.blanks ++ l.comments ++ l.first :: l.more) =
      .ok ⟨l.blanks, l.comments, l.first :: l.more⟩ := by
  refine Layout.readHead_append l.isBlank_of_mem l.commented ?_
  intro c hc
  obtain rfl : l.first = c := by simpa using hc
  simp [Layout.isBlank, l.content]

end ContentLine

open Scan

/-- The scan at the start of a line and the scan inside it, with the tokens up to the line and the
first token of its content. -/
structure Entered (source : String) (us : List Token) {ts : List Token}
    (l : ContentLine source.toList ts) where
  done : List Token
  outside : Scan
  inside : Scan
  token : Token
  later : List Token
  reaches : Reaches (Scan.start source) l.before done outside
  moves : Moves outside (l.blanks ++ l.comments)
    (Layout.shift outside.depth l.level outside.cursor.position) inside
  depth_eq : inside.depth = l.level
  weight_eq : outside.weight = l.weight
  dvd_width : 4 ∣ l.width
  level_le : l.level ≤ outside.depth + 1
  tokens_eq : us = done ++
    (Layout.shift outside.depth l.level outside.cursor.position ++ token :: later)
  ordinary : token.isLevel = false ∧ token.kind ≠ .newline
  position_eq : token.position = Position.ofText l.lead

section

variable {source : String} {us : List Token} {last : Scan}

/-- A course passes through the place after every newline token that it gives, and a line starts
there. -/
theorem exists_after_newline {t : Token} {w shorter rest : List Char}
    (hrun : Reaches (Scan.start source) w us last) (hus : t ∈ us) (hk : t.kind = .newline)
    (hp : t.position = Position.ofText shorter) (hsource : source.toList = shorter ++ rest) :
    ∃ done outside, Reaches (Scan.start source) (shorter ++ ['\n']) done outside ∧
      outside.lineStart = true := by
  obtain ⟨shorter', done, outside, hreach, hl, hp'⟩ := hrun.exists_lineStart t hus hk
  have hsource' : source.toList = shorter' ++ ['\n'] ++ outside.cursor.rest := hreach.rest_eq
  rw [List.append_assoc] at hsource'
  -- One place is one point of the text, so the two line feeds are the same.
  have hplace : Position.start.after shorter' = Position.start.after shorter := by
    rw [Position.start_after, Position.start_after, ← hp', hp]
  obtain rfl := Position.eq_of_after_eq ⟨_, hsource'.symm⟩ ⟨_, hsource.symm⟩ hplace
  exact ⟨done, outside, hreach, hl⟩

/-- A course that gives the newlines of the tokens passes through the start of every line with
content. -/
theorem ContentLine.exists_outside {w : List Char} {ts : List Token}
    (hrun : Reaches (Scan.start source) w us last)
    (hts : ∀ t ∈ ts, t.kind = .newline → t ∈ us) (l : ContentLine source.toList ts) :
    ∃ done outside, Reaches (Scan.start source) l.before done outside ∧
      outside.lineStart = true ∧
      outside.cursor.rest = l.blanks ++ l.comments ++ l.first :: l.more := by
  have hstart : ∃ done outside, Reaches (Scan.start source) l.before done outside ∧
      outside.lineStart = true := by
    rcases l.starts with hnil | ⟨shorter, t, hbefore, ht, hk, hp⟩
    · rw [hnil]
      exact ⟨[], _, .refl _, rfl⟩
    · have hsource := l.source_eq
      rw [hbefore, List.append_assoc] at hsource
      rw [hbefore]
      exact exists_after_newline hrun (hts t ht hk) hk hp hsource
  obtain ⟨done, outside, hreach, hl⟩ := hstart
  have hsource : source.toList = l.before ++ outside.cursor.rest := hreach.rest_eq
  exact ⟨done, outside, hreach, hl, List.append_cancel_left (hsource.symm.trans l.source_eq)⟩

/-- A scan at the start of a line with content has its weight. -/
theorem ContentLine.weight_eq {outside : Scan} {chars : List Char} {ts : List Token}
    (l : ContentLine chars ts) (hl : outside.lineStart = true)
    (hrest : outside.cursor.rest = l.blanks ++ l.comments ++ l.first :: l.more) :
    outside.weight = l.weight := by
  simp only [Scan.weight, ContentLine.weight, hl, hrest, Bool.toNat_true]

/-- At the start of a line with content the next move passes its head and settles its level. -/
theorem ContentLine.exists_inside {outside : Scan} {chars : List Char} {ts vs : List Token}
    (l : ContentLine chars ts) {v : List Char} (hl : outside.lineStart = true)
    (hrest : outside.cursor.rest = l.blanks ++ l.comments ++ l.first :: l.more)
    (hto : Reaches outside v vs last) (hlast : last.cursor.rest = []) :
    ∃ inside v' vs', Moves outside (l.blanks ++ l.comments)
        (Layout.shift outside.depth l.level outside.cursor.position) inside ∧
      inside.depth = l.level ∧ inside.lineStart = false ∧
      inside.cursor.rest = l.first :: l.more ∧ 4 ∣ l.width ∧ l.level ≤ outside.depth + 1 ∧
      Reaches inside v' vs' last ∧
      vs = Layout.shift outside.depth l.level outside.cursor.position ++ vs' := by
  cases hto with
  | refl => simp [hrest] at hlast
  | @head _ inside _ text v' now vs' hm hr =>
    cases hm.effect with
    | gap hl' _ _ _ => simp [hl] at hl'
    | lexeme hl' _ _ => simp [hl] at hl'
    | emptyHead _ hhead he =>
      rw [hrest, l.readHead_eq] at hhead
      cases hhead
      simp [Layout.Head.isEmpty, l.content] at he
    | lineHead _ hhead _ hd =>
      rw [hrest, l.readHead_eq] at hhead
      cases hhead
      obtain ⟨hdvd, hfinal, hle⟩ := Layout.level_ok hd
      rw [Layout.width_eq l.isBlank_of_mem] at hdvd hfinal
      subst hfinal
      exact ⟨_, v', vs', hm, rfl, rfl, rfl, hdvd, hle, hr, rfl⟩

/-- Inside a line with content the next token is the one that its first character starts. -/
theorem ContentLine.exists_token {inside : Scan} {chars : List Char} {ts vs : List Token}
    (l : ContentLine chars ts) {v : List Char} (hl : inside.lineStart = false)
    (hrest : inside.cursor.rest = l.first :: l.more) (hto : Reaches inside v vs last)
    (hlast : last.cursor.rest = []) :
    ∃ token later, vs = token :: later ∧ (token.isLevel = false ∧ token.kind ≠ .newline) ∧
      token.position = inside.cursor.position := by
  have hcontent := l.content
  cases hto with
  | refl => simp [hrest] at hlast
  | head hm hr =>
    cases hm.effect with
    | emptyHead hl' _ _ => simp [hl] at hl'
    | lineHead hl' _ _ _ => simp [hl] at hl'
    | gap _ htext hne ht =>
      obtain ⟨c, text, rfl⟩ := List.exists_cons_of_ne_nil hne
      obtain ⟨rfl, -⟩ := List.cons.inj (hrest.symm.trans htext)
      have hhead := ht.head
      tauto
    | lexeme _ htext ht =>
      refine ⟨_, _, rfl, ⟨ht.isLevel_eq _, ?_⟩, rfl⟩
      rintro rfl
      rw [ht.eq_of_newline] at htext
      obtain ⟨hfirst, -⟩ := List.cons.inj (hrest.symm.trans htext)
      tauto

/-- A head that settles a level is the head of a line with content. -/
theorem exists_contentLine {mid : Scan} {w : List Char} {done ts : List Token} {h : Layout.Head}
    (hreach : Reaches (Scan.start source) w done mid) (hl : mid.lineStart = true)
    (hr : Layout.readHead mid.cursor.rest = .ok h) (he : h.isEmpty = false)
    (hts : ∀ t ∈ done, t ∈ ts) :
    ∃ m : ContentLine source.toList ts, m.before = w ∧ m.blanks = h.blanks ∧
      m.weight = mid.weight := by
  obtain ⟨hblank, hcommented, hbare⟩ := Layout.readHead_sound hr
  have hsplit := Layout.readHead_split hr
  have hsource : source.toList = w ++ mid.cursor.rest := hreach.rest_eq
  obtain ⟨blanks, comments, rest⟩ := h
  dsimp only at hblank hcommented hbare hsplit
  cases rest with
  | nil => simp [Layout.Head.isEmpty] at he
  | cons c more =>
    obtain ⟨hc, hopen⟩ := hbare c rfl
    simp only [Layout.Head.isEmpty, Layout.isBlank, Bool.or_eq_false_iff, beq_eq_false_iff_ne]
      at he hc
    refine ⟨⟨w, blanks, comments, c, more, by rw [hsplit, hsource], ?_, ?_, hcommented, ?_⟩, rfl,
      rfl, ?_⟩
    · rcases hreach.lineStart_cases hl with hnil | ⟨shorter, x, hw, hx, hk, hp⟩
      · exact .inl hnil
      · exact .inr ⟨shorter, x, hw, hts x hx, hk, hp⟩
    · intro d hd
      simpa [Layout.isBlank] using hblank d hd
    · exact ⟨hc.1, hc.2, hopen, he.1, he.2⟩
    · simp only [ContentLine.weight, Scan.weight, hsplit, hl, Bool.toNat_true]

variable (hrun : Reaches (Scan.start source) source.toList us last)
  (hlast : last.cursor.rest = [])

include hrun hlast in
/-- The scan enters every line with content. -/
theorem ContentLine.entered (l : ContentLine source.toList (us ++ last.close)) :
    Nonempty (Entered source us l) := by
  have hnewline : ∀ t ∈ us ++ last.close, t.kind = .newline → t ∈ us := by
    intro t ht hk
    rcases List.mem_append.1 ht with hus | hclose
    · exact hus
    · have hlevel := isLevel_eq_false_of_newline hk
      simp [(of_mem_close hclose).1] at hlevel
  obtain ⟨done, outside, hreach, hl, hrest⟩ := l.exists_outside hrun hnewline
  obtain ⟨v, vs, hto, -, hus⟩ := hreach.to_end hrun hlast
  obtain ⟨inside, v', vs', hm, hdepth, hinside, hrest', hdvd, hle, hto', hvs⟩ :=
    l.exists_inside hl hrest hto hlast
  obtain ⟨token, later, hvs', hordinary, hposition⟩ := l.exists_token hinside hrest' hto' hlast
  refine ⟨⟨done, outside, inside, token, later, hreach, hm, hdepth, l.weight_eq hl hrest, hdvd,
    hle, ?_, hordinary, ?_⟩⟩
  · rw [hvs, hvs'] at hus
    exact hus
  · rw [hposition, (hreach.trans (.single hm)).position_start, ContentLine.lead]

include hrun hlast in
/-- From one scan to a later one the level stays the same, unless a line with content starts in
between. -/
theorem depth_eq_or_exists_contentLine {a b : Scan} {w v : List Char} {done vs : List Token}
    (hreach : Reaches (Scan.start source) w done a) (hto : Reaches a v vs b) :
    b.depth = a.depth ∨ ∃ m : ContentLine source.toList (us ++ last.close),
      m.weight ≤ a.weight ∧ b.weight < m.weight := by
  have hinv : b.weight ≤ a.weight ∧ (b.depth = a.depth ∨
      ∃ m : ContentLine source.toList (us ++ last.close),
        m.weight ≤ a.weight ∧ b.weight < m.weight) := by
    refine hto.invariant (fun _ _ b => b.weight ≤ a.weight ∧ (b.depth = a.depth ∨
      ∃ m : ContentLine source.toList (us ++ last.close),
        m.weight ≤ a.weight ∧ b.weight < m.weight)) ⟨le_rfl, .inl rfl⟩ ?_
    rintro w' us' mid v' vs' next hmid ⟨hle, hdepth⟩ hm
    have hlt := step_weight_lt hm.rest_ne_nil hm.step_eq
    refine ⟨by omega, ?_⟩
    rcases hdepth with hdepth | ⟨m, hma, hbm⟩
    · cases hm.effect with
      | emptyHead _ _ _ | gap _ _ _ _ | lexeme _ _ _ => exact .inl hdepth
      | lineHead hl hr he _ =>
        have hthere := hreach.trans hmid
        obtain ⟨more, after, -, -, hus⟩ := hthere.to_end hrun hlast
        have hdone : ∀ t ∈ done ++ us', t ∈ us ++ last.close := by
          intro t ht
          rw [hus]
          exact List.mem_append_left _ (List.mem_append_left _ ht)
        obtain ⟨m, -, -, hweight⟩ := exists_contentLine hthere hl hr he hdone
        exact .inr ⟨m, by omega, by omega⟩
    · exact .inr ⟨m, hma, by omega⟩
  exact hinv.2

include hrun hlast in
theorem ContentLine.level_le_of_isPrevious {prev l : ContentLine source.toList (us ++ last.close)}
    (h : prev.IsPrevious l) : l.level ≤ prev.level + 1 := by
  obtain ⟨e⟩ := prev.entered hrun hlast
  obtain ⟨f⟩ := l.entered hrun hlast
  have hshort := h.1
  have hpath : ∃ v vs, Reaches e.inside v vs f.outside := by
    rcases e.reaches.linear f.reaches with ⟨v, vs, hto, hv, -⟩ | ⟨v, vs, -, hv, -⟩
    · refine hto.of_moves ?_ e.moves
      rintro rfl
      simp [hv] at hshort
    · rw [hv, List.length_append] at hshort
      omega
  obtain ⟨v, vs, hto⟩ := hpath
  have hle := f.level_le
  rcases depth_eq_or_exists_contentLine hrun hlast (e.reaches.trans (.single e.moves)) hto with
    hdepth | ⟨m, hafter, hbefore⟩
  · rw [hdepth, e.depth_eq] at hle
    exact hle
  · -- A line between the two would come after `prev` and before `l`.
    have hlt := step_weight_lt e.moves.rest_ne_nil e.moves.step_eq
    have hprev := (prev.weight_lt_iff m).1 (by rw [← e.weight_eq]; omega)
    have hnext := (m.weight_lt_iff l).1 (by rw [← f.weight_eq]; exact hbefore)
    rcases h.2 m with hm | hm <;> omega

include hrun hlast in
theorem ContentLine.level_le_one (l : ContentLine source.toList (us ++ last.close))
    (hfirst : ∀ m : ContentLine source.toList (us ++ last.close),
      l.before.length ≤ m.before.length) : l.level ≤ 1 := by
  obtain ⟨f⟩ := l.entered hrun hlast
  have hle := f.level_le
  rcases depth_eq_or_exists_contentLine hrun hlast (.refl _) f.reaches with
    hdepth | ⟨m, -, hbefore⟩
  · rwa [hdepth] at hle
  · have hnext := (m.weight_lt_iff l).1 (by rw [← f.weight_eq]; exact hbefore)
    have hm := hfirst m
    omega

end

/-- Indents and dedents nest over the tokens of a text, and close. A line with content is a whole
number of levels deep, at most one more than the line with content before it, and this is the
number of levels open before its first token. -/
theorem levels_of_tokenize {source : String} {ts : List Token} (h : tokenize source = .ok ts) :
    (∀ pre, pre <+: ts → pre.countP Token.isDedent ≤ pre.countP Token.isIndent) ∧
    ts.countP Token.isDedent = ts.countP Token.isIndent ∧
    ∀ l : ContentLine source.toList ts,
      4 ∣ l.width ∧
      (∃ pre token post, ts = pre ++ token :: post ∧
        token.isLevel = false ∧ token.kind ≠ .newline ∧
        token.position = Position.ofText l.lead ∧
        (∀ u ∈ pre, u.isLevel = false → u.position < Position.ofText l.before) ∧
        pre.countP Token.isIndent = pre.countP Token.isDedent + l.level) ∧
      (∀ prev : ContentLine source.toList ts, prev.IsPrevious l → l.level ≤ prev.level + 1) ∧
      ((∀ m : ContentLine source.toList ts, l.before.length ≤ m.before.length) →
        l.level ≤ 1) := by
  obtain ⟨us, last, hrun, hlast, rfl⟩ := exists_reaches_of_tokenize h
  have hnests : Nests 0 (us ++ last.close) 0 := hrun.nests.append (nests_close last)
  refine ⟨fun pre hpre => ?_, ?_, fun l => ?_⟩
  · simpa using hnests.dedents_le pre hpre
  · simpa using hnests.total.symm
  · obtain ⟨e⟩ := l.entered hrun hlast
    refine ⟨e.dvd_width, ?_, fun prev hprev => ContentLine.level_le_of_isPrevious hrun hlast hprev,
      l.level_le_one hrun hlast⟩
    have hinside := e.reaches.trans (.single e.moves)
    refine ⟨e.done ++ Layout.shift e.outside.depth l.level e.outside.cursor.position, e.token,
      e.later ++ last.close, ?_, e.ordinary.1, e.ordinary.2, e.position_eq, ?_, ?_⟩
    · have htokens := congrArg (· ++ last.close) e.tokens_eq
      simpa using htokens
    · intro u hu hlevel
      rcases List.mem_append.1 hu with hu | hu
      · rw [← e.reaches.position_start]
        exact e.reaches.position_lt u hu hlevel
      · simp [(Layout.of_mem_shift hu).1] at hlevel
    · have htotal := hinside.nests.total
      rw [e.depth_eq] at htotal
      rw [Nat.add_comm]
      simpa [Scan.start] using htotal

/-- A line one level deep, with a comment before its first token. -/
def looped : String := "loop\n\t\x7bin\x7dx"

def loopedTokens : List Token :=
  [⟨.keyLoop, ⟨1, 0⟩, none⟩, ⟨.newline, ⟨1, 4⟩, none⟩, ⟨.indent, ⟨2, 0⟩, none⟩,
    ⟨.word, ⟨2, 8⟩, some "x"⟩, ⟨.dedent, ⟨2, 9⟩, none⟩]

def loopedLine : ContentLine looped.toList loopedTokens where
  before := ['l', 'o', 'o', 'p', '\n']
  blanks := ['\t']
  comments := ['\x7b', 'i', 'n', '\x7d']
  first := 'x'
  more := []
  source_eq := by decide
  starts := .inr ⟨['l', 'o', 'o', 'p'], ⟨.newline, ⟨1, 4⟩, none⟩, rfl, by decide, rfl, by decide⟩
  blank := by simp
  commented := @Commented.cons ['i', 'n'] [] [] (by decide) (by simp) .nil
  content := by decide

theorem levels_of_tokenize_looped : tokenize looped = .ok loopedTokens ∧ loopedLine.level = 1 ∧
    ∃ pre token post, loopedTokens = pre ++ token :: post ∧ token.position = ⟨2, 8⟩ ∧
      pre.countP Token.isIndent = pre.countP Token.isDedent + 1 := by
  have h : tokenize looped = .ok loopedTokens := by decide +kernel
  obtain ⟨-, -, hlines⟩ := levels_of_tokenize h
  obtain ⟨-, ⟨pre, token, post, hsplit, -, -, hposition, -, hcount⟩, -⟩ := hlines loopedLine
  exact ⟨h, rfl, pre, token, post, hsplit, hposition, hcount⟩

end Offside
