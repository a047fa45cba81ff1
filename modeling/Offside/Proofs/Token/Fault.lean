import Offside.Proofs.Token.Indentation
import Offside.Proofs.Token.Lexemes

/-!
Why a text has no tokens. A scan that fails has come to some point of the text, and everything
before this point is trivia and whole lexemes. The error names the point, and what stands there
explains it: a character that starts no token, a literal or a comment that is never closed, or a
line whose indentation is no whole number of levels or goes too deep.
-/
namespace Offside

/-- The text ends with an odd number of backslashes, so the character after it is escaped. -/
def EndsEscaped (text : List Char) : Prop := (text.rtakeWhile (· = '\\')).length % 2 = 1

/-- The first half of a symbol of two characters, without the second. -/
def IsLone (c : Char) (more : List Char) : Prop :=
  c = '&' ∧ more.head? ≠ some '&' ∨ c = '|' ∧ more.head? ≠ some '|' ∨
    c = '!' ∧ more.head? ≠ some '='

/-- No token and no trivia starts with the character. -/
def StartsNothing (c : Char) : Prop :=
  ∀ text, ¬Trivia (c :: text) ∧ ∀ kind value, ¬Spells (c :: text) kind value

/-- The level that the text has before a line: the level of the last line with content, or none if
there is no such line. -/
def ContentLine.Follows {source : List Char} {ts : List Token} (l : ContentLine source ts)
    (level : Nat) : Prop :=
  (∃ prev : ContentLine source ts, prev.IsPrevious l ∧ level = prev.level) ∨
    (∀ m : ContentLine source ts, l.before.length ≤ m.before.length) ∧ level = 0

/-- What stands at the point of a fault: the text `before` has the tokens `ts`, and `rest` comes
after it. -/
def LexicalFault.Explained (before rest : List Char) (ts : List Token) : LexicalFault → Prop
  | unexpectedCharacter c => ∃ more, rest = c :: more ∧ (IsLone c more ∨ StartsNothing c)
  | unterminatedString => ∃ more, rest = '\x22' :: more ∧
      ∀ body after, more = body ++ '\x22' :: after → EndsEscaped body
  | unterminatedCharacter => ∃ more, rest = '\x27' :: more ∧
      (∀ c after, more = c :: '\x27' :: after → c = '\x27' ∨ c = '\n' ∨ c = '\\') ∧
      ∀ c after, more ≠ '\\' :: c :: '\x27' :: after
  | unterminatedComment => ∃ more, rest = '\x7b' :: more ∧ '\x7d' ∉ more
  | irregularIndentation width => ∃ l : ContentLine (before ++ rest) ts,
      l.before = before ∧ width = l.width ∧ ¬4 ∣ width
  | indentationJump fromLevel toLevel => ∃ l : ContentLine (before ++ rest) ts,
      l.before = before ∧ l.width = 4 * toLevel ∧ l.Follows fromLevel ∧ fromLevel + 1 < toLevel

theorem Kind.head_of_spelling {kind : Kind} {spelling : String} {c : Char} {text : List Char}
    (h : kind.spelling = some spelling) (ht : c :: text = spelling.toList) :
    isAlphabetic c = true ∨ (ofPunctuation? c).isSome = true ∨ c = '!' := by
  have hhead : spelling.toList.head? = some c := by rw [← ht]; rfl
  cases kind <;> cases h <;> cases hhead <;> first
    | exact .inl (isAlphabetic_of_isAlpha (by decide))
    | exact .inr (.inl rfl)
    | exact .inr (.inr rfl)

namespace Piece

theorem not_mem_of_closeComment {cs : List Char} (h : closeComment cs = none) : '\x7d' ∉ cs := by
  unfold closeComment at h
  split at h
  · rename_i hnil
    intro hmem
    have hopen := List.dropWhile_eq_nil_iff.1 hnil '\x7d' hmem
    simp at hopen
  · cases h

theorem not_endsEscaped_nil : ¬EndsEscaped [] := by simp [EndsEscaped]

theorem endsEscaped_concat (text : List Char) (c : Char) :
    EndsEscaped (text ++ [c]) ↔ c = '\\' ∧ ¬EndsEscaped text := by
  unfold EndsEscaped
  rw [List.rtakeWhile_concat]
  by_cases hc : c = '\\'
  · simp [hc]
    omega
  · simp [hc]

theorem endsEscaped_cons {c : Char} (hc : c ≠ '\\') (text : List Char) :
    EndsEscaped (c :: text) ↔ EndsEscaped text := by
  induction text using List.reverseRecOn with
  | nil => simpa [hc, not_endsEscaped_nil] using endsEscaped_concat [] c
  | append_singleton text d ih =>
    rw [← List.cons_append, endsEscaped_concat, endsEscaped_concat, ih]

/-- A backslash and the character after it say nothing about what follows. -/
theorem endsEscaped_pair (c : Char) (text : List Char) :
    EndsEscaped ('\\' :: c :: text) ↔ EndsEscaped text := by
  induction text using List.reverseRecOn with
  | nil =>
    have hpair := endsEscaped_concat ['\\'] c
    have hone : EndsEscaped ['\\'] := (endsEscaped_concat [] '\\').2 ⟨rfl, not_endsEscaped_nil⟩
    simpa [hone, not_endsEscaped_nil] using hpair
  | append_singleton text d ih =>
    rw [← List.cons_append, ← List.cons_append, endsEscaped_concat, endsEscaped_concat, ih]

theorem endsEscaped_of_closeString {cs : List Char} (h : closeString cs = none) :
    ∀ body after, cs = body ++ '\x22' :: after → EndsEscaped body := by
  fun_induction closeString cs with
  | case1 => simp
  | case2 => cases h
  | case3 =>
    intro body after hsplit
    rcases body with _ | ⟨c, _ | ⟨d, body⟩⟩ <;> simp at hsplit
  | case4 c cs ih =>
    intro body after hsplit
    rcases body with _ | ⟨d, _ | ⟨e, body⟩⟩
    · simp at hsplit
    · obtain ⟨hslash, -⟩ := List.cons.inj hsplit
      rw [← hslash]
      exact (endsEscaped_concat [] '\\').2 ⟨rfl, not_endsEscaped_nil⟩
    · obtain ⟨hslash, htail⟩ := List.cons.inj hsplit
      obtain ⟨rfl, hrest⟩ := List.cons.inj htail
      rw [← hslash]
      exact (endsEscaped_pair c body).2 (ih (Option.map_eq_none_iff.1 h) body after hrest)
  | case5 c cs hquote hlone hslash ih =>
    intro body after hsplit
    have hplain : c ≠ '\\' := by
      intro hc
      cases cs with
      | nil => exact hlone hc rfl
      | cons d ds => exact hslash d ds hc rfl
    rcases body with _ | ⟨d, body⟩
    · exact absurd (List.cons.inj hsplit).1 hquote
    · obtain ⟨rfl, htail⟩ := List.cons.inj hsplit
      exact (endsEscaped_cons hplain body).2 (ih (Option.map_eq_none_iff.1 h) body after htail)

theorem unclosed_of_closeCharacter {cs : List Char} (h : closeCharacter cs = none) :
    (∀ c after, cs = c :: '\x27' :: after → c = '\x27' ∨ c = '\n' ∨ c = '\\') ∧
      ∀ c after, cs ≠ '\\' :: c :: '\x27' :: after := by
  constructor
  · rintro c after rfl
    unfold closeCharacter at h
    split at h
    · cases h
    · rename_i hsplit
      obtain ⟨rfl, -⟩ := List.cons.inj hsplit
      split at h
      · tauto
      · cases h
    · rename_i hother
      exact absurd rfl (hother c after)
  · rintro c after rfl
    cases h

/-- A character that is no symbol on its own starts nothing, but for the first halves of symbols of
two characters. -/
theorem startsNothing_of_ofPunctuation? {c : Char} (hword : isAlphabetic c = false)
    (hdigit : c.isDigit = false) (hsymbol : Kind.ofPunctuation? c = none)
    (hplain : c ∉ [' ', '\t', '\r', '\n', '\x7b', '\x22', '\x27', '&', '|', '!']) :
    StartsNothing c := by
  simp only [List.mem_cons, List.not_mem_nil, or_false, not_or] at hplain
  intro text
  constructor
  · intro htrivia
    have hhead := htrivia.head
    tauto
  · intro kind value hspells
    generalize htext : c :: text = chars at hspells
    cases hspells with
    | fixed h =>
      have hhead := Kind.head_of_spelling h htext
      simp only [hword, hsymbol, Option.isSome_none, Bool.false_eq_true, false_or] at hhead
      tauto
    | word _ hl _ =>
      rw [hl c (htext ▸ List.mem_cons_self)] at hword
      cases hword
    | number h =>
      have hpoint : c ≠ '.' := by
        rintro rfl
        cases hsymbol
      obtain ⟨whole, fraction, hwhole, -, ⟨hne, hform⟩ | ⟨-, rfl⟩⟩ := h
      · obtain ⟨d, digits, rfl⟩ := List.exists_cons_of_ne_nil hne
        have hd : c = d := by
          rcases hform with rfl | rfl
          · exact (List.cons.inj htext).1
          · exact (List.cons.inj htext).1
        rw [hd, hwhole d List.mem_cons_self] at hdigit
        cases hdigit
      · exact hpoint (List.cons.inj htext).1
    | newline | doubledAnd | doubledOr | string | character =>
      have hhead := (List.cons.inj htext).1
      tauto

theorem readSymbol_error {c : Char} {cs : List Char} {fault : LexicalFault}
    (h : readSymbol c cs = .error fault) :
    fault = .unexpectedCharacter c ∧ Kind.ofPunctuation? c = none ∧
      ∀ d ∈ cs.head?, Kind.ofPair? c d = none := by
  unfold readSymbol at h
  split at h
  · cases h
  · rename_i hpair
    split at h
    · rename_i hsymbol
      cases h
      refine ⟨rfl, hsymbol, fun d hd => ?_⟩
      obtain ⟨rest, rfl⟩ := List.head?_eq_some_iff.1 hd
      cases hkind : Kind.ofPair? c d with
      | none => rfl
      | some kind => exact absurd rfl (hpair kind d rest (by simpa using hkind))
    · split at h <;> cases h
    · cases h

theorem isLone_of_ofPair? {c : Char} {cs : List Char} (hc : c = '&' ∨ c = '|' ∨ c = '!')
    (h : ∀ d ∈ cs.head?, Kind.ofPair? c d = none) : IsLone c cs := by
  rcases hc with rfl | rfl | rfl
  · exact .inl ⟨rfl, fun hd => by cases h _ hd⟩
  · exact .inr (.inl ⟨rfl, fun hd => by cases h _ hd⟩)
  · exact .inr (.inr ⟨rfl, fun hd => by cases h _ hd⟩)

/-- What stands before the reader of pieces explains why it fails. -/
theorem explained_of_read {c : Char} {cs : List Char} {fault : LexicalFault}
    (h : read c cs = .error fault) (before : List Char) (ts : List Token) :
    fault.Explained before (c :: cs) ts := by
  unfold read at h
  split at h
  · cases h
  · cases h
  · cases h
  · cases h
  · split at h <;> cases h
    exact ⟨cs, rfl, not_mem_of_closeComment ‹_›⟩
  · split at h <;> cases h
    exact ⟨cs, rfl, endsEscaped_of_closeString ‹_›⟩
  · split at h <;> cases h
    exact ⟨cs, rfl, unclosed_of_closeCharacter ‹_›⟩
  · split at h
    · cases h
    split at h
    · cases h
    rename_i hword hdigit
    obtain ⟨rfl, hsymbol, hpair⟩ := readSymbol_error h
    refine ⟨cs, rfl, ?_⟩
    by_cases hhalf : c = '&' ∨ c = '|' ∨ c = '!'
    · exact .inl (isLone_of_ofPair? hhalf hpair)
    · refine .inr (startsNothing_of_ofPunctuation? (by simpa using hword) (by simpa using hdigit)
        hsymbol ?_)
      simp only [List.mem_cons, List.not_mem_nil, or_false, not_or]
      tauto

end Piece

namespace Layout

theorem spanComments_error {cs before : List Char} (h : spanComments cs = .error before) :
    Trivia before ∧ ∃ more, cs = before ++ '\x7b' :: more ∧ '\x7d' ∉ more := by
  fun_induction spanComments cs generalizing before with
  | case1 inner hclose =>
    cases h
    exact ⟨.nil, inner, rfl, Piece.not_mem_of_closeComment hclose⟩
  | case2 inner body after hclose comment before' heq =>
    rename_i ih
    cases h
    obtain ⟨htrivia, more, hsplit, hopen⟩ := ih heq
    obtain ⟨text, htext, rfl⟩ := Piece.closeComment_body hclose
    have hblanks : ∀ c ∈ after.takeWhile isBlank, isBlank c := fun c hc => List.mem_takeWhile_imp hc
    refine ⟨?_, more, ?_, hopen⟩
    · simpa [comment] using Trivia.comment htext ((trivia_of_blanks hblanks).append htrivia)
    · have hinner := Piece.closeComment_split hclose
      rw [List.append_assoc, ← hsplit]
      simp [comment, ← hinner]
  | case3 => cases h
  | case4 => cases h

/-- A head is not read if a comment in it is not closed. -/
theorem readHead_error {cs before : List Char} (h : readHead cs = .error before) :
    Trivia before ∧ ∃ more, cs = before ++ '\x7b' :: more ∧ '\x7d' ∉ more := by
  unfold readHead at h
  dsimp only at h
  split at h <;> cases h
  rename_i hspan
  obtain ⟨htrivia, more, hsplit, hopen⟩ := spanComments_error hspan
  refine ⟨(trivia_of_blanks fun c hc => List.mem_takeWhile_imp hc).append htrivia, more, ?_, hopen⟩
  rw [List.append_assoc, ← hsplit, List.takeWhile_append_dropWhile]

theorem level_error {depth width : Nat} {fault : LexicalFault}
    (h : level depth width = .error fault) :
    fault = .irregularIndentation width ∧ ¬4 ∣ width ∨
      fault = .indentationJump depth (width / 4) ∧ 4 ∣ width ∧ depth + 1 < width / 4 := by
  unfold level at h
  split at h
  · cases h
    rename_i hpart
    exact .inl ⟨rfl, mt Nat.mod_eq_zero_of_dvd hpart⟩
  · split at h <;> cases h
    rename_i hwhole hdeep
    exact .inr ⟨rfl, Nat.dvd_of_mod_eq_zero (not_not.1 hwhole), hdeep⟩

end Layout

namespace Scan

variable {s t next : Scan} {text : List Char} {ts : List Token}

/-- A run that fails has come to a scan whose next step fails. -/
theorem run_error {done : Array Token} {e : LexicalError} (h : s.run done = .error e) :
    ∃ text us t, Reaches s text us t ∧ t.cursor.rest ≠ [] ∧ t.step = .error e := by
  fun_induction run done s with
  | case1 => cases h
  | case2 done s hs e' hstep =>
    cases h
    exact ⟨[], [], s, .refl s, hs, hstep⟩
  | case3 done s hs tokens mid hstep ih =>
    obtain ⟨text, us, t, hreach, hrest, herror⟩ := ih h
    obtain ⟨taken, hmove⟩ := exists_moves hs hstep
    exact ⟨taken ++ text, tokens ++ us, t, .head hmove hreach, hrest, herror⟩

/-- The level of a scan is the level of the last line with content that starts before it. -/
def Settled (source : List Char) (ts : List Token) (t : Scan) : Prop :=
  (t.depth = 0 ∧ ∀ m : ContentLine source ts, m.weight ≤ t.weight) ∨
    ∃ l : ContentLine source ts, l.level = t.depth ∧ t.weight < l.weight ∧
      ∀ m : ContentLine source ts, t.weight < m.weight → l.weight ≤ m.weight

theorem settled_start (source : String) (ts : List Token) :
    Settled source.toList ts (start source) := by
  refine .inl ⟨rfl, fun m => ?_⟩
  have hlength := congrArg List.length m.source_eq
  rw [List.length_append] at hlength
  simp only [ContentLine.weight, weight, start, Cursor.ofString, Bool.toNat_true]
  omega

theorem Reaches.weight_le (h : Reaches s text ts t) : t.weight ≤ s.weight := by
  induction h with
  | refl => exact le_rfl
  | head hm _ ih => exact ih.trans (step_weight_lt hm.rest_ne_nil hm.step_eq).le

/-- A line with content starts at the latest where a move starts, or where it has come to. -/
theorem Moves.outside {source : String} {w : List Char} {done us : List Token} {mid last : Scan}
    {v : List Char} (hreach : Reaches (start source) w done mid) (hm : Moves mid v ts next)
    (hrun : Reaches (start source) text us last) (m : ContentLine source.toList us) :
    m.weight ≤ next.weight ∨ mid.weight < m.weight ∨
      mid.lineStart = true ∧ mid.cursor.rest = m.blanks ++ m.comments ++ m.first :: m.more := by
  obtain ⟨before, outside, hto, hl, hrest⟩ := m.exists_outside hrun fun _ ht _ => ht
  rw [← m.weight_eq hl hrest]
  rcases hreach.linear hto with ⟨v', vs', hpath, -, -⟩ | ⟨v', vs', hpath, -, -⟩
  · cases hpath with
    | refl => exact .inr (.inr ⟨hl, hrest⟩)
    | head hm' hpath =>
      obtain ⟨-, -, rfl⟩ := hm.unique hm'
      exact .inl hpath.weight_le
  · cases hpath with
    | refl => exact .inr (.inr ⟨hl, hrest⟩)
    | head hm' hpath =>
      have hlt := step_weight_lt hm'.rest_ne_nil hm'.step_eq
      exact .inr (.inl (hpath.weight_le.trans_lt hlt))

/-- A move that keeps the level passes no line with content. -/
theorem Settled.keep {source : List Char} (h : Settled source ts s) (hd : next.depth = s.depth)
    (hlt : next.weight < s.weight)
    (hout : ∀ m : ContentLine source ts, m.weight ≤ next.weight ∨ s.weight < m.weight) :
    Settled source ts next := by
  rcases h with ⟨hzero, hall⟩ | ⟨l, hlevel, hl, hleast⟩
  · refine .inl ⟨hd.trans hzero, fun m => ?_⟩
    have hm := hall m
    rcases hout m with hle | hgt <;> omega
  · refine .inr ⟨l, hlevel.trans hd.symm, by omega, fun m hm => hleast m ?_⟩
    rcases hout m with hle | hgt <;> omega

theorem Settled.move {source : String} {w v : List Char} {done us : List Token} {mid last : Scan}
    (h : Settled source.toList us mid) (hreach : Reaches (start source) w done mid)
    (hm : Moves mid v ts next) (hrun : Reaches (start source) text us last)
    (hdone : ∀ t ∈ done, t ∈ us) : Settled source.toList us next := by
  have hlt := step_weight_lt hm.rest_ne_nil hm.step_eq
  have hout := hm.outside hreach hrun
  cases hm.effect with
  | emptyHead _ hr he =>
    refine h.keep rfl hlt fun m => ?_
    rcases hout m with hle | hgt | ⟨-, hrest⟩
    · exact .inl hle
    · exact .inr hgt
    · rw [hrest, m.readHead_eq] at hr
      cases hr
      simp [Layout.Head.isEmpty, m.content] at he
  | lineHead hl hr he hd =>
    obtain ⟨l, -, hblanks, hweight⟩ := exists_contentLine hreach hl hr he hdone
    have hlevel := (Layout.level_ok hd).2.1
    rw [← hblanks, Layout.width_eq l.isBlank_of_mem] at hlevel
    refine .inr ⟨l, hlevel.symm, by omega, fun m hm => ?_⟩
    rcases hout m with hle | hgt | ⟨hl', hrest⟩
    · omega
    · omega
    · rw [← m.weight_eq hl' hrest, hweight]
  | gap hl _ _ _ | lexeme hl _ _ =>
    refine h.keep rfl hlt fun m => ?_
    rcases hout m with hle | hgt | ⟨hl', -⟩
    · exact .inl hle
    · exact .inr hgt
    · rw [hl] at hl'
      cases hl'

theorem Reaches.settled {source : String} {us : List Token} {last : Scan}
    (hrun : Reaches (start source) text us last) : Settled source.toList us last := by
  have hfrom : ∀ {a b w v done vs}, Reaches (start source) w done a → Reaches a v vs b →
      (∀ t ∈ done ++ vs, t ∈ us) → Settled source.toList us a → Settled source.toList us b := by
    intro a b w v done vs hreach hto hmem ha
    induction hto generalizing w done with
    | refl => exact ha
    | head hm _ ih =>
      refine ih (hreach.trans (.single hm)) (by simpa using hmem) (ha.move hreach hm hrun ?_)
      exact fun t ht => hmem t (List.mem_append_left _ ht)
  exact hfrom (.refl _) hrun (by simp) (settled_start source us)

/-- The level before a line is the one that a scan at its start has. -/
theorem Settled.follows {source : List Char} (h : Settled source ts s)
    {l : ContentLine source ts} (hl : l.weight = s.weight) : l.Follows s.depth := by
  rcases h with ⟨hzero, hall⟩ | ⟨prev, hlevel, hprev, hleast⟩
  · refine .inr ⟨fun m => ?_, hzero⟩
    have hle := hall m
    by_contra hlt
    have hgt := (m.weight_lt_iff l).2 (by omega)
    omega
  · refine .inl ⟨prev, ⟨(prev.weight_lt_iff l).1 (by omega), fun m => ?_⟩, hlevel.symm⟩
    by_contra hbetween
    rw [not_or] at hbetween
    have hafter := (prev.weight_lt_iff m).2 (by omega)
    have hbefore := (m.weight_lt_iff l).2 (by omega)
    have hle := hleast m (by omega)
    omega

/-- A step fails over a comment in the head of a line, over the level of the line, or over the
piece at hand. -/
theorem step_error {e : LexicalError} (hne : s.cursor.rest ≠ []) (h : s.step = .error e) :
    (∃ before, s.lineStart = true ∧ Layout.readHead s.cursor.rest = .error before ∧
      e = ⟨.unterminatedComment, s.cursor.position.after before⟩) ∨
    (∃ head fault, s.lineStart = true ∧ Layout.readHead s.cursor.rest = .ok head ∧
      head.isEmpty = false ∧ Layout.level s.depth (Layout.width head.blanks) = .error fault ∧
      e = ⟨fault, s.cursor.position⟩) ∨
    ∃ c cs fault, s.cursor.rest = c :: cs ∧ Piece.read c cs = .error fault ∧
      e = ⟨fault, s.cursor.position⟩ := by
  unfold step at h
  split at h
  · rename_i hl
    unfold readHead at h
    dsimp only at h
    split at h
    · cases h
      exact .inl ⟨_, hl, ‹_›, rfl⟩
    · split at h
      · cases h
      · rename_i head hhead hcontent
        split at h <;> cases h
        exact .inr (.inl ⟨head, _, hl, hhead, by simpa using hcontent, ‹_›, rfl⟩)
  · unfold readPiece at h
    split at h
    · contradiction
    · rename_i c cs hrest
      split at h
      · cases h
        exact .inr (.inr ⟨c, cs, _, hrest, ‹_›, rfl⟩)
      · dsimp only at h
        split at h <;> cases h

end Scan

open Scan

theorem explained_of_level {source : String} {w : List Char} {ts : List Token} {t : Scan}
    {head : Layout.Head} {fault : LexicalFault} (hreach : Reaches (Scan.start source) w ts t)
    (hl : t.lineStart = true) (hr : Layout.readHead t.cursor.rest = .ok head)
    (he : head.isEmpty = false)
    (hd : Layout.level t.depth (Layout.width head.blanks) = .error fault) :
    fault.Explained w t.cursor.rest ts := by
  obtain ⟨l, hbefore, hblanks, hweight⟩ :=
    exists_contentLine hreach hl hr he fun _ ht => ht
  have hsource : source.toList = w ++ t.cursor.rest := hreach.rest_eq
  have hfollows := hreach.settled.follows hweight
  rw [← hblanks, Layout.width_eq l.isBlank_of_mem] at hd
  rcases Layout.level_error hd with ⟨rfl, hpart⟩ | ⟨rfl, hwhole, hdeep⟩
  · show ∃ l : ContentLine (w ++ t.cursor.rest) ts, _
    rw [← hsource]
    exact ⟨l, hbefore, rfl, hpart⟩
  · show ∃ l : ContentLine (w ++ t.cursor.rest) ts, _
    rw [← hsource]
    exact ⟨l, hbefore, (Nat.mul_div_cancel' hwhole).symm, hfollows, hdeep⟩

/-- An error of a text names the place of a point in it. Up to this point the text is trivia and
whole lexemes, and what stands there explains the fault. -/
theorem fault_of_tokenize {source : String} {e : LexicalError} (h : tokenize source = .error e) :
    ∃ before rest ts parts tail, source.toList = before ++ rest ∧ Accounts before ts parts tail ∧
      e.position = Position.ofText before ∧ e.fault.Explained before rest ts := by
  obtain ⟨w, ts, t, hreach, hne, herror⟩ := run_error h
  obtain ⟨parts, tail, hacc⟩ := hreach.exists_accounts
  have hsource : source.toList = w ++ t.cursor.rest := hreach.rest_eq
  rcases step_error hne herror with ⟨before, -, hr, rfl⟩ | ⟨head, fault, hl, hr, he, hd, rfl⟩ |
    ⟨c, cs, fault, hrest, hread, rfl⟩
  · obtain ⟨htrivia, more, hsplit, hopen⟩ := Layout.readHead_error hr
    refine ⟨w ++ before, '\x7b' :: more, ts ++ [], parts, tail ++ before, ?_,
      hacc.trivia htrivia (by simp), ?_, more, rfl, hopen⟩
    · rw [hsource, hsplit, List.append_assoc]
    · rw [hreach.position_start, ← Position.start_after, ← Position.start_after,
        Position.after_append]
  · exact ⟨w, _, ts, parts, tail, hsource, hacc, hreach.position_start,
      explained_of_level hreach hl hr he hd⟩
  · rw [hrest] at hsource
    exact ⟨w, _, ts, parts, tail, hsource, hacc, hreach.position_start,
      Piece.explained_of_read hread w ts⟩

/-- A line two levels deeper than the one before it, which is one level deep itself. -/
def jumped : String := "loop\n\t\x7bin\x7d x\n\n\t    \ty"

theorem fault_of_tokenize_jumped :
    tokenize jumped = .error ⟨.indentationJump 1 3, ⟨4, 0⟩⟩ ∧
    ∃ before rest ts parts tail, jumped.toList = before ++ rest ∧ Accounts before ts parts tail ∧
      Position.ofText before = ⟨4, 0⟩ ∧
      (LexicalFault.indentationJump 1 3).Explained before rest ts := by
  have h : tokenize jumped = .error ⟨.indentationJump 1 3, ⟨4, 0⟩⟩ := by decide +kernel
  obtain ⟨before, rest, ts, parts, tail, hsource, hacc, hposition, hfault⟩ := fault_of_tokenize h
  exact ⟨h, before, rest, ts, parts, tail, hsource, hacc, hposition.symm, hfault⟩

end Offside
