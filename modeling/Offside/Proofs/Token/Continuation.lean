import Offside.Proofs.Token.Writing

/-!
What comes behind a text. Of the text behind a piece the reader looks at one character, and only to
see whether the piece goes on. So a piece is read the same before every text that goes on with the
same character, or with one that parts pieces, and before the end; the end of a line is read the
same before every text. The head of a line needs the same character behind it. Hence the moves over
a text stay as they are when what follows is replaced.
-/
namespace Offside

/-- The characters that no lexeme goes on with. -/
def partings : List Char := [' ', '\t', '\r', '\n', '\x7b']

/-- The text may replace the other one behind a piece. -/
def Replaces (tail rest : List Char) : Prop := ∀ c ∈ tail.head?, c ∈ rest.head? ∨ c ∈ partings

theorem Replaces.of_head {tail rest : List Char} (h : tail.head? = rest.head?) :
    Replaces tail rest := fun _ hc => .inl (h ▸ hc)

theorem Replaces.of_parting {tail : List Char} (h : ∀ c ∈ tail.head?, c ∈ partings)
    (rest : List Char) : Replaces tail rest := fun c hc => .inr (h c hc)

/-- What holds of the next character, and of those that part pieces, holds of the new one. -/
theorem Replaces.forall_head {P : Char → Prop} {tail rest : List Char} (h : Replaces tail rest)
    (hparting : ∀ c ∈ partings, P c) (hrest : ∀ c ∈ rest.head?, P c) : ∀ c ∈ tail.head?, P c := by
  intro c hc
  rcases h c hc with hc | hc
  · exact hrest c hc
  · exact hparting c hc

/-- Where characters of a class end, they end before every text that may stand there. -/
theorem Replaces.head_eq_false {p : Char → Bool} {cs tail : List Char}
    (h : Replaces tail (cs.dropWhile p)) (hp : ∀ c ∈ partings, p c = false) :
    ∀ c ∈ tail.head?, p c = false :=
  h.forall_head hp fun _ hc => eq_false_of_head_dropWhile hc

theorem isDigit_of_parting : ∀ c ∈ partings, c.isDigit = false := by
  have hall : partings.all (fun c => !c.isDigit) = true := by decide
  simpa using hall

theorem isAlphabetic_of_parting : ∀ c ∈ partings, isAlphabetic c = false := by
  have hall : partings.all (fun c => !isAlphabetic c) = true := by decide
  simpa using hall

namespace Piece

variable {c : Char} {cs tail : List Char} {p : Piece}

/-- The token of a piece at a place, if it is no gap. -/
def tokens (p : Piece) (position : Position) : List Token :=
  p.token.toList.map fun x => ⟨x.1, position, x.2⟩

/-- A piece with another text behind it. -/
def withRest (p : Piece) (tail : List Char) : Piece := ⟨p.token, p.taken, tail⟩

theorem spanNumber_replace (h : Replaces tail (spanNumber cs).2) :
    spanNumber ((spanNumber cs).1 ++ tail) = ((spanNumber cs).1, tail) := by
  have hdigits : ∀ c ∈ cs.takeWhile Char.isDigit, c.isDigit := fun c hc => List.mem_takeWhile_imp hc
  generalize hspan : spanNumber cs = span at h ⊢
  unfold spanNumber at hspan
  split at hspan
  · rename_i rest hpoint
    subst hspan
    have hstop := h.head_eq_false isDigit_of_parting
    have hfraction : ∀ c ∈ rest.takeWhile Char.isDigit, c.isDigit :=
      fun c hc => List.mem_takeWhile_imp hc
    have hpoint :
        ∀ c ∈ ('.' :: (rest.takeWhile Char.isDigit ++ tail)).head?, c.isDigit = false := by
      simp
    simp only [List.append_assoc, List.cons_append]
    unfold spanNumber
    rw [takeWhile_append_of_head hdigits hpoint, dropWhile_append_of_head hdigits hpoint]
    simp only [takeWhile_append_of_head hfraction hstop, dropWhile_append_of_head hfraction hstop]
  · rename_i hpoint
    subst hspan
    have hstop := h.head_eq_false isDigit_of_parting
    unfold spanNumber
    simp only [takeWhile_append_of_head hdigits hstop, dropWhile_append_of_head hdigits hstop]
    split
    · rename_i rest
      rcases h '.' rfl with hrest | hparting
      · obtain ⟨more, hmore⟩ := List.head?_eq_some_iff.1 hrest
        exact absurd hmore (hpoint more)
      · exact absurd hparting (by decide)
    · rfl

theorem readWord_replace (h : Replaces tail (readWord c cs).rest) :
    ∃ more, (readWord c cs).taken = c :: more ∧
      readWord c (more ++ tail) = (readWord c cs).withRest tail := by
  have hrest : (readWord c cs).rest = cs.dropWhile isAlphabetic := by
    unfold readWord
    dsimp only
    split <;> rfl
  have hletters : ∀ d ∈ cs.takeWhile isAlphabetic, isAlphabetic d :=
    fun d hd => List.mem_takeWhile_imp hd
  have hstop := (hrest ▸ h).head_eq_false isAlphabetic_of_parting
  refine ⟨cs.takeWhile isAlphabetic, ?_, ?_⟩
  · unfold readWord
    dsimp only
    split <;> rfl
  · unfold readWord
    rw [takeWhile_append_of_head hletters hstop, dropWhile_append_of_head hletters hstop]
    dsimp only
    split <;> rfl

theorem ofPair?_of_parting : ∀ d ∈ partings, Kind.ofPair? c d = none := by
  intro d hd
  unfold Kind.ofPair?
  split <;> first | rfl | exact absurd hd (by decide)

theorem readSymbol_replace (h : readSymbol c cs = .ok p) (ht : Replaces tail p.rest) :
    ∃ more, p.taken = c :: more ∧ readSymbol c (more ++ tail) = .ok (p.withRest tail) := by
  cases symbol_of_readSymbol h with
  | @pair c d kind hkind rest => exact ⟨[d], rfl, (Symbol.pair hkind tail).readSymbol_eq⟩
  | fraction hdigit =>
    have hstop := ht.head_eq_false isDigit_of_parting
    have hdigits : ∀ d ∈ cs.takeWhile Char.isDigit, d.isDigit :=
      fun d hd => List.mem_takeWhile_imp hd
    have hdigit' : (cs.takeWhile Char.isDigit ++ tail).head?.any Char.isDigit := by
      cases cs with
      | nil => simp at hdigit
      | cons d ds =>
        have hd : d.isDigit = true := by simpa using hdigit
        simp [hd]
    refine ⟨_, rfl, ?_⟩
    rw [(Symbol.fraction hdigit').readSymbol_eq, takeWhile_append_of_head hdigits hstop,
      dropWhile_append_of_head hdigits hstop]
    rfl
  | single hkind hpair hdot =>
    -- a single symbol makes no pair with what replaces the text behind it
    have hpair' := ht.forall_head ofPair?_of_parting hpair
    have hdot' := fun hd => ht.forall_head isDigit_of_parting (hdot hd)
    exact ⟨[], rfl, (Symbol.single hkind hpair' hdot').readSymbol_eq⟩

theorem closeString_append {body text : List Char} (h : Unescapes '\x22' body text)
    (rest : List Char) :
    closeString (body ++ '\x22' :: rest) = some (text, body ++ ['\x22'], rest) := by
  induction h with
  | nil => rfl
  | plain hq hb _ ih => simp [closeString, hb, ih]
  | escaped _ ih => simp [closeString, ih]

theorem closeCharacter_replace {d : Char} {taken rest : List Char}
    (h : closeCharacter cs = some (d, taken, rest)) (tail : List Char) :
    closeCharacter (taken ++ tail) = some (d, taken, tail) := by
  unfold closeCharacter at h
  split at h
  · cases h
    rfl
  · split at h <;> cases h
    rename_i hd _
    obtain ⟨hescape, hquote, hline⟩ : d ≠ '\\' ∧ d ≠ '\x27' ∧ d ≠ '\n' := by
      simpa only [not_or] using hd
    simp [closeCharacter, hescape, hquote, hline]
  · cases h

/-- A piece is read the same before every text that may stand behind it. -/
theorem read_replace (h : read c cs = .ok p) (ht : c = '\n' ∨ Replaces tail p.rest) :
    ∃ more, p.taken = c :: more ∧ read c (more ++ tail) = .ok (p.withRest tail) := by
  unfold read at h
  split at h
  · cases h
    exact ⟨[], rfl, rfl⟩
  · cases h
    exact ⟨[], rfl, rfl⟩
  · cases h
    exact ⟨[], rfl, rfl⟩
  · cases h
    exact ⟨[], rfl, rfl⟩
  · split at h <;> cases h
    rename_i taken rest hclose
    obtain ⟨body, hbody, rfl⟩ := closeComment_body hclose
    refine ⟨_, rfl, ?_⟩
    simp [read, closeComment_append hbody, gap, withRest]
  · split at h <;> cases h
    rename_i text taken rest hclose
    obtain ⟨body, hbody, rfl⟩ := closeString_unescapes hclose
    refine ⟨_, rfl, ?_⟩
    simp [read, closeString_append hbody, lexeme, withRest]
  · split at h <;> cases h
    rename_i d taken rest hclose
    refine ⟨_, rfl, ?_⟩
    simp [read, closeCharacter_replace hclose, lexeme, withRest]
  · rename_i hnewline _ _ _ _ _ _
    have ht := ht.resolve_left hnewline
    split at h
    · rename_i hword
      cases h
      obtain ⟨more, htaken, hread⟩ := readWord_replace ht
      refine ⟨more, htaken, ?_⟩
      rw [read_of_isAlphabetic hword, hread]
    · rename_i hword
      split at h
      · rename_i hdigit
        cases h
        refine ⟨_, rfl, ?_⟩
        rw [read_of_isDigit hdigit, spanNumber_replace ht]
        rfl
      · rename_i hdigit
        obtain ⟨more, htaken, hread⟩ := readSymbol_replace h ht
        refine ⟨more, htaken, ?_⟩
        unfold read
        split <;> try contradiction
        rw [if_neg hword, if_neg hdigit, hread]

end Piece

namespace Layout

variable {cs tail : List Char} {h : Head}

theorem readHead_replace (hr : readHead cs = .ok h) (ht : tail.head? = h.rest.head?) :
    readHead (h.blanks ++ h.comments ++ tail) = .ok ⟨h.blanks, h.comments, tail⟩ := by
  obtain ⟨hblanks, hcomments, hbare⟩ := readHead_sound hr
  exact readHead_append hblanks hcomments fun c hc => hbare c (ht ▸ hc)

/-- Whether a line is empty shows in the character behind its head. -/
theorem isEmpty_eq (h : Head) : h.isEmpty = h.rest.head?.all fun c => c == '\n' || c == '\r' := by
  unfold Head.isEmpty
  split
  · rename_i hnil
    rw [hnil]
    rfl
  · rename_i hcons
    rw [hcons]
    rfl

theorem isEmpty_replace (ht : tail.head? = h.rest.head?) :
    Head.isEmpty ⟨h.blanks, h.comments, tail⟩ = h.isEmpty := by
  rw [isEmpty_eq, isEmpty_eq, ht]

end Layout

namespace Scan

variable {s next last : Scan} {text tail : List Char} {ts : List Token}

/-- A scan with another text before it. -/
def withRest (s : Scan) (tail : List Char) : Scan :=
  { s with cursor := { s.cursor with rest := tail } }

theorem start_withRest (source : String) (text : List Char) :
    (start source).withRest text = start (String.ofList text) := by
  simp [start, withRest, Cursor.ofString]

theorem moves_emptyHead {h : Layout.Head} (hl : s.lineStart = true) (hne : s.cursor.rest ≠ [])
    (hr : Layout.readHead s.cursor.rest = .ok h) (he : h.isEmpty = true) :
    Moves s (h.blanks ++ h.comments) []
      ⟨s.cursor.moveOver (h.blanks ++ h.comments) h.rest, s.depth, false⟩ := by
  refine ⟨hne, ?_, (Layout.readHead_split hr).symm⟩
  simp [step, hl, readHead, hr, he]

theorem moves_contentHead {h : Layout.Head} {level : Nat} (hl : s.lineStart = true)
    (hne : s.cursor.rest ≠ []) (hr : Layout.readHead s.cursor.rest = .ok h)
    (he : h.isEmpty = false)
    (hd : Layout.level s.depth (Layout.width h.blanks) = .ok level) :
    Moves s (h.blanks ++ h.comments) (Layout.shift s.depth level s.cursor.position)
      ⟨s.cursor.moveOver (h.blanks ++ h.comments) h.rest, level, false⟩ := by
  refine ⟨hne, ?_, (Layout.readHead_split hr).symm⟩
  simp [step, hl, readHead, hr, he, hd]

theorem moves_piece {c : Char} {cs : List Char} {p : Piece} (hl : s.lineStart = false)
    (hr : s.cursor.rest = c :: cs) (hp : Piece.read c cs = .ok p) :
    Moves s p.taken (p.tokens s.cursor.position)
      ⟨s.cursor.moveOver p.taken p.rest, s.depth, c == '\n'⟩ := by
  refine ⟨by simp [hr], ?_, hr.trans (Piece.read_split hp).symm⟩
  unfold step Piece.tokens
  rw [if_neg (Bool.eq_false_iff.1 hl), readPiece, hr]
  dsimp only
  rw [hp]
  dsimp only
  cases p.token <;> rfl

/-- Inside a line a move reads a piece. -/
theorem Moves.exists_piece (h : Moves s text ts next) (hl : s.lineStart = false) :
    ∃ c cs p, s.cursor.rest = c :: cs ∧ Piece.read c cs = .ok p ∧ text = p.taken ∧
      ts = p.tokens s.cursor.position ∧
      next = ⟨s.cursor.moveOver p.taken p.rest, s.depth, c == '\n'⟩ := by
  obtain ⟨c, cs, hr⟩ := List.exists_cons_of_ne_nil h.rest_ne_nil
  have hstep := h.step_eq
  unfold step at hstep
  rw [if_neg (Bool.eq_false_iff.1 hl), readPiece, hr] at hstep
  dsimp only at hstep
  cases hp : Piece.read c cs with
  | error fault =>
    rw [hp] at hstep
    cases hstep
  | ok p => exact ⟨c, cs, p, hr, hp, h.unique (moves_piece hl hr hp)⟩

/-- Inside a line a move takes something. -/
theorem Moves.text_ne_nil (h : Moves s text ts next) (hl : s.lineStart = false) : text ≠ [] := by
  obtain ⟨c, cs, p, -, hp, rfl, -⟩ := h.exists_piece hl
  exact Piece.read_taken_ne_nil hp

/-- Inside a line a move stays as it is before every text that may stand behind its piece. -/
theorem Moves.replace_piece (h : Moves s text ts next) (hl : s.lineStart = false)
    (ht : next.lineStart = true ∨ Replaces tail next.cursor.rest) :
    Moves (s.withRest (text ++ tail)) text ts (next.withRest tail) := by
  obtain ⟨c, cs, p, hr, hp, rfl, rfl, rfl⟩ := h.exists_piece hl
  obtain ⟨more, htaken, hread⟩ := Piece.read_replace hp (ht.imp_left beq_iff_eq.1)
  refine moves_piece (s := s.withRest _) (p := p.withRest tail) hl ?_ hread
  exact congrArg (· ++ tail) htaken

/-- A move stays as it is before every text that starts with the same character. -/
theorem Moves.replace (h : Moves s text ts next)
    (ht : next.lineStart = true ∨ tail.head? = next.cursor.rest.head?) :
    Moves (s.withRest (text ++ tail)) text ts (next.withRest tail) := by
  cases hl : s.lineStart with
  | false => exact h.replace_piece hl (ht.imp_right .of_head)
  | true =>
    have hl' : (s.withRest (text ++ tail)).lineStart = true := hl
    have hne : tail.head? = next.cursor.rest.head? →
        (s.withRest (text ++ tail)).cursor.rest ≠ [] := by
      intro ht hnil
      obtain ⟨htext, rfl⟩ := List.append_eq_nil_iff.1 hnil
      refine h.rest_ne_nil ?_
      rw [h.rest_eq, htext, List.head?_eq_none_iff.1 ht.symm, List.append_nil]
    cases h.effect with
    | @emptyHead head _ hr he =>
      have ht : tail.head? = head.rest.head? := ht.resolve_left Bool.false_ne_true
      exact moves_emptyHead hl' (hne ht) (Layout.readHead_replace hr ht)
        ((Layout.isEmpty_replace ht).trans he)
    | @lineHead head level _ hr he hd =>
      have ht : tail.head? = head.rest.head? := ht.resolve_left Bool.false_ne_true
      exact moves_contentHead hl' (hne ht) (Layout.readHead_replace hr ht)
        ((Layout.isEmpty_replace ht).trans he) hd
    | gap hinside _ _ _ => cases hl.symm.trans hinside
    | lexeme hinside _ _ => cases hl.symm.trans hinside

/-- A course stays as it is before every text that starts with the same character, and before every
text at all if it ends with a line. -/
theorem Reaches.replace (h : Reaches s text ts last)
    (ht : last.lineStart = true ∨ tail.head? = last.cursor.rest.head?) :
    Reaches (s.withRest (text ++ tail)) text ts (last.withRest tail) := by
  induction h with
  | refl s => exact .refl _
  | @head s mid last text more ts us hm hr ih =>
    rw [List.append_assoc]
    refine .head (hm.replace ?_) (ih ht)
    by_cases hmore : more = []
    · cases hr with
      | refl => exact ht
      | head hm' _ =>
        -- the second move takes nothing, so it is at the start of a line
        have htext := (List.append_eq_nil_iff.1 hmore).1
        rw [← Bool.not_eq_false]
        exact .inl fun hl => hm'.text_ne_nil hl htext
    · refine .inr ?_
      rw [hr.rest_eq, List.head?_append_of_ne_nil _ hmore, List.head?_append_of_ne_nil _ hmore]

end Scan

end Offside
