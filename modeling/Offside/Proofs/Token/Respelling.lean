import Offside.Proofs.Token.Insertion

/-!
White space in another spelling. A respelling writes one character of white space as other white
space that covers the same ground. What reads pieces and heads of lines reads the respelled text in
the same way, so a scan of it makes the same steps, or several where the character stood. The tokens
stay where they are; only the end of a line moves behind what is put before its line feed. A tab may
be spelled as four spaces, and a line feed with a carriage return before it.
-/
namespace Offside

/-- The place a number of columns further on. -/
def Position.right (n : Nat) (p : Position) : Position := ⟨p.line, p.column + n⟩

/-- The token, a number of columns further on if it ends a line. -/
def Token.delay (n : Nat) (t : Token) : Token :=
  if t.kind = .newline then { t with position := t.position.right n } else t

theorem Token.delay_of_ne (n : Nat) {t : Token} (h : t.kind ≠ .newline) : t.delay n = t := if_neg h

theorem Token.delay_zero (t : Token) : t.delay 0 = t := by
  unfold Token.delay
  split <;> rfl

theorem Token.delay_of_isLevel (n : Nat) {t : Token} (h : t.isLevel = true) : t.delay n = t := by
  refine t.delay_of_ne n fun hk => ?_
  simp [isLevel, isIndent, isDedent, hk] at h

/-- A text without quotes. -/
def Quoteless (text : List Char) : Prop := '\x22' ∉ text ∧ '\x27' ∉ text

theorem Quoteless.of_append {text rest : List Char} (h : Quoteless (text ++ rest)) :
    Quoteless rest :=
  ⟨fun hc => h.1 (List.mem_append_right text hc), fun hc => h.2 (List.mem_append_right text hc)⟩

theorem Quoteless.head_ne {c : Char} {cs : List Char} (h : Quoteless (c :: cs)) :
    c ≠ '\x22' ∧ c ≠ '\x27' :=
  ⟨fun hc => h.1 (hc ▸ List.mem_cons_self), fun hc => h.2 (hc ▸ List.mem_cons_self)⟩

/-- Spaces, tabs, carriage returns and line feeds. -/
def whites : List Char := [' ', '\t', '\r', '\n']

theorem mem_partings_of_white {c : Char} (h : c ∈ whites) : c ∈ partings := by
  have hall : whites.all (· ∈ partings) = true := by decide
  simpa using List.all_eq_true.1 hall c h

/-- One character of white space, and what is written in its place. -/
structure Respelling where
  original : Char
  spelling : List Char
  /-- The columns by which the end of a line moves. -/
  delay : Nat
  white : ∀ c ∈ original :: spelling, c ∈ whites
  ne_nil : spelling ≠ []
  after_eq : ∀ p : Position, p.after spelling = p.next original
  /-- A blank is spelled as blanks of its width. -/
  blank : Layout.isBlank original = true →
    (∀ c ∈ spelling, Layout.isBlank c) ∧ Layout.width spelling = Layout.width [original]
  head_isBlank : ∀ c ∈ spelling.head?, Layout.isBlank c = Layout.isBlank original
  /-- A line is empty before the new spelling if it was before the old one. -/
  head_ends : ∀ c ∈ spelling.head?,
    (c == '\n' || c == '\r') = (original == '\n' || original == '\r')
  gap : original ≠ '\n' → Trivia spelling ∧ delay = 0
  feed : original = '\n' → ∃ lead, Trivia lead ∧ spelling = lead ++ ['\n'] ∧
    ∀ p : Position, p.after lead = p.right delay

namespace Respelling

variable (r : Respelling)

def spell (c : Char) : List Char := if c = r.original then r.spelling else [c]

/-- The text with every such character spelled anew. -/
def text (cs : List Char) : List Char := cs.flatMap r.spell

@[simp] theorem text_nil : r.text [] = [] := rfl

@[simp] theorem text_cons (c : Char) (cs : List Char) :
    r.text (c :: cs) = r.spell c ++ r.text cs := rfl

@[simp] theorem text_append (cs ds : List Char) : r.text (cs ++ ds) = r.text cs ++ r.text ds :=
  List.flatMap_append

variable {r} {c : Char} {cs : List Char} {p : Char → Bool}

theorem spell_of_ne (h : c ≠ r.original) : r.spell c = [c] := if_neg h

theorem text_eq_self (h : r.original ∉ cs) : r.text cs = cs := by
  induction cs with
  | nil => rfl
  | cons c cs ih =>
    have hc : c ≠ r.original := (List.ne_of_not_mem_cons h).symm
    rw [text_cons, spell_of_ne hc, ih (List.not_mem_of_not_mem_cons h), List.singleton_append]

theorem text_eq_nil_iff : r.text cs = [] ↔ cs = [] := by
  cases cs with
  | nil => simp
  | cons c cs =>
    have hne : r.spell c ≠ [] := by
      unfold spell
      split
      · exact r.ne_nil
      · simp
    simp [hne]

theorem after_text (q : Position) : q.after (r.text cs) = q.after cs := by
  induction cs generalizing q with
  | nil => rfl
  | cons c cs ih =>
    rw [text_cons, Position.after_append, Position.after_cons, ih]
    unfold spell
    split
    · rename_i hc
      rw [r.after_eq, hc]
    · rfl

/-- A spelled text starts as the text does, or with the spelling of its first character. -/
theorem head?_text (r : Respelling) (cs : List Char) :
    (r.text cs).head? = cs.head? ∨
      cs.head? = some r.original ∧ (r.text cs).head? = r.spelling.head? := by
  cases cs with
  | nil => exact .inl rfl
  | cons c cs =>
    rw [text_cons]
    unfold spell
    split
    · rename_i hc
      exact .inr ⟨congrArg some hc, List.head?_append_of_ne_nil _ r.ne_nil⟩
    · exact .inl rfl

/-- What does not tell the first character of the spelling from the original does not tell a text
from the spelled text by their first characters. -/
theorem map_head?_text {α : Type} {g : Char → α}
    (h : ∀ c ∈ r.spelling.head?, g c = g r.original) (cs : List Char) :
    (r.text cs).head?.map g = cs.head?.map g := by
  rcases r.head?_text cs with heq | ⟨hcs, htext⟩
  · rw [heq]
  · obtain ⟨d, ds, hd⟩ := List.exists_cons_of_ne_nil r.ne_nil
    have hg := h d (by simp [hd])
    simp [hcs, htext, hd, hg]

theorem mem_partings (h : c ∈ r.original :: r.spelling) : c ∈ partings :=
  mem_partings_of_white (r.white c h)

theorem mem_cons_of_head? (h : c ∈ r.spelling.head?) : c ∈ r.original :: r.spelling :=
  List.mem_cons_of_mem _ (List.mem_of_mem_head? h)

theorem replaces_text (cs : List Char) : Replaces (r.text cs) cs := by
  rcases r.head?_text cs with heq | ⟨-, htext⟩
  · exact .of_head heq
  · exact .of_parting (fun c hc => mem_partings (mem_cons_of_head? (htext ▸ hc))) cs

/-- Of a text that is spelled anew, a character that is no white space stays at the head. -/
theorem text_cons_of_ne (h : c ∉ whites) (cs : List Char) : r.text (c :: cs) = c :: r.text cs := by
  have hc : c ≠ r.original := fun he => h (he ▸ r.white _ List.mem_cons_self)
  rw [text_cons, spell_of_ne hc, List.singleton_append]

/-- The first character of a spelled text, if it is no white space. -/
theorem exists_of_text_eq_cons {rest : List Char} (hc : c ∉ whites) (h : r.text cs = c :: rest) :
    ∃ more, cs = c :: more ∧ rest = r.text more := by
  have hhead : (r.text cs).head? = some c := by rw [h, List.head?_cons]
  rcases r.head?_text cs with heq | ⟨-, htext⟩
  · obtain ⟨more, rfl⟩ := List.head?_eq_some_iff.1 (heq.symm.trans hhead)
    rw [text_cons_of_ne hc] at h
    exact ⟨more, rfl, (List.cons.inj h).2.symm⟩
  · exact absurd (r.white c (mem_cons_of_head? (htext.symm.trans hhead))) hc

/-- The class holds all of the spelling or does not hold its first character, as it holds the
original or not. -/
def Keeps (r : Respelling) (p : Char → Bool) : Prop :=
  (p r.original = true → ∀ c ∈ r.spelling, p c = true) ∧
    (p r.original = false → ∀ c ∈ r.spelling.head?, p c = false)

/-- Where a class ends in a text, it ends in the spelled text. -/
theorem Keeps.span (h : r.Keeps p) (cs : List Char) :
    (r.text cs).takeWhile p = r.text (cs.takeWhile p) ∧
      (r.text cs).dropWhile p = r.text (cs.dropWhile p) := by
  have hall : ∀ d ∈ r.text (cs.takeWhile p), p d = true := by
    intro d hd
    obtain ⟨c, hc, hd⟩ := List.mem_flatMap.1 hd
    have hp := List.mem_takeWhile_imp hc
    unfold spell at hd
    split at hd
    · rename_i heq
      exact h.1 (heq ▸ hp) d hd
    · rw [List.mem_singleton.1 hd]
      exact hp
  have hstop : ∀ c ∈ (cs.dropWhile p).head?, p c = false :=
    fun c hc => eq_false_of_head_dropWhile hc
  have hhead : ∀ c ∈ (r.text (cs.dropWhile p)).head?, p c = false := by
    rcases r.head?_text (cs.dropWhile p) with heq | ⟨hcs, htext⟩
    · rwa [heq]
    · rw [htext]
      exact h.2 (hstop _ hcs)
  have hsplit : r.text cs = r.text (cs.takeWhile p) ++ r.text (cs.dropWhile p) := by
    rw [← text_append, List.takeWhile_append_dropWhile]
  rw [hsplit]
  exact ⟨takeWhile_append_of_head hall hhead, dropWhile_append_of_head hall hhead⟩

/-- A class with all white space keeps the spelling. -/
theorem keeps_of_forall (h : ∀ c ∈ whites, p c = true) : r.Keeps p := by
  refine ⟨fun _ c hc => h c (r.white c (List.mem_cons_of_mem _ hc)), fun hp => ?_⟩
  rw [h _ (r.white _ List.mem_cons_self)] at hp
  cases hp

theorem keeps_isBlank : r.Keeps Layout.isBlank :=
  ⟨fun h => (r.blank h).1, fun h c hc => (r.head_isBlank c hc).trans h⟩

theorem keeps_open : r.Keeps (· ≠ '\x7d') :=
  keeps_of_forall (List.all_eq_true.1 (by decide))

theorem text_takeWhile (h : ∀ c ∈ partings, p c = false) (cs : List Char) :
    r.text (cs.takeWhile p) = cs.takeWhile p := by
  refine text_eq_self fun hmem => ?_
  have hp := List.mem_takeWhile_imp hmem
  rw [h _ (mem_partings List.mem_cons_self)] at hp
  cases hp

/-- Characters of a class without white space are spelled as they were, and end where they did. -/
theorem span_of_parting (h : ∀ c ∈ partings, p c = false) (cs : List Char) :
    (r.text cs).takeWhile p = cs.takeWhile p ∧
      (r.text cs).dropWhile p = r.text (cs.dropWhile p) := by
  have hkeeps : r.Keeps p := by
    refine ⟨fun hp => ?_, fun _ c hc => h c (mem_partings (mem_cons_of_head? hc))⟩
    rw [h _ (mem_partings List.mem_cons_self)] at hp
    cases hp
  have hspan := hkeeps.span cs
  rwa [text_takeWhile h] at hspan

/-- The piece of the spelled text. -/
def piece (r : Respelling) (x : Piece) : Piece := ⟨x.token, r.text x.taken, r.text x.rest⟩

theorem closeComment_text (cs : List Char) :
    Piece.closeComment (r.text cs) =
      (Piece.closeComment cs).map fun x => (r.text x.1, r.text x.2) := by
  obtain ⟨htake, hdrop⟩ := r.keeps_open.span cs
  unfold Piece.closeComment
  rw [htake, hdrop]
  cases hrest : cs.dropWhile (· ≠ '\x7d') with
  | nil => rfl
  | cons close rest =>
    have hclose : close ∉ whites := by
      obtain rfl : close = '\x7d' := by
        simpa using eq_false_of_head_dropWhile (Option.mem_def.2 (congrArg List.head? hrest))
      decide
    rw [text_cons_of_ne hclose]
    simp [text_cons_of_ne hclose]

theorem readWord_text (hc : isAlphabetic c = true) (cs : List Char) :
    Piece.readWord c (r.text cs) = r.piece (Piece.readWord c cs) := by
  obtain ⟨htake, hdrop⟩ := span_of_parting (r := r) isAlphabetic_of_parting cs
  have hletters := text_takeWhile (r := r) isAlphabetic_of_parting (c :: cs)
  rw [List.takeWhile_cons_of_pos hc] at hletters
  unfold Piece.readWord
  rw [htake, hdrop]
  dsimp only
  split <;> simp only [piece, Piece.mark, Piece.lexeme, hletters]

theorem text_spanNumber (cs : List Char) :
    r.text (Piece.spanNumber cs).1 = (Piece.spanNumber cs).1 := by
  have hdigits := text_takeWhile (r := r) isDigit_of_parting
  unfold Piece.spanNumber
  split
  · simp only [text_append, text_cons_of_ne (show '.' ∉ whites by decide), hdigits]
  · exact hdigits cs

theorem spanNumber_text (cs : List Char) :
    Piece.spanNumber (r.text cs) = ((Piece.spanNumber cs).1, r.text (Piece.spanNumber cs).2) := by
  have hspan := span_of_parting (r := r) isDigit_of_parting
  unfold Piece.spanNumber
  rw [(hspan cs).1, (hspan cs).2]
  split
  · rename_i hrest
    obtain ⟨more, hmore, rfl⟩ := exists_of_text_eq_cons (by decide) hrest
    simp only [hmore, (hspan more).1, (hspan more).2]
  · rename_i hrest
    split
    · rename_i more hmore
      refine absurd ?_ (hrest (r.text more))
      rw [hmore, text_cons_of_ne (by decide)]
    · rfl

theorem any_head?_text (h : ∀ c ∈ partings, p c = false) (cs : List Char) :
    (r.text cs).head?.any p = cs.head?.any p := by
  have hhead := map_head?_text (r := r) (g := p) (fun c hc => ?_) cs
  · simpa [Option.any_map] using congrArg (Option.any id) hhead
  · rw [h c (mem_partings (mem_cons_of_head? hc)), h _ (mem_partings List.mem_cons_self)]

theorem readSymbol_text (hc : c ≠ r.original) (cs : List Char) :
    Piece.readSymbol c (r.text cs) = (Piece.readSymbol c cs).map r.piece := by
  obtain ⟨htake, hdrop⟩ := span_of_parting (r := r) isDigit_of_parting cs
  have hspell := spell_of_ne hc
  by_cases hpair : ∀ d ∈ cs.head?, Kind.ofPair? c d = none
  · -- white space makes no pair, so the symbol stays single
    have hpair' : ∀ d ∈ (r.text cs).head?, Kind.ofPair? c d = none := by
      intro d hd
      rcases replaces_text cs d hd with hd | hd
      · exact hpair d hd
      · exact Piece.ofPair?_of_parting d hd
    rw [Piece.readSymbol_single hpair, Piece.readSymbol_single hpair',
      any_head?_text isDigit_of_parting, htake, hdrop]
    split
    · rfl
    · split
      · simp [Except.map, piece, Piece.number, Piece.lexeme, hspell,
          text_takeWhile isDigit_of_parting]
      · simp [Except.map, piece, Piece.mark, hspell]
    · simp [Except.map, piece, Piece.mark, hspell]
  · obtain ⟨d, hd, hkind⟩ : ∃ d, d ∈ cs.head? ∧ Kind.ofPair? c d ≠ none := by
      simpa using hpair
    obtain ⟨ds, rfl⟩ := List.head?_eq_some_iff.1 hd
    have hwhite : d ∉ whites := fun h =>
      hkind (Piece.ofPair?_of_parting d (mem_partings_of_white h))
    obtain ⟨kind, hkind⟩ := Option.ne_none_iff_exists'.1 hkind
    rw [text_cons_of_ne hwhite]
    simp [Piece.readSymbol, hkind, Except.map, piece, Piece.mark, hspell, text_cons_of_ne hwhite]

/-- What is read from a spelled text is what is read from the text, spelled. -/
theorem read_text (hc : c ≠ r.original) (hq : c ≠ '\x22' ∧ c ≠ '\x27') (cs : List Char) :
    Piece.read c (r.text cs) = (Piece.read c cs).map r.piece := by
  have hspell := spell_of_ne hc
  unfold Piece.read
  split
  · simp [Except.map, piece, Piece.mark, hspell]
  · simp [Except.map, piece, Piece.gap, hspell]
  · simp [Except.map, piece, Piece.gap, hspell]
  · simp [Except.map, piece, Piece.gap, hspell]
  · rw [closeComment_text]
    cases Piece.closeComment cs with
    | none => rfl
    | some x => simp [Except.map, piece, Piece.gap, hspell]
  · exact absurd rfl hq.1
  · exact absurd rfl hq.2
  · split
    · rename_i hword
      rw [readWord_text hword]
      rfl
    · split
      · rw [spanNumber_text]
        simp [Except.map, piece, Piece.number, Piece.lexeme, hspell, text_spanNumber]
      · exact readSymbol_text hc cs

end Respelling

namespace Layout

variable {inner body after : List Char}

theorem spanComments_unclosed (h : Piece.closeComment inner = none) :
    spanComments ('\x7b' :: inner) = .error [] := by
  rw [spanComments]
  split
  · rfl
  · rename_i hsome
    cases h.symm.trans hsome

theorem spanComments_closed (h : Piece.closeComment inner = some (body, after)) :
    spanComments ('\x7b' :: inner) =
      ((spanComments (after.dropWhile isBlank)).mapError
        ('\x7b' :: body ++ after.takeWhile isBlank ++ ·)).map
        fun x => ('\x7b' :: body ++ after.takeWhile isBlank ++ x.1, x.2) := by
  rw [spanComments]
  split
  · rename_i hnone
    cases h.symm.trans hnone
  · rename_i hsome
    cases h.symm.trans hsome
    cases spanComments (after.dropWhile isBlank) <;> rfl

end Layout

namespace Respelling

variable {r : Respelling} {cs : List Char}

/-- The head of the spelled line. -/
def head (r : Respelling) (h : Layout.Head) : Layout.Head :=
  ⟨r.text h.blanks, r.text h.comments, r.text h.rest⟩

theorem spanComments_text (cs : List Char) :
    Layout.spanComments (r.text cs) =
      ((Layout.spanComments cs).mapError r.text).map fun x => (r.text x.1, r.text x.2) := by
  have hbrace : '\x7b' ∉ whites := by decide
  -- a comment that is closed: the blanks behind it are spelled with it
  have hclosed : ∀ {inner body after}, Piece.closeComment inner = some (body, after) →
      Layout.spanComments (r.text ('\x7b' :: inner)) =
        ((Layout.spanComments (r.text (after.dropWhile Layout.isBlank))).mapError
          (r.text ('\x7b' :: body ++ after.takeWhile Layout.isBlank) ++ ·)).map
          fun x => (r.text ('\x7b' :: body ++ after.takeWhile Layout.isBlank) ++ x.1, x.2) := by
    intro inner body after hclose
    obtain ⟨htake, hdrop⟩ := r.keeps_isBlank.span after
    have hclose' : Piece.closeComment (r.text inner) = some (r.text body, r.text after) := by
      rw [closeComment_text, hclose, Option.map_some]
    rw [text_cons_of_ne hbrace, Layout.spanComments_closed hclose', htake, hdrop]
    simp only [List.cons_append, text_cons_of_ne hbrace, text_append]
  fun_induction Layout.spanComments cs with
  | case1 inner hclose =>
    have hclose' : Piece.closeComment (r.text inner) = none := by
      rw [closeComment_text, hclose, Option.map_none]
    rw [text_cons_of_ne hbrace, Layout.spanComments_unclosed hclose']
    rfl
  | case2 inner body after hclose comment before heq ih =>
    rw [hclosed hclose, ih, heq]
    simp only [Except.map, Except.mapError, comment, text_append]
  | case3 inner body after hclose comment taken rest heq ih =>
    rw [hclosed hclose, ih, heq]
    simp only [Except.map, Except.mapError, comment, text_append]
  | case4 cs hopen =>
    rw [Layout.spanComments.eq_def]
    split
    · rename_i hcs
      obtain ⟨more, hmore, -⟩ := exists_of_text_eq_cons hbrace hcs
      exact absurd hmore (hopen more)
    · rfl

/-- The head of a spelled line is the head of the line, spelled. -/
theorem readHead_text (cs : List Char) :
    Layout.readHead (r.text cs) = ((Layout.readHead cs).mapError r.text).map r.head := by
  obtain ⟨htake, hdrop⟩ := r.keeps_isBlank.span cs
  unfold Layout.readHead
  rw [htake, hdrop, spanComments_text]
  cases Layout.spanComments (cs.dropWhile Layout.isBlank) with
  | error before => simp [Except.map, Except.mapError]
  | ok x => rfl

theorem isEmpty_head (h : Layout.Head) : (r.head h).isEmpty = h.isEmpty := by
  have hhead := map_head?_text r.head_ends h.rest
  rw [Layout.isEmpty_eq, Layout.isEmpty_eq]
  simpa [Option.all_map, head] using congrArg (Option.all id) hhead

theorem width_append (s t : List Char) :
    Layout.width (s ++ t) = Layout.width s + Layout.width t := by
  induction s with
  | nil => simp [Layout.width]
  | cons c s ih => simp [Layout.width, ih, Nat.add_assoc]

theorem width_text {blanks : List Char} (h : ∀ c ∈ blanks, Layout.isBlank c) :
    Layout.width (r.text blanks) = Layout.width blanks := by
  induction blanks with
  | nil => rfl
  | cons c blanks ih =>
    have hspell : Layout.width (r.spell c) = Layout.width [c] := by
      unfold spell
      split
      · rename_i hc
        rw [hc, (r.blank (hc ▸ h c List.mem_cons_self)).2]
      · rfl
    rw [text_cons, width_append, hspell, ih fun d hd => h d (List.mem_cons_of_mem c hd),
      ← width_append, List.singleton_append]

end Respelling

namespace Scan

variable {r : Respelling} {s next : Scan} {c : Char} {cs text : List Char} {ts : List Token}

/-- The scan before the spelled text. -/
def respell (s : Scan) (r : Respelling) : Scan := s.withRest (r.text s.cursor.rest)

@[simp] theorem respell_rest (s : Scan) (r : Respelling) :
    (s.respell r).cursor.rest = r.text s.cursor.rest := rfl

/-- What a step gives before the spelled text. -/
def respellStep (r : Respelling) (x : List Token × Scan) : List Token × Scan :=
  (x.1.map (Token.delay r.delay), x.2.respell r)

theorem map_delay_of_isLevel (n : Nat) (h : ∀ t ∈ ts, t.isLevel = true) :
    ts.map (Token.delay n) = ts :=
  (List.map_congr_left fun t ht => t.delay_of_isLevel n (h t ht)).trans (List.map_id ts)

theorem readHead_respell (s : Scan) (r : Respelling) :
    (s.respell r).readHead = s.readHead.map (respellStep r) := by
  unfold readHead respell
  simp only [withRest, Respelling.readHead_text]
  cases hr : Layout.readHead s.cursor.rest with
  | error before => simp [Except.map, Except.mapError, Respelling.after_text]
  | ok h =>
    have hwidth := Respelling.width_text (r := r) (Layout.readHead_sound hr).1
    simp only [Except.map, Except.mapError, Respelling.isEmpty_head]
    simp only [Respelling.head, hwidth]
    split
    · simp [respellStep, respell, withRest, Cursor.moveOver, Respelling.after_text]
    · cases Layout.level s.depth (Layout.width h.blanks) with
      | error fault => rfl
      | ok level =>
        have hlevels : (Layout.shift s.depth level s.cursor.position).map (Token.delay r.delay) =
            Layout.shift s.depth level s.cursor.position :=
          map_delay_of_isLevel _ fun t ht => (Layout.of_mem_shift ht).1
        simp [respellStep, respell, withRest, Cursor.moveOver, Respelling.after_text, hlevels]

/-- A piece that is not spelled anew keeps its token: if ends of lines move, it ends no line. -/
theorem delay_of_read {p : Piece} {kind : Kind} {value : Option String} (hc : c ≠ r.original)
    (hp : Piece.read c cs = .ok p) (ht : p.token = some (kind, value)) (q : Position) :
    Token.delay r.delay ⟨kind, q, value⟩ = ⟨kind, q, value⟩ := by
  by_cases hfeed : r.original = '\n'
  · refine Token.delay_of_ne _ fun hk => hc ?_
    rw [hfeed]
    exact (Piece.read_newline_iff hp ht).1 hk
  · rw [(r.gap hfeed).2, Token.delay_zero]

theorem readPiece_respell (hr : s.cursor.rest = c :: cs) (hc : c ≠ r.original)
    (hq : c ≠ '\x22' ∧ c ≠ '\x27') : (s.respell r).readPiece = s.readPiece.map (respellStep r) := by
  have hrest : r.text (c :: cs) = c :: r.text cs := by
    rw [Respelling.text_cons, Respelling.spell_of_ne hc, List.singleton_append]
  unfold readPiece respell
  simp only [withRest, hr, hrest, Respelling.read_text hc hq]
  cases hp : Piece.read c cs with
  | error fault => rfl
  | ok p =>
    simp only [Except.map, Respelling.piece]
    cases ht : p.token with
    | none => simp [respellStep, respell, withRest, Cursor.moveOver, Respelling.after_text]
    | some x =>
      have hdelay := delay_of_read hc hp ht s.cursor.position
      simp [respellStep, respell, withRest, Cursor.moveOver, Respelling.after_text, hdelay]

theorem eq_of_parts {s t : Scan} (hrest : s.cursor.rest = t.cursor.rest)
    (hposition : s.cursor.position = t.cursor.position) (hdepth : s.depth = t.depth)
    (hline : s.lineStart = t.lineStart) : s = t := by
  obtain ⟨⟨rest, position⟩, depth, line⟩ := s
  cases hrest
  cases hposition
  cases hdepth
  cases hline
  rfl

theorem respell_rest_of_original (hr : s.cursor.rest = r.original :: cs) :
    (s.respell r).cursor.rest = r.spelling ++ r.text cs := by
  have hspell : r.spell r.original = r.spelling := if_pos rfl
  rw [respell_rest, hr, Respelling.text_cons, hspell]

/-- Inside a line a scan passes the spelling of a line feed. -/
theorem reaches_feed (hl : s.lineStart = false) (hr : s.cursor.rest = r.original :: cs)
    (hfeed : r.original = '\n') :
    Reaches (s.respell r) r.spelling [⟨.newline, s.cursor.position.right r.delay, none⟩]
      (respell ⟨s.cursor.moveOver [r.original] cs, s.depth, true⟩ r) := by
  obtain ⟨lead, hlead, hspelling, hdelay⟩ := r.feed hfeed
  have hrest := respell_rest_of_original hr
  rw [hspelling, List.append_assoc] at hrest
  obtain ⟨t, ht, htail, hline, hdepth⟩ := exists_reaches_lineEnd (s := s.respell r) hlead hl hrest
  obtain rfl : t = respell ⟨s.cursor.moveOver [r.original] cs, s.depth, true⟩ r := by
    refine eq_of_parts htail ?_ hdepth hline
    rw [ht.position_eq, ← hspelling]
    exact r.after_eq s.cursor.position
  rw [← hdelay, hspelling]
  exact ht

/-- Inside a line a scan passes the spelling of a gap. -/
theorem reaches_gap (hl : s.lineStart = false) (hr : s.cursor.rest = r.original :: cs)
    (hgap : r.original ≠ '\n') :
    Reaches (s.respell r) r.spelling []
      (respell ⟨s.cursor.moveOver [r.original] cs, s.depth, false⟩ r) := by
  obtain ⟨t, ht, htail, hline, hdepth⟩ :=
    exists_reaches_trivia (s := s.respell r) (r.gap hgap).1 hl (respell_rest_of_original hr)
  obtain rfl : t = respell ⟨s.cursor.moveOver [r.original] cs, s.depth, false⟩ r := by
    refine eq_of_parts htail ?_ hdepth hline
    rw [ht.position_eq]
    exact r.after_eq s.cursor.position
  exact ht

/-- Inside a line a scan passes the new spelling as it passed the character. -/
theorem exists_reaches_spelling (hl : s.lineStart = false) (hr : s.cursor.rest = r.original :: cs) :
    ∃ ts next, Moves s [r.original] ts next ∧
      Reaches (s.respell r) r.spelling (ts.map (Token.delay r.delay)) (next.respell r) := by
  by_cases hfeed : r.original = '\n'
  · have hm : Moves s [r.original] [⟨.newline, s.cursor.position, none⟩]
        ⟨s.cursor.moveOver [r.original] cs, s.depth, true⟩ := by
      rw [hfeed] at hr ⊢
      exact moves_piece hl hr rfl
    exact ⟨_, _, hm, reaches_feed hl hr hfeed⟩
  · have hm : Moves s [r.original] [] ⟨s.cursor.moveOver [r.original] cs, s.depth, false⟩ := by
      have hwhite := r.white _ List.mem_cons_self
      generalize r.original = c at hr hfeed hwhite ⊢
      simp only [whites, List.mem_cons, List.not_mem_nil, or_false] at hwhite
      rcases hwhite with rfl | rfl | rfl | rfl
      · exact moves_piece hl hr rfl
      · exact moves_piece hl hr rfl
      · exact moves_piece hl hr rfl
      · exact absurd rfl hfeed
    exact ⟨_, _, hm, reaches_gap hl hr hfeed⟩

/-- The next step does not meet the character: it reads the head of a line, or another piece. -/
def Passes (s : Scan) (r : Respelling) : Prop :=
  s.lineStart = true ∨ r.original ∉ s.cursor.rest.head?

theorem passes_or_original (s : Scan) (r : Respelling) :
    s.Passes r ∨ s.lineStart = false ∧ ∃ cs, s.cursor.rest = r.original :: cs := by
  by_cases h : s.Passes r
  · exact .inl h
  · obtain ⟨hl, hhead⟩ := not_or.1 h
    exact .inr ⟨Bool.eq_false_iff.2 hl, List.head?_eq_some_iff.1 (not_not.1 hhead)⟩

/-- Such a step is one step before the spelled text too. -/
theorem Passes.step_respell (h : s.Passes r) (hq : Quoteless s.cursor.rest)
    (hne : s.cursor.rest ≠ []) : (s.respell r).step = s.step.map (respellStep r) := by
  have hline : (s.respell r).lineStart = s.lineStart := rfl
  unfold step
  rw [hline]
  split
  · exact readHead_respell s r
  · rename_i hl
    obtain ⟨c, cs, hr⟩ := List.exists_cons_of_ne_nil hne
    have hc := h.resolve_left hl
    rw [hr] at hc hq
    exact readPiece_respell hr (fun he => hc (by simp [he])) hq.head_ne

/-- A step before the text is a course before the spelled text. -/
theorem Moves.respell (h : Moves s text ts next) (hq : Quoteless s.cursor.rest) :
    ∃ text, Reaches (s.respell r) text (ts.map (Token.delay r.delay)) (next.respell r) := by
  rcases passes_or_original s r with hpasses | ⟨hl, cs, hr⟩
  · have hstep := hpasses.step_respell hq h.rest_ne_nil
    rw [h.step_eq] at hstep
    obtain ⟨text, hm⟩ := exists_moves (mt Respelling.text_eq_nil_iff.1 h.rest_ne_nil) hstep
    exact ⟨text, .single hm⟩
  · obtain ⟨us, t, hm, ht⟩ := exists_reaches_spelling hl hr
    obtain ⟨-, rfl, rfl⟩ := h.unique hm
    exact ⟨_, ht⟩

/-- A step that fails before the text fails before the spelled text. -/
theorem step_respell_error {e : LexicalError} (hq : Quoteless s.cursor.rest)
    (hne : s.cursor.rest ≠ []) (h : s.step = .error e) : (s.respell r).step = .error e := by
  rcases passes_or_original s r with hpasses | ⟨hl, cs, hr⟩
  · rw [hpasses.step_respell hq hne, h]
    rfl
  · -- white space never fails
    obtain ⟨us, t, hm, -⟩ := exists_reaches_spelling hl hr
    cases h.symm.trans hm.step_eq

/-- A scan of the spelled text finds what the scan of the text finds, with the ends of lines
delayed. -/
theorem run_respell (hq : Quoteless s.cursor.rest) (done : Array Token) :
    (s.respell r).run (done.map (Token.delay r.delay)) =
      (s.run done).map (List.map (Token.delay r.delay)) := by
  fun_induction run done s with
  | case1 done s hs =>
    have hclose := map_delay_of_isLevel r.delay fun t ht => (of_mem_close (s := s) ht).1
    have hend : (s.respell r).cursor.rest = [] := Respelling.text_eq_nil_iff.2 hs
    rw [run, dif_pos hend]
    simp only [Except.map, Array.toList_map, List.map_append, hclose]
    rfl
  | case2 done s hs e hstep =>
    exact run_of_error (mt Respelling.text_eq_nil_iff.1 hs) (step_respell_error hq hs hstep) _
  | case3 done s hs tokens mid hstep ih =>
    -- one step here is as many steps there as the spelling has pieces
    obtain ⟨text, hm⟩ := exists_moves hs hstep
    obtain ⟨text', hreach⟩ := hm.respell (r := r) hq
    have hmid : Quoteless mid.cursor.rest := Quoteless.of_append (hm.rest_eq ▸ hq)
    rw [hreach.run_through, ← ih hmid]
    simp

end Scan

/-- The source with every such character spelled anew. -/
def Respelling.source (r : Respelling) (source : String) : String :=
  String.ofList (r.text source.toList)

theorem Respelling.tokenize_source (r : Respelling) {source : String}
    (hq : Quoteless source.toList) :
    tokenize (r.source source) = (tokenize source).map (List.map (Token.delay r.delay)) := by
  have hrun := Scan.run_respell (s := Scan.start source) (r := r) hq #[]
  rw [Scan.respell, Scan.start_withRest, Array.map_empty] at hrun
  exact hrun

/-- A tab as four spaces. -/
def spacedTabs : Respelling where
  original := '\t'
  spelling := [' ', ' ', ' ', ' ']
  delay := 0
  white := by simp [whites]
  ne_nil := by simp
  after_eq p := rfl
  blank _ := ⟨by simp [Layout.isBlank], rfl⟩
  head_isBlank := by simp [Layout.isBlank]
  head_ends := by simp
  gap _ := ⟨.blank (by simp) (.blank (by simp) (.blank (by simp) (.blank (by simp) .nil))), rfl⟩
  feed h := by cases h

/-- A source without quotes gives the same with its tabs as spaces: the same tokens at the same
places, or the same error. -/
theorem tokenize_spacedTabs (source : String) (hq : Quoteless source.toList) :
    tokenize (spacedTabs.source source) = tokenize source := by
  have hsame : Token.delay spacedTabs.delay = id := funext Token.delay_zero
  rw [spacedTabs.tokenize_source hq, hsame, List.map_id_fun]
  cases tokenize source <;> rfl

theorem tokenize_spacedTabs_nested :
    tokenize "a    \x7b    \x7d+\n    b" = tokenize "a\t\x7b\t\x7d+\n\tb" ∧
    tokenize "a\t\x7b\t\x7d+\n\tb" = .ok [⟨.word, ⟨1, 0⟩, some "a"⟩, ⟨.plus, ⟨1, 11⟩, none⟩,
      ⟨.newline, ⟨1, 12⟩, none⟩, ⟨.indent, ⟨2, 0⟩, none⟩, ⟨.word, ⟨2, 4⟩, some "b"⟩,
      ⟨.dedent, ⟨2, 5⟩, none⟩] ∧
    tokenize "     b" = tokenize " \tb" ∧
    tokenize " \tb" = .error ⟨.irregularIndentation 5, ⟨1, 0⟩⟩ := by
  have htokens := tokenize_spacedTabs "a\t\x7b\t\x7d+\n\tb" ⟨by decide, by decide⟩
  have herror := tokenize_spacedTabs " \tb" ⟨by decide, by decide⟩
  exact ⟨htokens, by decide +kernel, herror, by decide +kernel⟩

/-- A line feed with a carriage return before it. -/
def returnedFeeds : Respelling where
  original := '\n'
  spelling := ['\r', '\n']
  delay := 1
  white := by simp [whites]
  ne_nil := by simp
  after_eq p := rfl
  blank h := by cases h
  head_isBlank := by simp [Layout.isBlank]
  head_ends := by simp
  gap h := absurd rfl h
  feed _ := ⟨['\r'], .blank (by simp) .nil, rfl, fun p => rfl⟩

/-- A source without quotes gives the same with carriage returns before its line feeds, whether or
not it has others: the same error, or the same tokens at the same places, except that the end of
each line is one column further on. -/
theorem tokenize_returnedFeeds (source : String) (hq : Quoteless source.toList) :
    tokenize (returnedFeeds.source source) = (tokenize source).map (List.map (Token.delay 1)) :=
  returnedFeeds.tokenize_source hq

theorem tokenize_returnedFeeds_nested :
    tokenize "a\r\n \x7b\r\n\x7d\r\n    b" =
      (tokenize "a\n \x7b\n\x7d\n    b").map (List.map (Token.delay 1)) ∧
    tokenize "a\r\n \x7b\r\n\x7d\r\n    b" = .ok [⟨.word, ⟨1, 0⟩, some "a"⟩,
      ⟨.newline, ⟨1, 2⟩, none⟩, ⟨.newline, ⟨3, 2⟩, none⟩, ⟨.indent, ⟨4, 0⟩, none⟩,
      ⟨.word, ⟨4, 4⟩, some "b"⟩, ⟨.dedent, ⟨4, 5⟩, none⟩] ∧
    tokenize "a&\r\n" = .error ⟨.unexpectedCharacter '&', ⟨1, 1⟩⟩ := by
  have htokens := tokenize_returnedFeeds "a\n \x7b\n\x7d\n    b" ⟨by decide, by decide⟩
  have herror := tokenize_returnedFeeds "a&\n" ⟨by decide, by decide⟩
  have hplain : tokenize "a&\n" = .error ⟨.unexpectedCharacter '&', ⟨1, 1⟩⟩ := by decide +kernel
  rw [hplain] at herror
  exact ⟨htokens, by decide +kernel, herror⟩

end Offside
