import Offside.Proofs.Token.Concatenation

/-!
Blank lines and comments that are put into a text. At the start of a line a scan passes a blank line
and is again at the start of a line, below as many levels as before; behind a piece of a line it
passes trivia and is again inside the line. Either way it stands beside the scan that it would have
been without them, so the text that follows is read in the same way.
-/
namespace Offside

/-- The characters of a blank line before its line feed: blanks, then comments with the blanks after
them, then perhaps a carriage return and blanks. -/
inductive BlankLine : List Char → Prop
  | plain {blanks comments : List Char} (hb : ∀ c ∈ blanks, Layout.isBlank c)
      (hc : Commented comments) : BlankLine (blanks ++ comments)
  | returned {blanks comments more : List Char} (hb : ∀ c ∈ blanks, Layout.isBlank c)
      (hc : Commented comments) (hm : ∀ c ∈ more, Layout.isBlank c) :
      BlankLine (blanks ++ comments ++ '\r' :: more)

/-- A blank line has the head of an empty line and then only trivia, whatever follows. -/
theorem BlankLine.split {line : List Char} (h : BlankLine line) (rest : List Char) :
    ∃ blanks comments ending, line = blanks ++ comments ++ ending ∧ Trivia ending ∧
      Layout.readHead (line ++ '\n' :: rest) = .ok ⟨blanks, comments, ending ++ '\n' :: rest⟩ ∧
      Layout.Head.isEmpty ⟨blanks, comments, ending ++ '\n' :: rest⟩ = true := by
  cases h with
  | @plain blanks comments hb hc =>
    have hbare : Layout.Bare ('\n' :: rest) := by simp [Layout.Bare, Layout.isBlank]
    exact ⟨blanks, comments, [], by simp, .nil, Layout.readHead_append hb hc hbare, rfl⟩
  | @returned blanks comments more hb hc hm =>
    have hbare : Layout.Bare ('\r' :: more ++ '\n' :: rest) := by
      simp [Layout.Bare, Layout.isBlank]
    refine ⟨blanks, comments, '\r' :: more, rfl, ?_, ?_, rfl⟩
    · exact .blank (by simp) (Layout.trivia_of_blanks hm)
    · rw [List.append_assoc]
      exact Layout.readHead_append hb hc hbare

/-- Outcomes that differ in the tokens `added` behind the tokens `ts`, and otherwise in places only:
what follows says the same, or fails over the same fault. -/
def SameBut (ts added : List Token) (x y : Except LexicalError (List Token)) : Prop :=
  Matches (fun _ _ => True) (fun us vs => ∃ later later', us = ts ++ later ∧
    vs = ts ++ added ++ later' ∧ later'.map Token.sign = later.map Token.sign) x y

/-- Trivia may stand behind every piece. -/
theorem Trivia.replaces {gap rest : List Char} (h : Trivia gap) : Replaces (gap ++ rest) rest := by
  cases gap with
  | nil => exact .of_head rfl
  | cons c gap =>
    refine .of_parting ?_ rest
    rintro d ⟨⟩
    rcases h.head with rfl | rfl | rfl | rfl <;> decide

namespace Scan

variable {s s' next : Scan} {text rest : List Char} {ts : List Token}

/-- A piece of a line that is no line feed stays inside the line. -/
theorem Moves.lineStart_eq_false (h : Moves s text ts next) (hl : s.lineStart = false)
    (hne : text ≠ ['\n']) : next.lineStart = false := by
  obtain ⟨c, cs, p, hr, hp, rfl, rfl, rfl⟩ := h.exists_piece hl
  refine beq_eq_false_iff_ne.2 ?_
  rintro rfl
  cases hp
  exact hne rfl

/-- Inside a line a scan passes trivia. -/
theorem exists_reaches_trivia {gap : List Char} (ht : Trivia gap) (hl : s.lineStart = false)
    (hr : s.cursor.rest = gap ++ rest) :
    ∃ t, Reaches s gap [] t ∧ t.cursor.rest = rest ∧ t.lineStart = false ∧ t.depth = s.depth := by
  induction ht generalizing s with
  | nil => exact ⟨s, .refl s, hr, hl, rfl⟩
  | @blank c more hc _ ih =>
    have hread : Piece.read c (more ++ rest) = .ok (.gap [c] (more ++ rest)) := by
      rcases hc with rfl | rfl | rfl <;> rfl
    have hline : (c == '\n') = false := by
      rcases hc with rfl | rfl | rfl <;> rfl
    have hm := moves_piece hl hr hread
    obtain ⟨t, ht, hrest, hinside, hdepth⟩ :=
      ih (s := ⟨s.cursor.moveOver [c] (more ++ rest), s.depth, c == '\n'⟩) hline rfl
    exact ⟨t, .head hm ht, hrest, hinside, hdepth⟩
  | @comment body more hb _ ih =>
    have hread : Piece.read '\x7b' (body ++ '\x7d' :: (more ++ rest)) =
        .ok (.gap ('\x7b' :: body ++ ['\x7d']) (more ++ rest)) := by
      simp [Piece.read, Piece.closeComment_append hb, Piece.gap]
    have hm := moves_piece hl (by simpa using hr) hread
    obtain ⟨t, ht, hrest, hinside, hdepth⟩ :=
      ih (s := ⟨s.cursor.moveOver ('\x7b' :: body ++ ['\x7d']) (more ++ rest), s.depth, false⟩)
        rfl rfl
    refine ⟨t, ?_, hrest, hinside, hdepth⟩
    simpa [Piece.tokens, Piece.gap] using Reaches.head hm ht

/-- Trivia and then the end of the line: inside a line a scan passes both. -/
theorem exists_reaches_lineEnd {ending : List Char} (ht : Trivia ending) (hl : s.lineStart = false)
    (hr : s.cursor.rest = ending ++ '\n' :: rest) :
    ∃ t, Reaches s (ending ++ ['\n']) [⟨.newline, s.cursor.position.after ending, none⟩] t ∧
      t.cursor.rest = rest ∧ t.lineStart = true ∧ t.depth = s.depth := by
  obtain ⟨mid, hmid, hrest, hinside, hdepth⟩ := exists_reaches_trivia ht hl hr
  have hm : Moves mid ['\n'] [⟨.newline, mid.cursor.position, none⟩]
      ⟨mid.cursor.moveOver ['\n'] rest, mid.depth, true⟩ := moves_piece hinside hrest rfl
  rw [← hmid.position_eq]
  exact ⟨_, hmid.trans (.single hm), rfl, rfl, hdepth⟩

/-- From the start of a line a scan passes a blank line. -/
theorem exists_reaches_blankLine {line : List Char} (hline : BlankLine line)
    (hl : s.lineStart = true) (hr : s.cursor.rest = line ++ '\n' :: rest) :
    ∃ t, Reaches s (line ++ ['\n']) [⟨.newline, s.cursor.position.after line, none⟩] t ∧
      t.cursor.rest = rest ∧ t.lineStart = true ∧ t.depth = s.depth := by
  obtain ⟨blanks, comments, ending, rfl, hending, hhead, hempty⟩ := hline.split rest
  have hm : Moves s (blanks ++ comments) []
      ⟨s.cursor.moveOver (blanks ++ comments) (ending ++ '\n' :: rest), s.depth, false⟩ :=
    moves_emptyHead hl (by simp [hr]) (hr ▸ hhead) hempty
  obtain ⟨t, ht, hrest, hstart, hdepth⟩ :=
    exists_reaches_lineEnd
      (s := ⟨s.cursor.moveOver (blanks ++ comments) (ending ++ '\n' :: rest), s.depth, false⟩)
      hending rfl rfl
  refine ⟨t, ?_, hrest, hstart, hdepth⟩
  rw [List.append_assoc, Position.after_append]
  exact .head hm ht

/-- Two texts are read alike from two moments that stand beside each other. -/
theorem Reaches.sameBut {source inserted : String} {before before' : List Char}
    {added : List Token} (h : Reaches (start source) before ts s)
    (h' : Reaches (start inserted) before' (ts ++ added) s')
    (hs : Beside (fun _ _ => True) s s') :
    SameBut ts added (tokenize source) (tokenize inserted) := by
  rw [tokenize, tokenize, h.run_through, h'.run_through]
  refine (hs.run (fun _ _ _ _ => trivial) _ _).mono ?_
  rintro us vs ⟨later, later', rfl, rfl, hlater⟩
  exact ⟨later, later', by simp, by simp, signs_of_beside hlater⟩

end Scan

open Scan

/-- At any moment of a scan, `before` has been read, with the tokens `ts`, and the rest lies ahead.
A blank line that is put in between at the start of a line adds its newline; trivia behind a piece
of a line that is no line feed adds nothing. Both leave the tokens before them as they are, and what
the tokens behind them say, or the fault of an error. -/
theorem tokenize_insert (source : String) :
    (∀ before ts s line, Reaches (Scan.start source) before ts s → s.lineStart = true →
      BlankLine line →
      SameBut ts [⟨.newline, Position.ofText (before ++ line), none⟩] (tokenize source)
        (tokenize (String.ofList (before ++ (line ++ '\n' :: s.cursor.rest))))) ∧
    ∀ before ts s text us next gap, Reaches (Scan.start source) before ts s →
      s.lineStart = false → Moves s text us next → text ≠ ['\n'] → Trivia gap →
      SameBut (ts ++ us) [] (tokenize source)
        (tokenize (String.ofList (before ++ (text ++ (gap ++ next.cursor.rest))))) := by
  constructor
  · -- at the start of a line nothing of what lies ahead has been looked at
    intro before ts s line hreach hl hline
    have hto : Reaches ((start source).withRest (before ++ (line ++ '\n' :: s.cursor.rest)))
        before ts (s.withRest (line ++ '\n' :: s.cursor.rest)) :=
      hreach.replace (.inl hl)
    rw [start_withRest] at hto
    obtain ⟨t, ht, hrest, hstart, hdepth⟩ :=
      exists_reaches_blankLine hline (s := s.withRest (line ++ '\n' :: s.cursor.rest)) hl rfl
    have hplace : s.cursor.position.after line = Position.ofText (before ++ line) := by
      rw [hreach.position_start, ← Position.start_after, ← Position.start_after,
        Position.after_append]
    rw [← hplace]
    exact hreach.sameBut (hto.trans ht) ⟨⟨hrest, hstart.trans hl.symm⟩, hdepth, trivial⟩
  · -- the piece ends where it did, since trivia parts it from what follows
    intro before ts s text us next gap hreach hl hm htext hgap
    have hne := hm.text_ne_nil hl
    have hinside : next.lineStart = false := hm.lineStart_eq_false hl htext
    have hto : Reaches ((start source).withRest (before ++ (text ++ (gap ++ next.cursor.rest))))
        before ts (s.withRest (text ++ (gap ++ next.cursor.rest))) := by
      refine hreach.replace (.inr ?_)
      rw [hm.rest_eq, List.head?_append_of_ne_nil _ hne, List.head?_append_of_ne_nil _ hne]
    rw [start_withRest] at hto
    have hpiece : Moves (s.withRest (text ++ (gap ++ next.cursor.rest))) text us
        (next.withRest (gap ++ next.cursor.rest)) := hm.replace_piece hl (.inr hgap.replaces)
    obtain ⟨t, ht, hrest, hline, hdepth⟩ :=
      exists_reaches_trivia hgap (s := next.withRest (gap ++ next.cursor.rest)) hinside rfl
    have hall := (hto.trans (.single hpiece)).trans ht
    refine (hreach.trans (.single hm)).sameBut hall
      ⟨⟨hrest, hline.trans hinside.symm⟩, hdepth, trivial⟩

namespace Insertion

/-- A line and a block below it. -/
def source : String := "a\n\tb"

/-- The first line, read. -/
def firstLine : List Token := [⟨.word, ⟨1, 0⟩, some "a"⟩, ⟨.newline, ⟨1, 1⟩, none⟩]

/-- The scan where the second line starts. -/
def second : Scan := ⟨⟨['\t', 'b'], ⟨2, 0⟩⟩, 0, true⟩

/-- The scan behind the tab of the second line. -/
def inside : Scan := ⟨⟨['b'], ⟨2, 4⟩⟩, 1, false⟩

theorem reaches_second : Reaches (Scan.start source) ['a', '\n'] firstLine second := by
  have hhead : Moves (Scan.start source) [] [] ⟨⟨['a', '\n', '\t', 'b'], ⟨1, 0⟩⟩, 0, false⟩ :=
    ⟨by decide +kernel, by decide +kernel, rfl⟩
  have hword : Moves ⟨⟨['a', '\n', '\t', 'b'], ⟨1, 0⟩⟩, 0, false⟩ ['a']
      [⟨.word, ⟨1, 0⟩, some "a"⟩] ⟨⟨['\n', '\t', 'b'], ⟨1, 1⟩⟩, 0, false⟩ :=
    ⟨by decide +kernel, by decide +kernel, rfl⟩
  have hline : Moves ⟨⟨['\n', '\t', 'b'], ⟨1, 1⟩⟩, 0, false⟩ ['\n']
      [⟨.newline, ⟨1, 1⟩, none⟩] second :=
    ⟨by decide +kernel, by decide +kernel, rfl⟩
  exact .head hhead (.head hword (.single hline))

theorem moves_second : Moves second ['\t'] [⟨.indent, ⟨2, 0⟩, none⟩] inside :=
  ⟨by decide +kernel, by decide +kernel, rfl⟩

theorem moves_inside : Moves inside ['b'] [⟨.word, ⟨2, 4⟩, some "b"⟩] ⟨⟨[], ⟨2, 5⟩⟩, 1, false⟩ :=
  ⟨by decide +kernel, by decide +kernel, rfl⟩

end Insertion

open Insertion in
theorem tokenize_insert_nested :
    SameBut firstLine [⟨.newline, ⟨3, 7⟩, none⟩] (tokenize source)
      (tokenize "a\n \x7b\n\x7d \r\t\n\tb") ∧
    SameBut (firstLine ++ [⟨.indent, ⟨2, 0⟩, none⟩] ++ [⟨.word, ⟨2, 4⟩, some "b"⟩]) []
      (tokenize source) (tokenize "a\n\tb \x7b\n\x7d\r") := by
  have hline : BlankLine ([' '] ++ ['\x7b', '\n', '\x7d', ' '] ++ '\r' :: ['\t']) :=
    .returned (by simp [Layout.isBlank])
      (@Commented.cons ['\n'] [' '] [] (by decide) (by simp [Layout.isBlank]) .nil)
      (by simp [Layout.isBlank])
  have hgap : Trivia [' ', '\x7b', '\n', '\x7d', '\r'] :=
    .blank (by decide) (@Trivia.comment ['\n'] _ (by decide) (.blank (by decide) .nil))
  have hblank := (tokenize_insert source).1 _ _ _ _ reaches_second rfl hline
  have htrivia := (tokenize_insert source).2 _ _ _ _ _ _ _
    (reaches_second.trans (.single moves_second)) rfl moves_inside (by decide) hgap
  exact ⟨hblank, htrivia⟩

end Offside
