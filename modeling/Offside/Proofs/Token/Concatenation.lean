import Offside.Proofs.Token.Continuation
import Offside.Proofs.Token.Displacement

/-!
One text behind another. The moves over a text that ends with its last line stay as they are when
another text follows, and the second text is then read from the levels that the first one left open.
If it starts with a lexeme, its first line closes them as the end of the first text did, and it is
read as if it stood alone, as many lines further down.
-/
namespace Offside

theorem Trivia.getLast?_ne {text : List Char} (h : Trivia text) : text.getLast? ≠ some '\n' := by
  induction h with
  | nil => simp
  | @blank c text hc _ ih =>
    cases text with
    | nil => rcases hc with rfl | rfl | rfl <;> simp
    | cons d text =>
      rw [List.getLast?_cons_cons]
      exact ih
  | @comment body text hb _ ih =>
    rw [List.getLast?_append_of_ne_nil _ (List.cons_ne_nil _ _)]
    cases text with
    | nil => simp
    | cons d text =>
      rw [List.getLast?_cons_cons]
      exact ih

/-- Only the end of a line is spelled with a newline at its end. -/
theorem Spells.eq_newline_of_getLast? {text : List Char} {kind : Kind} {value : Option String}
    (h : Spells text kind value) (hlast : text.getLast? = some '\n') : kind = .newline := by
  cases h with
  | newline => rfl
  | fixed hspelling => cases kind <;> cases hspelling <;> simp at hlast
  | doubledAnd => simp at hlast
  | doubledOr => simp at hlast
  | word hne hl hk =>
    have halphabetic := hl _ (List.mem_of_getLast? hlast)
    cases halphabetic
  | number hn =>
    have hmem := List.mem_of_getLast? hlast
    obtain ⟨whole, fraction, hwhole, hfraction, ⟨-, rfl | rfl⟩ | ⟨-, rfl⟩⟩ := hn
    · cases hwhole _ hmem
    · rcases List.mem_append.1 hmem with hmem | hmem
      · cases hwhole _ hmem
      · rcases List.mem_cons.1 hmem with heq | hmem
        · cases heq
        · cases hfraction _ hmem
    · rcases List.mem_cons.1 hmem with heq | hmem
      · cases heq
      · cases hfraction _ hmem
  | string hb =>
    rw [List.getLast?_concat] at hlast
    cases hlast
  | character hb =>
    rw [List.getLast?_concat] at hlast
    cases hlast

open Sign

namespace Scan

variable {s next last : Scan} {text : List Char} {ts us : List Token}

/-- A course over a text that ends with a line feed ends with a newline, at the start of a line. -/
theorem Reaches.newline_of_getLast? (h : Reaches s text ts last) (hlast : last.cursor.rest = [])
    (htext : text.getLast? = some '\n') :
    last.lineStart = true ∧ ∃ earlier, ts.map Token.sign = earlier ++ [newline] := by
  induction h with
  | refl => simp at htext
  | @head s mid last text more ts us hm hr ih =>
    by_cases hmore : more = []
    · have hmid : mid.cursor.rest = [] := by rw [hr.rest_eq, hmore, hlast, List.append_nil]
      obtain ⟨-, rfl, rfl⟩ := hr.eq_of_rest_nil hmid
      rw [hmore, List.append_nil] at htext
      cases hm.effect with
      | emptyHead _ hhead _ => exact absurd htext (Layout.trivia_of_readHead hhead).getLast?_ne
      | lineHead _ hhead _ _ => exact absurd htext (Layout.trivia_of_readHead hhead).getLast?_ne
      | gap _ _ _ htrivia => exact absurd htext htrivia.getLast?_ne
      | lexeme _ _ hspells =>
        have hkind := hspells.eq_newline_of_getLast? htext
        exact ⟨beq_iff_eq.2 hkind, [], congrArg ([·]) (hspells.fits.eq_newline hkind)⟩
    · rw [List.getLast?_append_of_ne_nil _ hmore] at htext
      obtain ⟨hstart, earlier, hearlier⟩ := ih hlast htext
      refine ⟨hstart, ts.map Token.sign ++ earlier, ?_⟩
      rw [List.map_append, hearlier, List.append_assoc]

theorem abreast_moveOver {s : Scan} (s' : Scan) (taken rest : List Char) {depth : Nat}
    {lineStart : Bool} : Abreast ⟨s.cursor.moveOver taken rest, depth, lineStart⟩
      ⟨s'.cursor.moveOver taken rest, s'.depth, lineStart⟩ :=
  ⟨rfl, rfl⟩

theorem Reaches.yields (h : Reaches s text ts last) (hlast : last.cursor.rest = []) :
    Yields s ((ts ++ last.close).map Token.sign) := by
  have hrest : s.cursor.rest = text := by rw [h.rest_eq, hlast, List.append_nil]
  exact ⟨ts, last, hrest ▸ h, hlast, rfl⟩

/-- The place of a scan does not matter to what it yields. -/
theorem Yields.abreast {s' : Scan} {signs : List Sign} (h : Yields s signs) (hs : Abreast s s')
    (hdepth : s'.depth = s.depth) : Yields s' signs := by
  obtain ⟨us, last, hreach, hlast, rfl⟩ := h
  have hbeside : Beside (fun _ _ => True) s s' := ⟨hs, hdepth, trivial⟩
  have houtcome := hbeside.run (fun _ _ _ _ => trivial) #[] #[]
  rw [hreach.run_eq hlast] at houtcome
  generalize hrun : s'.run #[] = out at houtcome
  cases houtcome with
  | ok h =>
    obtain ⟨later, later', hus, hus', hlater⟩ := h
    obtain ⟨us', last', hreach', hlast', rfl⟩ := run_ok hrun
    refine ⟨us', last', hreach', hlast', ?_⟩
    have hsigns := signs_of_beside hlater
    simp only [List.nil_append] at hus hus'
    rwa [← hus, ← hus'] at hsigns

/-- Nothing but the end of its line is before the scan, if it is inside a line. -/
def Quiet (s : Scan) : Prop :=
  s.lineStart = true ∨ ∀ c ∈ s.cursor.rest.head?, c = '\n' ∨ c = '\r'

/-- Every carriage return is followed by a line feed. -/
def ReturnsFeed (text : List Char) : Prop :=
  ∀ i, text[i]? = some '\r' → text[i + 1]? = some '\n'

theorem ReturnsFeed.of_append {text rest : List Char} (h : ReturnsFeed (text ++ rest)) :
    ReturnsFeed rest := by
  intro i hi
  have hnext := h (text.length + i) (by simpa [List.getElem?_append_right] using hi)
  simpa [List.getElem?_append_right, Nat.add_assoc] using hnext

theorem quiet_of_isEmpty {h : Layout.Head} (he : h.isEmpty = true) (hr : s.cursor.rest = h.rest) :
    Quiet s := by
  refine .inr fun c hc => ?_
  rw [hr] at hc
  unfold Layout.Head.isEmpty at he
  split at he
  · rename_i hnil
    rw [hnil] at hc
    cases hc
  · rename_i d rest hcons
    rw [hcons] at hc
    cases hc
    simpa using he

/-- Behind a carriage return nothing but the end of its line comes. -/
theorem quiet_of_return {cs : List Char} (h : ReturnsFeed ('\r' :: cs)) (hr : s.cursor.rest = cs) :
    Quiet s := by
  refine .inr fun c hc => .inl ?_
  have hfeed := h 0 rfl
  rw [List.getElem?_cons_succ, ← List.head?_eq_getElem?] at hfeed
  rw [hr] at hc
  exact Option.some.inj (hc.symm.trans hfeed)

/-- A line with content and no indentation closes every open level, as the end of the text would. -/
theorem moves_closingHead {h : Layout.Head} (hl : s.lineStart = true) (hne : s.cursor.rest ≠ [])
    (hr : Layout.readHead s.cursor.rest = .ok h) (he : h.isEmpty = false)
    (hwidth : Layout.width h.blanks = 0) :
    Moves s (h.blanks ++ h.comments) s.close
      ⟨s.cursor.moveOver (h.blanks ++ h.comments) h.rest, 0, false⟩ := by
  have hd : Layout.level s.depth (Layout.width h.blanks) = .ok 0 := by simp [Layout.level, hwidth]
  simpa [Layout.shift, close] using moves_contentHead hl hne hr he hd

/-- A text that starts on the lowest level and not with an indent is read in the same way below any
number of open levels, which its first line closes. -/
theorem Reaches.yields_below {s' : Scan} (h : Reaches s text ts last)
    (hlast : last.cursor.rest = [])
    (hs : Abreast s s') (hdepth : s.depth = 0) (hquiet : s.Quiet)
    (hreturns : ReturnsFeed s.cursor.rest) :
    ∃ k rest, (ts ++ last.close).map Token.sign = List.replicate k newline ++ rest ∧
      rest.head? ≠ some newline ∧ (rest.head? = some indent ∨
        Yields s' (List.replicate k newline ++ (List.replicate s'.depth dedent ++ rest))) := by
  induction h generalizing s' with
  | refl s =>
    refine ⟨0, [], ?_, by simp, .inr ?_⟩
    · rw [List.nil_append, close_signs, hdepth]
      rfl
    · rw [List.append_nil]
      exact yields_end (hs.rest.trans hlast)
  | @head s mid last text more ts us hm hr ih =>
    have hne : s'.cursor.rest ≠ [] := hs.rest ▸ hm.rest_ne_nil
    have hfeeds : ReturnsFeed mid.cursor.rest := (hm.rest_eq ▸ hreturns).of_append
    cases hl : s.lineStart with
    | true =>
      have hl' : s'.lineStart = true := hs.lineStart.trans hl
      cases hm.effect with
      | @emptyHead head _ hhead he =>
        have hm' := moves_emptyHead hl' hne (hs.rest ▸ hhead) he
        obtain ⟨k, rest, hsigns, hnewline, hrest⟩ :=
          ih hlast (abreast_moveOver s' _ _) hdepth (quiet_of_isEmpty he rfl) hfeeds
        exact ⟨k, rest, hsigns, hnewline, hrest.imp_right hm'.yields⟩
      | @lineHead head level _ hhead he hd =>
        obtain ⟨token, later, rfl, htoken⟩ := hr.exists_ordinary hhead he rfl rfl hlast
        obtain ⟨hdvd, hwidth, hle⟩ := Layout.level_ok hd
        rw [hdepth] at hle ⊢
        refine ⟨0, _, rfl, ?_⟩
        rw [List.append_assoc, List.map_append]
        rcases Nat.le_one_iff_eq_zero_or_eq_one.1 hle with rfl | rfl
        · have hm' := moves_closingHead hl' hne (hs.rest ▸ hhead) he (by omega)
          refine ⟨?_, .inr ?_⟩
          · rintro hnewline
            exact htoken.ne.1 (Option.some.inj hnewline)
          · rw [← close_signs]
            exact hm'.yields ((hr.yields hlast).abreast ⟨rfl, rfl⟩ rfl)
        · rw [shift_signs_of_lt Nat.zero_lt_one]
          exact ⟨by simp [newline, indent], .inl rfl⟩
      | gap hinside _ _ _ => cases hl.symm.trans hinside
      | lexeme hinside _ _ => cases hl.symm.trans hinside
    | false =>
      have hl' : s'.lineStart = false := hs.lineStart.trans hl
      obtain ⟨c, cs, p, hrest, hp, rfl, rfl, rfl⟩ := hm.exists_piece hl
      have hm' := moves_piece hl' (hs.rest.trans hrest) hp
      have hc : c = '\n' ∨ c = '\r' := by
        refine (hquiet.resolve_left (by simp [hl])) c ?_
        rw [hrest]
        rfl
      rcases hc with rfl | rfl
      · cases hp
        obtain ⟨k, rest, hsigns, hnewline, hrest⟩ :=
          ih hlast (abreast_moveOver s' _ _) hdepth (.inl rfl) hfeeds
        refine ⟨k + 1, rest, ?_, hnewline, hrest.imp_right hm'.yields⟩
        rw [List.append_assoc, List.map_append, hsigns]
        rfl
      · cases hp
        have hreturn : ReturnsFeed ('\r' :: cs) := hrest ▸ hreturns
        obtain ⟨k, rest, hsigns, hnewline, hrest⟩ :=
          ih hlast (abreast_moveOver s' _ _) hdepth (quiet_of_return hreturn rfl) hfeeds
        exact ⟨k, rest, hsigns, hnewline, hrest.imp_right hm'.yields⟩

/-- A line that starts with a lexeme closes every open level, as the end of the text would. -/
theorem moves_lexemeHead (hl : s.lineStart = true) (hne : s.cursor.rest ≠ [])
    (hc : ∀ c ∈ s.cursor.rest.head?, c ∉ partings) :
    Moves s [] s.close ⟨s.cursor, 0, false⟩ := by
  obtain ⟨c, cs, hrest⟩ := List.exists_cons_of_ne_nil hne
  have hc : c ∉ partings := hc c (by rw [hrest]; rfl)
  simp only [partings, List.mem_cons, List.not_mem_nil, or_false, not_or] at hc
  obtain ⟨hspace, htab, hreturn, hfeed, hbrace⟩ := hc
  have hbare : Layout.Bare (c :: cs) := by
    rintro d ⟨⟩
    simp [Layout.isBlank, hspace, htab, hbrace]
  have hr : Layout.readHead s.cursor.rest = .ok ⟨[], [], c :: cs⟩ := by
    rw [hrest, ← List.nil_append (c :: cs), ← List.nil_append []]
    exact Layout.readHead_append (List.forall_mem_nil _) .nil hbare
  have he : Layout.Head.isEmpty ⟨[], [], c :: cs⟩ = false := by
    simp [Layout.Head.isEmpty, hfeed, hreturn]
  simpa [Cursor.moveOver, ← hrest] using moves_closingHead hl hne hr he rfl

end Scan

open Scan

/-- The tokens of two texts, of which the first ends with its last line. Where the second one starts
with no indent, the levels that the first one leaves open end behind the empty lines in front of the
second one. -/
theorem tokenize_append {a b : String} {ts us : List Token} (ha : tokenize a = .ok ts)
    (hb : tokenize b = .ok us) (hend : a.toList.getLast? = some '\n')
    (hreturns : ReturnsFeed b.toList) :
    ∃ lines depth k rest, ts.map Token.sign = lines ++ [newline] ++ List.replicate depth dedent ∧
      us.map Token.sign = List.replicate k newline ++ rest ∧ rest.head? ≠ some newline ∧
      (rest.head? = some indent ∨ ∃ vs, tokenize (a ++ b) = .ok vs ∧
        vs.map Token.sign = lines ++ [newline] ++
          (List.replicate k newline ++ (List.replicate depth dedent ++ rest))) := by
  obtain ⟨us, last, hus, hlast, rfl⟩ := exists_reaches_of_tokenize ha
  obtain ⟨vs, final, hvs, hfinal, rfl⟩ := exists_reaches_of_tokenize hb
  obtain ⟨hstart, lines, hlines⟩ := hus.newline_of_getLast? hlast hend
  have habreast : Abreast (start b) (last.withRest b.toList) := ⟨rfl, hstart⟩
  obtain ⟨k, rest, hsigns, hnewline, hrest⟩ :=
    hvs.yields_below hfinal habreast rfl (.inl rfl) hreturns
  refine ⟨lines, last.depth, k, rest, ?_, hsigns, hnewline, hrest.imp_right ?_⟩
  · rw [List.map_append, hlines, close_signs]
  · rintro ⟨ws, stop, hws, hstop, heq⟩
    have hboth := (hus.replace (.inl hstart)).trans hws
    rw [start_withRest, String.ofList_append, String.ofList_toList, String.ofList_toList] at hboth
    refine ⟨us ++ ws ++ stop.close, by simpa [tokenize] using hboth.run_eq hstop #[], ?_⟩
    rw [List.append_assoc, List.map_append, hlines, heq]
    rfl

/-- A text behind whole lines that starts with a lexeme, if it is not empty. Its tokens follow those
of the lines, and an error is its own, as many lines further down as there are before it. -/
theorem tokenize_behind_lines {a b : String} {ts : List Token} (ha : tokenize a = .ok ts)
    (hend : a = "" ∨ a.toList.getLast? = some '\n') (hb : ∀ c ∈ b.toList.head?, c ∉ partings) :
    (∀ us, tokenize b = .ok us →
      tokenize (a ++ b) = .ok (ts ++ us.map (Token.lower (a.toList.count '\n')))) ∧
    ∀ e, tokenize b = .error e → tokenize (a ++ b) = .error (e.lower (a.toList.count '\n')) := by
  obtain ⟨us, last, hus, hlast, rfl⟩ := exists_reaches_of_tokenize ha
  have hstart : last.lineStart = true := by
    rcases hend with rfl | hend
    · obtain ⟨-, -, rfl⟩ := hus.eq_of_rest_nil rfl
      rfl
    · exact (hus.newline_of_getLast? hlast hend).1
  have hlines : Reaches (Scan.start (a ++ b)) a.toList us (last.withRest b.toList) := by
    have hreach : Reaches _ a.toList us (last.withRest b.toList) := hus.replace (.inl hstart)
    rwa [start_withRest, String.ofList_append, String.ofList_toList, String.ofList_toList] at hreach
  have hplace : last.cursor.position = Position.start.lower (a.toList.count '\n') :=
    hus.position_eq.trans (Position.start_after_lines (hend.imp_left fun h => by rw [h]; rfl))
  by_cases hne : b.toList = []
  · obtain rfl : b = "" := String.toList_eq_nil_iff.1 hne
    have hnil : tokenize "" = .ok [] := by
      simp [tokenize, Scan.run, Scan.start, Scan.close, Cursor.ofString]
    rw [String.append_empty, ha, hnil]
    constructor
    · rintro us ⟨⟩
      simp
    · rintro e ⟨⟩
  · -- the levels of the lines end with the same dedents as if nothing followed
    have hfirst : Moves (Scan.start b) [] [] ⟨(Scan.start b).cursor, 0, false⟩ :=
      moves_lexemeHead rfl hne hb
    have hsecond : Moves (last.withRest b.toList) [] last.close
        ⟨(last.withRest b.toList).cursor, 0, false⟩ := moves_lexemeHead hstart hne hb
    have hbeside : Beside (fun p q => q = p.lower (a.toList.count '\n'))
        ⟨(Scan.start b).cursor, 0, false⟩ ⟨(last.withRest b.toList).cursor, 0, false⟩ :=
      ⟨⟨rfl, rfl⟩, rfl, hplace⟩
    have houtcome := hbeside.run (Position.kept_lower _) #[] (us ++ last.close).toArray
    have hb : tokenize b = Scan.run #[] ⟨(Scan.start b).cursor, 0, false⟩ := hfirst.run_eq #[]
    have hab : tokenize (a ++ b) = Scan.run (us ++ last.close).toArray
        ⟨(last.withRest b.toList).cursor, 0, false⟩ := by
      rw [tokenize, hlines.run_through, hsecond.run_eq]
      simp
    rw [← hb, ← hab] at houtcome
    generalize tokenize b = out at houtcome
    generalize tokenize (a ++ b) = out' at houtcome
    cases houtcome with
    | @error e e' hfault hposition =>
      refine ⟨by simp, ?_⟩
      rintro e ⟨⟩
      rw [LexicalError.lower, ← hfault, ← hposition]
    | ok h =>
      obtain ⟨later, later', rfl, rfl, hlater⟩ := h
      refine ⟨?_, by simp⟩
      rintro us ⟨⟩
      rw [eq_map_lower hlater]

namespace Displacement

/-- Two blocks that are still open at the end of the last line. -/
def lines : String := "if a\n\tb\n\t\tc\n"

def linesTokens : List Token :=
  [⟨.keyIf, ⟨1, 0⟩, none⟩, ⟨.word, ⟨1, 3⟩, some "a"⟩, ⟨.newline, ⟨1, 4⟩, none⟩,
    ⟨.indent, ⟨2, 0⟩, none⟩, ⟨.word, ⟨2, 4⟩, some "b"⟩, ⟨.newline, ⟨2, 5⟩, none⟩,
    ⟨.indent, ⟨3, 0⟩, none⟩, ⟨.word, ⟨3, 8⟩, some "c"⟩, ⟨.newline, ⟨3, 9⟩, none⟩,
    ⟨.dedent, ⟨4, 0⟩, none⟩, ⟨.dedent, ⟨4, 0⟩, none⟩]

/-- A block of its own. -/
def block : String := "loop\n\tz"

def blockTokens : List Token :=
  [⟨.keyLoop, ⟨1, 0⟩, none⟩, ⟨.newline, ⟨1, 4⟩, none⟩, ⟨.indent, ⟨2, 0⟩, none⟩,
    ⟨.word, ⟨2, 4⟩, some "z"⟩, ⟨.dedent, ⟨2, 5⟩, none⟩]

/-- A block that is indented too far. -/
def jump : String := "loop\n\t\t\tz"

end Displacement

open Displacement in
theorem tokenize_behind_lines_nested :
    tokenize (lines ++ block) = .ok (linesTokens ++ blockTokens.map (Token.lower 3)) ∧
    tokenize (lines ++ jump) = .error ⟨.indentationJump 0 3, ⟨5, 0⟩⟩ := by
  have hlines : tokenize lines = .ok linesTokens := by decide +kernel
  have hblock : tokenize block = .ok blockTokens := by decide +kernel
  have hjump : tokenize jump = .error ⟨.indentationJump 0 3, ⟨2, 0⟩⟩ := by decide +kernel
  have hend : lines = "" ∨ lines.toList.getLast? = some '\n' := .inr (by decide +kernel)
  have hloop : 'l' ∉ partings := by decide
  have hhead : ∀ b : String, b.toList.head? = some 'l' → ∀ c ∈ b.toList.head?, c ∉ partings := by
    intro b hb c hc
    rw [hb] at hc
    exact Option.some.inj hc ▸ hloop
  exact ⟨(tokenize_behind_lines hlines hend (hhead _ (by decide +kernel))).1 blockTokens hblock,
    (tokenize_behind_lines hlines hend (hhead _ (by decide +kernel))).2 _ hjump⟩

end Offside
