import Offside.Proofs.Token.Arrangement

/-!
A text for every arranged row of signs: each line after four spaces per level, one space between
the signs of a line, and literals with backslashes, quotes and line feeds escaped. Each sign is
read back from its spelling before a space, a line feed or the end (`Sign.read_spelling`), so the
tokens of the whole text are the signs it was written from, and a row of signs is arranged exactly
if some text has it.
-/
namespace Offside

namespace Sign

/-- A character of a literal between the given quotes. -/
def escape (quote c : Char) : List Char :=
  if c = '\n' then ['\\', 'n'] else if c = '\\' ∨ c = quote then ['\\', c] else [c]

def enclose (quote : Char) (text : List Char) : List Char :=
  quote :: text.flatMap (escape quote) ++ [quote]

/-- The characters that a sign is written with. -/
def spelling (x : Sign) : List Char :=
  match x.kind with
  | .word | .number => (x.text.getD "").toList
  | .string => enclose '\x22' (x.text.getD "").toList
  | .character => enclose '\x27' (x.text.getD "").toList
  | kind => (kind.spelling.getD "").toList

end Sign

open Sign

/-- The blanks before a line at the given level. -/
def margin (depth : Nat) : List Char := List.replicate (4 * depth) ' '

/-- The text of signs, when `depth` levels are open and `start` says whether a line starts here. -/
def write (depth : Nat) (start : Bool) : List Sign → List Char
  | [] => []
  | x :: rest =>
    match x.kind with
    | .indent => write (depth + 1) start rest
    | .dedent => write (depth - 1) start rest
    | .newline => (if start then margin depth else []) ++ '\n' :: write depth true rest
    | _ => (if start then margin depth else [' ']) ++ x.spelling ++ write depth false rest

def render (signs : List Sign) : String := String.ofList (write 0 true signs)

/-- What may follow a written sign. -/
def Delimited (tail : List Char) : Prop := ∀ c ∈ tail.head?, c = ' ' ∨ c = '\n'

theorem Delimited.head_eq_false {tail : List Char} (h : Delimited tail) {p : Char → Bool}
    (hs : p ' ' = false) (hn : p '\n' = false) : ∀ c ∈ tail.head?, p c = false := by
  intro c hc
  rcases h c hc with rfl | rfl
  · exact hs
  · exact hn

namespace Piece

theorem isAlphabetic_of_isDigit {c : Char} (h : c.isDigit = true) : isAlphabetic c = false := by
  simp only [Char.isDigit, Bool.and_eq_true, decide_eq_true_eq, UInt32.le_iff_toNat_le, ge_iff_le]
    at h
  delta isAlphabetic Char.isAlpha Char.isUpper Char.isLower
  simp only [Bool.or_eq_false_iff, Bool.and_eq_false_iff, decide_eq_false_iff_not,
    UInt32.le_iff_toNat_le, ge_iff_le]
  change 48 ≤ c.toNat ∧ c.toNat ≤ 57 at h
  change (¬(65 ≤ c.toNat ∧ c.toNat ≤ 90) ∧ (¬97 ≤ c.toNat ∨ ¬c.toNat ≤ 122)) ∧
    (¬128 ≤ c.toNat ∨ _)
  omega

/-- Letters are read by the reader of words. -/
theorem read_of_isAlphabetic {c : Char} (h : isAlphabetic c = true) (cs : List Char) :
    read c cs = .ok (readWord c cs) := by
  unfold read
  split
  all_goals first
    | exact absurd h (by decide)
    | rw [if_pos h]

theorem read_of_isDigit {c : Char} (h : c.isDigit = true) (cs : List Char) :
    read c cs = .ok (number (c :: (spanNumber cs).1) (spanNumber cs).2) := by
  unfold read
  split
  all_goals first
    | exact absurd h (by decide)
    | rw [if_neg (by simp [isAlphabetic_of_isDigit h]), if_pos h]

/-- A piece with an ordinary token starts with a character of its own. -/
theorem content_of_read {c : Char} {cs : List Char} {p : Piece} {kind : Kind}
    {value : Option String} (h : read c cs = .ok p) (ht : p.token = some (kind, value))
    (hk : kind ≠ .newline) : c ≠ ' ' ∧ c ≠ '\t' ∧ c ≠ '\x7b' ∧ c ≠ '\n' ∧ c ≠ '\r' := by
  have hgap : ∀ taken rest, p ≠ gap taken rest := by
    rintro taken rest rfl
    cases ht
  refine ⟨?_, ?_, ?_, mt (read_newline_iff h ht).2 hk, ?_⟩ <;> rintro rfl
  · exact hgap _ _ (Except.ok.inj h).symm
  · exact hgap _ _ (Except.ok.inj h).symm
  · simp only [read] at h
    split at h
    · cases h
    · exact hgap _ _ (Except.ok.inj h).symm
  · exact hgap _ _ (Except.ok.inj h).symm

theorem spanNumber_whole {digits tail : List Char} (hd : ∀ c ∈ digits, c.isDigit)
    (ht : Delimited tail) : spanNumber (digits ++ tail) = (digits, tail) := by
  have hhead := ht.head_eq_false (p := Char.isDigit) rfl rfl
  unfold spanNumber
  rw [takeWhile_append_of_head hd hhead, dropWhile_append_of_head hd hhead]
  split
  · rcases ht '.' rfl with h | h <;> cases h
  · rfl

theorem spanNumber_point {digits fraction tail : List Char} (hd : ∀ c ∈ digits, c.isDigit)
    (hf : ∀ c ∈ fraction, c.isDigit) (ht : Delimited tail) :
    spanNumber (digits ++ '.' :: fraction ++ tail) = (digits ++ '.' :: fraction, tail) := by
  have hhead := ht.head_eq_false (p := Char.isDigit) rfl rfl
  have hpoint : ∀ c ∈ ('.' :: (fraction ++ tail)).head?, c.isDigit = false := by
    intro c hc
    obtain rfl : '.' = c := by simpa using hc
    rfl
  rw [List.append_assoc, List.cons_append]
  unfold spanNumber
  rw [takeWhile_append_of_head hd hpoint, dropWhile_append_of_head hd hpoint]
  simp only [takeWhile_append_of_head hf hhead, dropWhile_append_of_head hf hhead]

theorem closeString_escape (text tail : List Char) :
    closeString (text.flatMap (escape '\x22') ++ '\x22' :: tail) =
      some (text, text.flatMap (escape '\x22') ++ ['\x22'], tail) := by
  induction text with
  | nil => rfl
  | cons c text ih =>
    rw [List.flatMap_cons, List.append_assoc, escape]
    split
    · subst c
      simp [closeString, ih, unescape]
    · split
      · rename_i hc
        rcases hc with rfl | rfl <;> simp [closeString, ih, unescape]
      · rename_i hn hc
        simp [closeString, ih, not_or.1 hc]

theorem closeCharacter_escape (c : Char) (tail : List Char) :
    closeCharacter (escape '\x27' c ++ '\x27' :: tail) =
      some (c, escape '\x27' c ++ ['\x27'], tail) := by
  unfold escape
  split
  · subst c
    rfl
  · split
    · rename_i hc
      rcases hc with rfl | rfl <;> rfl
    · rename_i hn hc
      obtain ⟨hslash, hquote⟩ := not_or.1 hc
      rw [List.singleton_append, closeCharacter, if_neg (by simp [hslash, hquote, hn])]
      · rfl
      · intro rest hd
        exact absurd hd hslash

end Piece

namespace Sign

/-- The reader finds the sign in a text of these characters, up to the tail. -/
def ReadFrom (x : Sign) (text tail : List Char) : Prop :=
  ∃ c cs, text = c :: cs ∧ Piece.read c (cs ++ tail) = .ok ⟨some (x.kind, x.text), text, tail⟩

variable {tail : List Char}

theorem readWord_append {c : Char} {cs : List Char} (hl : ∀ d ∈ c :: cs, isAlphabetic d)
    (ht : Delimited tail) :
    Piece.read c (cs ++ tail) = .ok (Piece.readWord c (cs ++ tail)) ∧
      (cs ++ tail).takeWhile isAlphabetic = cs ∧ (cs ++ tail).dropWhile isAlphabetic = tail := by
  have hhead := ht.head_eq_false (p := isAlphabetic) (by decide) (by decide)
  have hcs : ∀ d ∈ cs, isAlphabetic d := fun d hd => hl d (List.mem_cons_of_mem c hd)
  exact ⟨Piece.read_of_isAlphabetic (hl c List.mem_cons_self) _,
    takeWhile_append_of_head hcs hhead, dropWhile_append_of_head hcs hhead⟩

theorem readFrom_word {text : String} (hne : text ≠ "") (hl : ∀ c ∈ text.toList, isAlphabetic c)
    (hk : Kind.ofKeyword? text = none) (ht : Delimited tail) :
    ReadFrom ⟨.word, some text⟩ text.toList tail := by
  obtain ⟨c, cs, htext⟩ := List.exists_cons_of_ne_nil (by simpa using hne : text.toList ≠ [])
  obtain ⟨hread, htake, hdrop⟩ := readWord_append (htext ▸ hl) ht
  refine ⟨c, cs, htext, ?_⟩
  rw [hread, Piece.readWord, htake, hdrop, ← htext, String.ofList_toList, hk]
  simp [Piece.lexeme]

theorem exists_letters {kind : Kind} (hk : kind ∈ Kind.keywords) :
    ∃ text, kind.spelling = some text ∧ Kind.ofKeyword? text = some kind ∧
      ∃ c cs, text.toList = c :: cs ∧ ∀ d ∈ c :: cs, isAlphabetic d := by
  cases kind <;> first
    | exact absurd hk (by decide)
    | exact ⟨_, rfl, Kind.ofKeyword?_eq_some_iff.2 ⟨hk, rfl⟩, _, _, rfl, fun d hd =>
        isAlphabetic_of_isAlpha
          (List.all_eq_true.1 (by decide : List.all _ Char.isAlpha = true) d hd)⟩

theorem readFrom_keyword {kind : Kind} (hk : kind ∈ Kind.keywords) (ht : Delimited tail) :
    ReadFrom ⟨kind, none⟩ (kind.spelling.getD "").toList tail := by
  obtain ⟨text, hspelling, hkeyword, c, cs, htext, hl⟩ := exists_letters hk
  obtain ⟨hread, htake, hdrop⟩ := readWord_append hl ht
  rw [hspelling]
  refine ⟨c, cs, htext, ?_⟩
  rw [hread, Piece.readWord, htake, hdrop, ← htext, String.ofList_toList, hkeyword]
  rfl

theorem readFrom_number {text : String} (h : IsNumeral text.toList) (ht : Delimited tail) :
    ReadFrom ⟨.number, some text⟩ text.toList tail := by
  obtain ⟨whole, fraction, hw, hf, ⟨hne, hcases⟩ | ⟨hne, htext⟩⟩ := h
  · obtain ⟨c, digits, rfl⟩ := List.exists_cons_of_ne_nil hne
    have hc : c.isDigit = true := hw c List.mem_cons_self
    have hd : ∀ d ∈ digits, d.isDigit = true := fun d hd => hw d (List.mem_cons_of_mem c hd)
    rcases hcases with htext | htext
    · refine ⟨c, digits, htext, ?_⟩
      rw [Piece.read_of_isDigit hc, Piece.spanNumber_whole hd ht]
      simp [Piece.number, Piece.lexeme, ← htext]
    · refine ⟨c, digits ++ '.' :: fraction, htext, ?_⟩
      rw [Piece.read_of_isDigit hc, Piece.spanNumber_point hd hf ht, ← List.cons_append, ← htext]
      simp [Piece.number, Piece.lexeme]
  · have hhead := ht.head_eq_false (p := Char.isDigit) rfl rfl
    obtain ⟨d, digits, rfl⟩ := List.exists_cons_of_ne_nil hne
    refine ⟨'.', d :: digits, htext, ?_⟩
    have hread : Piece.read '.' (d :: digits ++ tail) =
        .ok (Piece.number ('.' :: (d :: digits ++ tail).takeWhile Char.isDigit)
          ((d :: digits ++ tail).dropWhile Char.isDigit)) := by
      change Piece.readSymbol '.' (d :: digits ++ tail) = _
      simp [Piece.readSymbol, Kind.ofPair?, Kind.ofPunctuation?, hf d List.mem_cons_self]
    rw [hread, takeWhile_append_of_head hf hhead, dropWhile_append_of_head hf hhead, ← htext]
    simp [Piece.number, Piece.lexeme]

theorem readFrom_string (text : String) (tail : List Char) :
    ReadFrom ⟨.string, some text⟩ (enclose '\x22' text.toList) tail := by
  refine ⟨_, _, rfl, ?_⟩
  simp [Piece.read, Piece.closeString_escape, Piece.lexeme, enclose]

theorem readFrom_character (c : Char) (tail : List Char) :
    ReadFrom ⟨.character, some (String.singleton c)⟩ (enclose '\x27' [c]) tail := by
  refine ⟨_, _, rfl, ?_⟩
  simp [Piece.read, Piece.closeCharacter_escape, Piece.lexeme, enclose]

/-- The kinds that are spelled with symbols. -/
def symbols : List Kind :=
  [.assign, .equal, .notEqual, .less, .greater, .lessEqual, .greaterEqual, .plus, .minus, .times,
    .divide, .lparen, .rparen, .dot, .comma, .colon]

theorem readFrom_symbol {kind : Kind} (hk : kind ∈ symbols) (ht : Delimited tail) :
    ReadFrom ⟨kind, none⟩ (kind.spelling.getD "").toList tail := by
  have htail : tail = [] ∨ ∃ more, tail = ' ' :: more ∨ tail = '\n' :: more := by
    cases tail with
    | nil => exact .inl rfl
    | cons c more =>
      rcases ht c rfl with rfl | rfl
      · exact .inr ⟨more, .inl rfl⟩
      · exact .inr ⟨more, .inr rfl⟩
  cases kind <;> first
    | exact absurd hk (by decide)
    | refine ⟨_, _, rfl, ?_⟩
      obtain rfl | ⟨more, rfl | rfl⟩ := htail <;> rfl

/-- An ordinary sign is read back from its spelling. -/
theorem read_spelling {x : Sign} (hx : x.Ordinary) (hf : x.Fits) (ht : Delimited tail) :
    x.ReadFrom x.spelling tail := by
  obtain ⟨kind, text⟩ := x
  cases kind
  case newline | indent | dedent => simp [Ordinary] at hx
  case word =>
    obtain ⟨text, rfl, hne, hl, hk⟩ := hf
    exact readFrom_word hne hl hk ht
  case number =>
    obtain ⟨text, rfl, hnumeral⟩ := hf
    exact readFrom_number hnumeral ht
  case string =>
    obtain ⟨text, rfl⟩ := hf
    exact readFrom_string text tail
  case character =>
    obtain ⟨c, rfl⟩ := hf
    simpa [spelling] using readFrom_character c tail
  all_goals
    cases hf
    first
    | exact readFrom_keyword (by decide) ht
    | exact readFrom_symbol (by decide) ht

end Sign

theorem write_ordinary {x : Sign} (hx : x.Ordinary) (depth : Nat) (start : Bool)
    (rest : List Sign) : write depth start (x :: rest) =
      (if start then margin depth else [' ']) ++ x.spelling ++ write depth false rest := by
  obtain ⟨hn, hi, hd⟩ := hx
  rw [write]
  split <;> first | rfl | contradiction

theorem write_dedents (n depth : Nat) (start : Bool) (rest : List Sign) :
    write (depth + n) start (List.replicate n dedent ++ rest) = write depth start rest := by
  induction n with
  | zero => rfl
  | succ n ih => exact ih

theorem write_delimited (signs : List Sign) (depth : Nat) :
    Delimited (write depth false signs) := by
  induction signs generalizing depth with
  | nil => simp [write, Delimited]
  | cons x rest ih =>
    rw [write]
    split
    · exact ih _
    · exact ih _
    · simp [Delimited]
    · simp [Delimited]

namespace Scan

/-- The text that is left gives these signs. -/
def Yields (s : Scan) (signs : List Sign) : Prop :=
  ∃ us last, Reaches s s.cursor.rest us last ∧ last.cursor.rest = [] ∧
    (us ++ last.close).map Token.sign = signs

variable {s next : Scan} {text tail : List Char} {ts : List Token} {signs : List Sign}

theorem Moves.yields (hm : Moves s text ts next) (h : Yields next signs) :
    Yields s (ts.map Token.sign ++ signs) := by
  obtain ⟨us, last, hreach, hlast, rfl⟩ := h
  refine ⟨ts ++ us, last, ?_, hlast, by simp⟩
  rw [hm.rest_eq]
  exact .head hm hreach

theorem yields_end (h : s.cursor.rest = []) : Yields s (List.replicate s.depth dedent) := by
  refine ⟨[], s, ?_, h, by rw [List.nil_append, close_signs]⟩
  rw [h]
  exact .refl s

theorem moves_of_readFrom {x : Sign} (hl : s.lineStart = false) (hr : s.cursor.rest = text ++ tail)
    (hx : x.ReadFrom text tail) :
    Moves s text [⟨x.kind, s.cursor.position, x.text⟩]
      ⟨s.cursor.moveOver text tail, s.depth, decide (x.kind = .newline)⟩ := by
  obtain ⟨c, cs, rfl, hread⟩ := hx
  refine ⟨by simp [hr], ?_, hr⟩
  have hnewline : (c == '\n') = decide (x.kind = .newline) := by
    rw [Bool.eq_iff_iff, beq_iff_eq, decide_eq_true_iff, Piece.read_newline_iff hread rfl]
  simp [step, hl, readPiece, hr, hread, hnewline]

theorem moves_space (hl : s.lineStart = false) (hr : s.cursor.rest = ' ' :: tail) :
    Moves s [' '] [] ⟨s.cursor.moveOver [' '] tail, s.depth, false⟩ := by
  refine ⟨by simp [hr], ?_, hr⟩
  simp [step, hl, readPiece, hr, Piece.read, Piece.gap]

theorem readHead_margin (depth : Nat) (rest : List Char) (h : Layout.Bare rest) :
    Layout.readHead (margin depth ++ rest) = .ok ⟨margin depth, [], rest⟩ := by
  have hblank : ∀ c ∈ margin depth, Layout.isBlank c := by
    intro c hc
    rw [List.eq_of_mem_replicate hc]
    rfl
  simpa using Layout.readHead_append hblank .nil h

theorem moves_blankHead (depth : Nat) (hl : s.lineStart = true)
    (hr : s.cursor.rest = margin depth ++ '\n' :: tail) :
    Moves s (margin depth) []
      ⟨s.cursor.moveOver (margin depth) ('\n' :: tail), s.depth, false⟩ := by
  refine ⟨by simp [hr], ?_, hr⟩
  have hhead := readHead_margin depth ('\n' :: tail) (by simp [Layout.Bare, Layout.isBlank])
  simp [step, hl, readHead, hr, hhead, Layout.Head.isEmpty]

theorem width_margin (depth : Nat) : Layout.width (margin depth) = 4 * depth := by
  have hwidth : ∀ n, Layout.width (List.replicate n ' ') = n := by
    intro n
    induction n with
    | zero => rfl
    | succ n ih =>
      rw [List.replicate_succ, Layout.width, ih]
      simp [Nat.add_comm]
  exact hwidth (4 * depth)

/-- A line that starts with a written sign has that level. -/
theorem moves_lineHead {x : Sign} {level : Nat} (hl : s.lineStart = true)
    (hr : s.cursor.rest = margin level ++ (text ++ tail)) (hx : x.ReadFrom text tail)
    (hk : x.kind ≠ .newline) (hle : level ≤ s.depth + 1) :
    Moves s (margin level) (Layout.shift s.depth level s.cursor.position)
      ⟨s.cursor.moveOver (margin level) (text ++ tail), level, false⟩ := by
  obtain ⟨c, cs, rfl, hread⟩ := hx
  have hc := Piece.content_of_read hread rfl hk
  refine ⟨by simp [hr], ?_, hr⟩
  have hhead := readHead_margin level (c :: (cs ++ tail))
    (by simp [Layout.Bare, Layout.isBlank, hc])
  have hlevel : Layout.level s.depth (4 * level) = .ok level := by
    simp [Layout.level, indentUnit]
    omega
  simp [step, hl, readHead, hr, hhead, Layout.Head.isEmpty, hc, width_margin, hlevel]

/-- A written sign, with what leads to it already read. -/
theorem yields_sign {x : Sign} {rest : List Sign} (hl : s.lineStart = false)
    (hx : x.Ordinary) (hf : x.Fits) {level : Nat}
    (hr : s.cursor.rest = x.spelling ++ write level false rest)
    (h : ∀ t : Scan, t.depth = s.depth → t.lineStart = false →
      t.cursor.rest = write level false rest → Yields t rest) : Yields s (x :: rest) := by
  have hread := read_spelling hx hf (write_delimited rest level)
  have hm := moves_of_readFrom hl hr hread
  exact hm.yields (h _ rfl (decide_eq_false hx.1) rfl)

/-- A written line, with the levels that lead to it. -/
theorem yields_line {x : Sign} {rest : List Sign} (level : Nat) (hl : s.lineStart = true)
    (hx : x.Ordinary) (hf : x.Fits) (hle : level ≤ s.depth + 1)
    (hr : s.cursor.rest = write level true (x :: rest))
    (h : ∀ t : Scan, t.depth = level → t.lineStart = false →
      t.cursor.rest = write level false rest → Yields t rest) :
    Yields s ((Layout.shift s.depth level s.cursor.position).map Token.sign ++ x :: rest) := by
  have hread := read_spelling hx hf (write_delimited rest level)
  rw [write_ordinary hx, List.append_assoc] at hr
  have hm := moves_lineHead hl hr hread hx.1 hle
  exact hm.yields (yields_sign rfl hx hf rfl h)

/-- Written signs are read back. -/
theorem yields_of_laid {depth : Nat} {start : Bool} (h : Laid depth start signs) :
    (∀ x ∈ signs, x.Fits) → ∀ s : Scan, s.depth = depth → s.lineStart = start →
      s.cursor.rest = write depth start signs → Yields s signs := by
  induction h with
  | closed depth start =>
    intro _ s hdepth _ hr
    subst hdepth
    refine yields_end ?_
    have hwrite := write_dedents s.depth 0 start []
    rw [Nat.zero_add, List.append_nil] at hwrite
    rw [hr, hwrite, write]
  | @lineEnd depth rest start h ih =>
    intro hfits s hdepth hl hr
    have hnewline : ∀ t : Scan, t.depth = depth → t.lineStart = false →
        t.cursor.rest = '\n' :: write depth true rest → Yields t (newline :: rest) := by
      intro t hd hl' hr'
      have hread : newline.ReadFrom ['\n'] (write depth true rest) := ⟨_, _, rfl, rfl⟩
      exact (moves_of_readFrom hl' hr' hread).yields
        (ih (fun x hx => hfits x (List.mem_cons_of_mem _ hx)) _ hd rfl rfl)
    cases start with
    | true => exact (moves_blankHead depth hl hr).yields (hnewline _ hdepth rfl rfl)
    | false => exact hnewline s hdepth hl hr
  | @ordinary depth x rest hx h ih =>
    intro hfits s hdepth hl hr
    rw [write_ordinary hx, List.append_assoc] at hr
    refine (moves_space hl hr).yields (yields_sign rfl hx (hfits x List.mem_cons_self) rfl ?_)
    intro t hd hl' hr'
    exact ih (fun y hy => hfits y (List.mem_cons_of_mem _ hy)) t (hd.trans hdepth) hl' hr'
  | @indented depth x rest hx h ih =>
    intro hfits s hdepth hl hr
    subst hdepth
    have hline := yields_line (s.depth + 1) hl hx (hfits x (by simp)) le_rfl hr
      (ih fun y hy => hfits y (by simp [hy]))
    rwa [shift_signs_of_lt (Nat.lt_succ_self _)] at hline
  | @dedented depth x rest n hx h ih =>
    intro hfits s hdepth hl hr
    rw [write_dedents] at hr
    have hline := yields_line depth hl hx (hfits x (by simp)) (by omega) hr
      (ih fun y hy => hfits y (by simp [hy]))
    rwa [hdepth, shift_signs_of_le] at hline

end Scan

/-- The tokens of a text are arranged, and every arranged row is that of the text written from
it. -/
theorem tokenize_render_on_image :
    (∀ source ts, tokenize source = .ok ts → Arranged (ts.map Token.sign)) ∧
      ∀ signs, Arranged signs →
        ∃ ts, tokenize (render signs) = .ok ts ∧ ts.map Token.sign = signs := by
  refine ⟨fun source ts h => arranged_of_tokenize h, fun signs h => ?_⟩
  have hrest : (Scan.start (render signs)).cursor.rest = write 0 true signs := by
    simp [Scan.start, Cursor.ofString, render]
  obtain ⟨us, last, hreach, hlast, hsigns⟩ := Scan.yields_of_laid h.laid h.fits _ rfl rfl hrest
  exact ⟨us ++ last.close, by simpa [tokenize] using hreach.run_eq hlast #[], hsigns⟩

/-- Two levels, a blank line, numbers that touch a point, and literals with escapes. -/
def mixed : String := "loop a\n\t.5 \"\\\"\x00\\\\\"\n\n1.>='\\n'"

def mixedTokens : List Token :=
  [⟨.keyLoop, ⟨1, 0⟩, none⟩, ⟨.word, ⟨1, 5⟩, some "a"⟩, ⟨.newline, ⟨1, 6⟩, none⟩,
    ⟨.indent, ⟨2, 0⟩, none⟩, ⟨.number, ⟨2, 4⟩, some ".5"⟩,
    ⟨.string, ⟨2, 7⟩, some "\"\x00\\"⟩, ⟨.newline, ⟨2, 14⟩, none⟩, ⟨.newline, ⟨3, 0⟩, none⟩,
    ⟨.dedent, ⟨4, 0⟩, none⟩, ⟨.number, ⟨4, 0⟩, some "1."⟩, ⟨.greaterEqual, ⟨4, 2⟩, none⟩,
    ⟨.character, ⟨4, 4⟩, some "\n"⟩]

theorem tokenize_render_on_image_mixed : tokenize mixed = .ok mixedTokens ∧
    Arranged (mixedTokens.map Token.sign) ∧
    ∃ ts, tokenize (render (mixedTokens.map Token.sign)) = .ok ts ∧
      ts.map Token.sign = mixedTokens.map Token.sign := by
  have h : tokenize mixed = .ok mixedTokens := by decide +kernel
  have harranged := tokenize_render_on_image.1 mixed mixedTokens h
  exact ⟨h, harranged, tokenize_render_on_image.2 _ harranged⟩

end Offside
