import Offside.Token.Scan

/-!
The scan told by its cursor. The rules of a piece and of the head of a line look at the text that is
left as a list. Here each is told by what a cursor shows and gives, one character at a time: whether
the text is at its end, the next character, and the step over it. Where the text ends the cursor
shows NUL, which a text may hold as well. No rule takes the one for the other (`apply_peek`), so
every step of a scan is the step that its cursor tells (`step_eq_advance`).
-/
namespace Offside

theorem isAlphabetic_nul : isAlphabetic '\x00' = false := by decide

theorem isDigit_nul : Char.isDigit '\x00' = false := rfl

theorem isBlank_nul : Layout.isBlank '\x00' = false := rfl

theorem ofPair?_nul (x : Char) : Kind.ofPair? x '\x00' = none := by
  unfold Kind.ofPair?
  split <;> simp_all

namespace Cursor

variable {c : Cursor} {p : Char → Bool}

/-- A property that NUL does not have is seen only of a character of the text. -/
theorem apply_peek (hp : p '\x00' = false) (c : Cursor) : p c.peek = c.rest.head?.any p := by
  obtain ⟨_ | ⟨x, cs⟩, pos⟩ := c
  · exact hp
  · rfl

theorem advance_rest_lt (h : ¬ c.atEnd = true) : c.advance.2.rest.length < c.rest.length := by
  obtain ⟨_ | ⟨x, cs⟩, pos⟩ := c
  · exact absurd rfl h
  · exact Nat.lt_succ_self _

theorem advance_rest_le (c : Cursor) : c.advance.2.rest.length ≤ c.rest.length := by
  obtain ⟨_ | ⟨x, cs⟩, pos⟩ := c
  · exact Nat.le_refl _
  · exact Nat.le_succ _

theorem not_atEnd_of_peek (hp : p '\x00' = false) (h : p c.peek = true) : ¬ c.atEnd = true := by
  intro hend
  rw [apply_peek hp, atEnd_iff.1 hend] at h
  cases h

/-- Reads on while the next character has a property. NUL does not have it, so the end of the text
is the end of the reading. -/
def readWhile (p : Char → Bool) (hp : p '\x00' = false) (c : Cursor) : List Char × Cursor :=
  if _h : p c.peek = true then
    let more := readWhile p hp c.advance.2
    (c.advance.1 :: more.1, more.2)
  else ([], c)
termination_by c.rest.length
decreasing_by exact advance_rest_lt (not_atEnd_of_peek hp _h)

theorem readWhile_eq (hp : p '\x00' = false) (c : Cursor) :
    c.readWhile p hp =
      (c.rest.takeWhile p, c.moveOver (c.rest.takeWhile p) (c.rest.dropWhile p)) := by
  obtain ⟨cs, pos⟩ := c
  induction cs generalizing pos with
  | nil =>
    rw [readWhile, dif_neg (by rw [apply_peek hp]; simp)]
    rfl
  | cons x cs ih =>
    rw [readWhile, apply_peek hp]
    by_cases hx : p x = true
    · simp [ih, hx, moveOver]
    · simp [hx, moveOver]

/-- Goes on behind the brace that closes a comment. -/
def skipComment (c : Cursor) : Option Cursor :=
  if _h : c.atEnd then none
  else if c.advance.1 = '\x7d' then some c.advance.2
  else skipComment c.advance.2
termination_by c.rest.length
decreasing_by exact advance_rest_lt _h

theorem skipComment_eq (c : Cursor) :
    c.skipComment = (Piece.closeComment c.rest).map fun (taken, rest) => c.moveOver taken rest := by
  obtain ⟨cs, pos⟩ := c
  induction cs generalizing pos with
  | nil =>
    rw [skipComment]
    rfl
  | cons x cs ih =>
    rw [skipComment, dif_neg (by simp), advance_cons]
    by_cases hx : x = '\x7d'
    · simp [hx, Piece.closeComment, moveOver]
    · simp only [hx, if_false, ih, Piece.closeComment, List.dropWhile_cons, List.takeWhile_cons]
      cases hd : cs.dropWhile (· ≠ '\x7d') <;> simp [hx, moveOver]

/-- Reads the rest of a string literal. -/
def readString (c : Cursor) : Option (List Char × Cursor) :=
  if _h : c.atEnd then none
  else if c.advance.1 = '\x22' then some ([], c.advance.2)
  else if c.advance.1 = '\\' then
    if c.advance.2.atEnd then readString c.advance.2
    else
      (readString c.advance.2.advance.2).map fun (text, after) =>
        (Piece.unescape c.advance.2.advance.1 :: text, after)
  else (readString c.advance.2).map fun (text, after) => (c.advance.1 :: text, after)
termination_by c.rest.length
decreasing_by
  · exact advance_rest_lt _h
  · exact Nat.lt_of_le_of_lt (advance_rest_le _) (advance_rest_lt _h)
  · exact advance_rest_lt _h

theorem readString_eq (c : Cursor) :
    c.readString =
      (Piece.closeString c.rest).map fun (text, taken, rest) => (text, c.moveOver taken rest) := by
  obtain ⟨cs, pos⟩ := c
  dsimp only
  fun_induction Piece.closeString cs generalizing pos with
  | case1 =>
    rw [readString]
    rfl
  | case2 rest =>
    rw [readString]
    simp [moveOver]
  | case3 =>
    -- a backslash at the very end: the next round finds the text ended
    rw [readString, readString]
    simp [atEnd]
  | case4 x rest ih =>
    rw [readString]
    simp [ih, moveOver, Function.comp_def]
  | case5 x rest hquote hlast hescape ih =>
    have hslash : x ≠ '\\' := by
      intro hx
      cases rest with
      | nil => exact hlast hx rfl
      | cons y rest => exact hescape y rest hx rfl
    rw [readString]
    simp [ih, moveOver, Function.comp_def, hslash, show x ≠ '\x22' from hquote]

/-- Reads the character of a character literal. -/
def readQuoted (c : Cursor) : Option (Char × Cursor) :=
  if c.atEnd then none
  else if c.advance.1 = '\\' ∧ c.advance.2.atEnd = false then
    some (Piece.unescape c.advance.2.advance.1, c.advance.2.advance.2)
  else if c.advance.1 = '\\' ∨ c.advance.1 = '\x27' ∨ c.advance.1 = '\n' then none
  else some c.advance

/-- Reads the rest of a character literal. -/
def readCharacter (c : Cursor) : Option (Char × Cursor) :=
  c.readQuoted.bind fun (value, after) =>
    if after.peek = '\x27' then some (value, after.advance.2) else none

theorem readCharacter_eq (c : Cursor) :
    c.readCharacter =
      (Piece.closeCharacter c.rest).map fun (value, taken, rest) =>
        (value, c.moveOver taken rest) := by
  obtain ⟨cs, pos⟩ := c
  dsimp only
  fun_cases Piece.closeCharacter cs with
  | case1 y rest => simp [readCharacter, readQuoted, peek, moveOver]
  | case2 x rest hescaped hx =>
    rcases hx with rfl | hx
    · cases rest with
      | nil => rfl
      | cons z rest =>
        have hz : z ≠ '\x27' := fun hz => hescaped rest rfl (by rw [hz])
        simp [readCharacter, readQuoted, peek, hz]
    · have hslash : x ≠ '\\' := by rintro rfl; simp at hx
      simp [readCharacter, readQuoted, hx, hslash]
  | case3 x rest hescaped hx =>
    obtain ⟨hslash, hquote, hbreak⟩ : x ≠ '\\' ∧ x ≠ '\x27' ∧ x ≠ '\n' := by simpa using hx
    simp [readCharacter, readQuoted, peek, moveOver, hslash, hquote, hbreak]
  | case4 _ hescaped hplain =>
    -- the text may end before a second or third character, where the cursor shows no quote
    rcases cs with _ | ⟨x, _ | ⟨y, cs⟩⟩
    · rfl
    · by_cases hx : x = '\\' ∨ x = '\x27' ∨ x = '\n' <;>
        simp [readCharacter, readQuoted, peek, atEnd, hx]
    · have hy : y ≠ '\x27' := fun hy => hplain x cs (by rw [hy])
      by_cases hslash : x = '\\'
      · cases cs with
        | nil => simp [readCharacter, readQuoted, peek, hslash]
        | cons z cs =>
          have hz : z ≠ '\x27' := fun hz => hescaped y cs (by rw [hslash, hz])
          simp [readCharacter, readQuoted, peek, hslash, hz]
      · simp [readCharacter, readQuoted, peek, hslash, hy]

/-- Reads the rest of a number; `pointed` tells whether its point was read. -/
def readNumber (pointed : Bool) (c : Cursor) : List Char × Cursor :=
  if _hdigit : c.peek.isDigit = true then
    let more := readNumber pointed c.advance.2
    (c.advance.1 :: more.1, more.2)
  else if _hpoint : c.peek = '.' ∧ pointed = false then
    let more := readNumber true c.advance.2
    (c.advance.1 :: more.1, more.2)
  else ([], c)
termination_by c.rest.length
decreasing_by
  · exact advance_rest_lt (not_atEnd_of_peek isDigit_nul _hdigit)
  · exact advance_rest_lt (not_atEnd_of_peek (p := (· == '.')) rfl (beq_iff_eq.2 _hpoint.1))

/-- Behind the point a number goes on with digits only. -/
theorem readNumber_true_eq (c : Cursor) :
    c.readNumber true = c.readWhile Char.isDigit isDigit_nul := by
  obtain ⟨cs, pos⟩ := c
  induction cs generalizing pos with
  | nil =>
    rw [readNumber, readWhile]
    rfl
  | cons x cs ih =>
    rw [readNumber, readWhile]
    simp [ih]

theorem spanNumber_of_isDigit {x : Char} (hx : x.isDigit = true) (cs : List Char) :
    Piece.spanNumber (x :: cs) = (x :: (Piece.spanNumber cs).1, (Piece.spanNumber cs).2) := by
  unfold Piece.spanNumber
  simp only [List.dropWhile_cons, hx, if_true, List.takeWhile_cons]
  split <;> rfl

theorem spanNumber_of_ne {x : Char} (hdigit : ¬ x.isDigit = true) (hpoint : x ≠ '.')
    (cs : List Char) : Piece.spanNumber (x :: cs) = ([], x :: cs) := by
  simp [Piece.spanNumber, hdigit, hpoint]

theorem readNumber_false_eq (c : Cursor) :
    c.readNumber false =
      ((Piece.spanNumber c.rest).1,
        c.moveOver (Piece.spanNumber c.rest).1 (Piece.spanNumber c.rest).2) := by
  obtain ⟨cs, pos⟩ := c
  induction cs generalizing pos with
  | nil =>
    rw [readNumber]
    rfl
  | cons x cs ih =>
    rw [readNumber]
    by_cases hdigit : x.isDigit = true
    · simp [peek, hdigit, ih, moveOver, spanNumber_of_isDigit]
    · by_cases hpoint : x = '.'
      · subst hpoint
        simp [peek, readNumber_true_eq, readWhile_eq, moveOver, Piece.spanNumber]
      · simp [peek, hdigit, hpoint, moveOver, spanNumber_of_ne]

/-- Reads the rest of a word that starts with `x`. -/
def readWord (x : Char) (c : Cursor) : Option (Kind × Option String) × Cursor :=
  let letters := c.readWhile isAlphabetic isAlphabetic_nul
  match Kind.ofKeyword? (String.ofList (x :: letters.1)) with
  | some kind => (some (kind, none), letters.2)
  | none => (some (.word, some (String.ofList (x :: letters.1))), letters.2)

/-- Reads the rest of a symbol that starts with `x`, or of a number that starts with a point. -/
def readSymbol (x : Char) (c : Cursor) :
    Except LexicalFault (Option (Kind × Option String) × Cursor) :=
  match Kind.ofPair? x c.peek with
  | some kind => .ok (some (kind, none), c.advance.2)
  | none =>
    match Kind.ofPunctuation? x with
    | none => .error (.unexpectedCharacter x)
    | some .dot =>
      if c.peek.isDigit then
        let digits := c.readWhile Char.isDigit isDigit_nul
        .ok (some (.number, some (String.ofList (x :: digits.1))), digits.2)
      else .ok (some (.dot, none), c)
    | some kind => .ok (some (kind, none), c)

/-- Reads one piece of a line. -/
def readPiece (c : Cursor) : Except LexicalFault (Option (Kind × Option String) × Cursor) :=
  match c.advance.1 with
  | '\n' => .ok (some (.newline, none), c.advance.2)
  | ' ' | '\t' | '\r' => .ok (none, c.advance.2)
  | '\x7b' =>
    match c.advance.2.skipComment with
    | none => .error .unterminatedComment
    | some after => .ok (none, after)
  | '\x22' =>
    match c.advance.2.readString with
    | none => .error .unterminatedString
    | some (text, after) => .ok (some (.string, some (String.ofList text)), after)
  | '\x27' =>
    match c.advance.2.readCharacter with
    | none => .error .unterminatedCharacter
    | some (value, after) => .ok (some (.character, some (String.ofList [value])), after)
  | x =>
    if isAlphabetic x then .ok (readWord x c.advance.2)
    else if x.isDigit then
      let digits := c.advance.2.readNumber false
      .ok (some (.number, some (String.ofList (x :: digits.1))), digits.2)
    else readSymbol x c.advance.2

/-- A piece as the cursor before it sees it: its token, and the cursor behind it. -/
def behind (c : Cursor) (piece : Piece) : Option (Kind × Option String) × Cursor :=
  (piece.token, c.moveOver piece.taken piece.rest)

theorem readWord_eq (x : Char) (cs : List Char) (pos : Position) :
    readWord x ⟨cs, pos.next x⟩ = behind ⟨x :: cs, pos⟩ (Piece.readWord x cs) := by
  simp only [readWord, readWhile_eq, Piece.readWord]
  cases Kind.ofKeyword? (String.ofList (x :: cs.takeWhile isAlphabetic)) <;> rfl

theorem ofPair?_peek (x : Char) (c : Cursor) :
    Kind.ofPair? x c.peek = c.rest.head?.bind (Kind.ofPair? x) := by
  obtain ⟨_ | ⟨y, cs⟩, pos⟩ := c
  · exact ofPair?_nul x
  · rfl

theorem readSymbol_eq (x : Char) (cs : List Char) (pos : Position) :
    readSymbol x ⟨cs, pos.next x⟩ = (Piece.readSymbol x cs).map (behind ⟨x :: cs, pos⟩) := by
  simp only [readSymbol, ofPair?_peek, readWhile_eq, apply_peek isDigit_nul, Piece.readSymbol]
  cases hpair : cs.head?.bind (Kind.ofPair? x) with
  | some kind =>
    cases cs with
    | nil => cases hpair
    | cons y cs => rfl
  | none =>
    cases Kind.ofPunctuation? x with
    | none => rfl
    | some kind =>
      cases kind
      case dot => cases cs.head?.any Char.isDigit <;> rfl
      all_goals rfl

theorem readPiece_eq (x : Char) (cs : List Char) (pos : Position) :
    readPiece ⟨x :: cs, pos⟩ = (Piece.read x cs).map (behind ⟨x :: cs, pos⟩) := by
  unfold Piece.read
  simp only [readPiece, advance_cons, skipComment_eq, readString_eq, readCharacter_eq,
    readNumber_false_eq]
  split
  · rfl
  · rfl
  · rfl
  · rfl
  · cases Piece.closeComment cs <;> rfl
  · cases Piece.closeString cs <;> rfl
  · cases Piece.closeCharacter cs <;> rfl
  · simp only [readWord_eq, readSymbol_eq]
    split
    · rfl
    · split <;> rfl

theorem skipComment_rest_le {after : Cursor} (h : c.skipComment = some after) :
    after.rest.length ≤ c.rest.length := by
  rw [skipComment_eq] at h
  obtain ⟨⟨taken, rest⟩, hclose, rfl⟩ := Option.map_eq_some_iff.1 h
  rw [← Piece.closeComment_split hclose, List.length_append]
  exact Nat.le_add_left _ _

/-- Goes on behind the comments that stand here, each with the blanks after it, or tells where one
starts that is not closed. -/
def skipComments (c : Cursor) : Except Position Cursor :=
  if _hp : c.peek = '\x7b' then
    match _h : c.advance.2.skipComment with
    | none => .error c.position
    | some after => skipComments (after.readWhile Layout.isBlank isBlank_nul).2
  else .ok c
termination_by c.rest.length
decreasing_by
  have hopen : ¬ c.atEnd = true := not_atEnd_of_peek (p := (· == '\x7b')) rfl (beq_iff_eq.2 _hp)
  have hstep := advance_rest_lt hopen
  have hskip := skipComment_rest_le _h
  have hdrop := (List.dropWhile_suffix Layout.isBlank (l := after.rest)).length_le
  simp only [readWhile_eq, moveOver_rest]
  omega

theorem skipComments_unclosed {cs : List Char} (h : Piece.closeComment cs = none)
    (pos : Position) : skipComments ⟨'\x7b' :: cs, pos⟩ = .error pos := by
  rw [skipComments, dif_pos (by rfl)]
  split
  · rfl
  · rename_i hskip
    rw [skipComment_eq, advance_cons, h] at hskip
    cases hskip

theorem skipComments_closed {cs body after : List Char}
    (h : Piece.closeComment cs = some (body, after)) (pos : Position) :
    skipComments ⟨'\x7b' :: cs, pos⟩ =
      skipComments ⟨after.dropWhile Layout.isBlank,
        pos.after ('\x7b' :: body ++ after.takeWhile Layout.isBlank)⟩ := by
  conv => lhs; rw [skipComments, dif_pos (by rfl)]
  split
  · rename_i hskip
    rw [skipComment_eq, advance_cons, h] at hskip
    cases hskip
  · rename_i hskip
    rw [skipComment_eq, advance_cons, h] at hskip
    cases hskip
    simp [readWhile_eq, moveOver]

/-- The cursor behind the comments that a text starts with. -/
def behindComments (c : Cursor) :
    Except (List Char) (List Char × List Char) → Except Position Cursor
  | .error before => .error (c.position.after before)
  | .ok (taken, rest) => .ok (c.moveOver taken rest)

theorem skipComments_eq (c : Cursor) :
    c.skipComments = c.behindComments (Layout.spanComments c.rest) := by
  obtain ⟨cs, pos⟩ := c
  dsimp only
  fun_induction Layout.spanComments cs generalizing pos with
  | case1 inner hclose => exact skipComments_unclosed hclose pos
  | case2 inner body after hclose comment before hmore ih =>
    rw [skipComments_closed hclose, ih, hmore]
    simp [behindComments, comment]
  | case3 inner body after hclose comment taken rest hmore ih =>
    rw [skipComments_closed hclose, ih, hmore]
    simp [behindComments, comment, moveOver]
  | case4 cs hne =>
    have hpeek : ¬ peek ⟨cs, pos⟩ = '\x7b' := by
      cases cs with
      | nil => simp [peek]
      | cons x cs => exact fun hx => hne cs (congrArg (· :: cs) hx)
    rw [skipComments, dif_neg hpeek]
    rfl

end Cursor

namespace Scan

/-- Reads the head of a line with the cursor. -/
def advanceHead (s : Scan) : Except LexicalError (List Token × Scan) :=
  let blanks := s.cursor.readWhile Layout.isBlank isBlank_nul
  match blanks.2.skipComments with
  | .error p => .error ⟨.unterminatedComment, p⟩
  | .ok cursor =>
    if cursor.atEnd = true ∨ cursor.peek = '\n' ∨ cursor.peek = '\r' then
      .ok ([], ⟨cursor, s.depth, false⟩)
    else
      match Layout.level s.depth (Layout.width blanks.1) with
      | .error fault => .error ⟨fault, s.cursor.position⟩
      | .ok level => .ok (Layout.shift s.depth level s.cursor.position, ⟨cursor, level, false⟩)

/-- Reads one piece of a line with the cursor. -/
def advancePiece (s : Scan) : Except LexicalError (List Token × Scan) :=
  match s.cursor.readPiece with
  | .error fault => .error ⟨fault, s.cursor.position⟩
  | .ok (token, cursor) =>
    .ok (token.toList.map fun (kind, text) => ⟨kind, s.cursor.position, text⟩,
      ⟨cursor, s.depth, s.cursor.peek == '\n'⟩)

/-- One step of the scan with the cursor. -/
def advance (s : Scan) : Except LexicalError (List Token × Scan) :=
  if s.lineStart then s.advanceHead else s.advancePiece

/-- A line is empty if the cursor sees the end of the text, or of the line, behind its head. -/
theorem isEmpty_iff (blanks comments : List Char) (c : Cursor) :
    (Layout.Head.mk blanks comments c.rest).isEmpty = true ↔
      c.atEnd = true ∨ c.peek = '\n' ∨ c.peek = '\r' := by
  obtain ⟨_ | ⟨x, rest⟩, pos⟩ := c
  · simp [Layout.Head.isEmpty, Cursor.atEnd]
  · simp [Layout.Head.isEmpty, Cursor.peek]

theorem readHead_eq_advanceHead (s : Scan) : s.readHead = s.advanceHead := by
  simp only [readHead, advanceHead, Layout.readHead, Cursor.readWhile_eq, Cursor.skipComments_eq,
    Cursor.moveOver_rest]
  cases Layout.spanComments (s.cursor.rest.dropWhile Layout.isBlank) with
  | error before => simp [Cursor.behindComments]
  | ok span =>
    obtain ⟨comments, rest⟩ := span
    generalize s.cursor.rest.takeWhile Layout.isBlank = blanks
    have hempty := isEmpty_iff blanks comments (s.cursor.moveOver (blanks ++ comments) rest)
    simp only [Cursor.behindComments, Cursor.moveOver_moveOver]
    by_cases he : (Layout.Head.mk blanks comments rest).isEmpty = true
    · exact (if_pos he).trans (if_pos (hempty.1 he)).symm
    · refine (if_neg he).trans (.trans ?_ (if_neg (mt hempty.2 he)).symm)
      cases Layout.level s.depth (Layout.width blanks) <;> rfl

theorem readPiece_eq_advancePiece {s : Scan} (hs : s.cursor.atEnd = false) :
    s.readPiece = s.advancePiece := by
  obtain ⟨⟨cs, pos⟩, depth, lineStart⟩ := s
  cases cs with
  | nil => cases hs
  | cons x cs =>
    simp only [readPiece, advancePiece, Cursor.readPiece_eq]
    cases Piece.read x cs with
    | error fault => rfl
    | ok piece => obtain ⟨_ | ⟨kind, text⟩, taken, rest⟩ := piece <;> rfl

theorem step_eq_advance {s : Scan} (hs : s.cursor.atEnd = false) : s.step = s.advance := by
  rw [step, advance, readHead_eq_advanceHead, readPiece_eq_advancePiece hs]

/-- A scan ends where its cursor is at the end of the text, and closes the open levels there.
Anywhere else, also before a NUL, it goes on as its cursor tells. -/
theorem run_eq_advance (done : Array Token) (s : Scan) :
    s.run done =
      if s.cursor.atEnd then .ok (done.toList ++ s.close)
      else
        match s.advance with
        | .error e => .error e
        | .ok (tokens, next) => next.run (done ++ tokens.toArray) := by
  rw [run]
  by_cases hs : s.cursor.atEnd = true
  · rw [dif_pos (Cursor.atEnd_iff.1 hs), if_pos hs]
  · rw [dif_neg (mt Cursor.atEnd_iff.2 hs), if_neg hs, ← step_eq_advance (Bool.not_eq_true _ ▸ hs)]
    split <;> rename_i h <;> rw [h]

end Scan

end Offside
