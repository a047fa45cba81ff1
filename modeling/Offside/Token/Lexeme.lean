import Offside.Text.Alphabetic
import Offside.Token.Kind
import Offside.Token.Error

/-!
One piece of a line: a lexeme or a gap between lexemes. A piece is read from the head of the text
and splits it: `read_split` says that nothing is lost, `read_rest_lt` that a piece is never empty.
-/
namespace Offside

/-- A piece at the head of a text: the kind and text of its token (none for a gap), its
characters, and the characters after it. -/
structure Piece where
  token : Option (Kind × Option String)
  taken : List Char
  rest : List Char
deriving DecidableEq

namespace Piece

def gap (taken rest : List Char) : Piece := ⟨none, taken, rest⟩

def mark (kind : Kind) (taken rest : List Char) : Piece := ⟨some (kind, none), taken, rest⟩

def lexeme (kind : Kind) (text : List Char) (taken rest : List Char) : Piece :=
  ⟨some (kind, some (String.ofList text)), taken, rest⟩

/-- What a character stands for after a backslash. -/
def unescape : Char → Char
  | 'n' => '\n'
  | 't' => '\t'
  | c => c

/-- The rest of a comment, up to its closing brace, and what follows. -/
def closeComment (cs : List Char) : Option (List Char × List Char) :=
  match cs.dropWhile (· ≠ '\x7d') with
  | [] => none
  | close :: rest => some (cs.takeWhile (· ≠ '\x7d') ++ [close], rest)

/-- The rest of a string literal: its text, the characters up to the closing quote, and what
follows. -/
def closeString : List Char → Option (List Char × List Char × List Char)
  | [] => none
  | '\x22' :: rest => some ([], ['\x22'], rest)
  | '\\' :: [] => none
  | '\\' :: c :: rest =>
    (closeString rest).map fun (text, taken, rest) => (unescape c :: text, '\\' :: c :: taken, rest)
  | c :: rest => (closeString rest).map fun (text, taken, rest) => (c :: text, c :: taken, rest)

/-- The rest of a character literal: its character, the characters up to the closing quote, and
what follows. -/
def closeCharacter : List Char → Option (Char × List Char × List Char)
  | '\\' :: c :: '\x27' :: rest => some (unescape c, ['\\', c, '\x27'], rest)
  | c :: '\x27' :: rest =>
    if c = '\\' ∨ c = '\x27' ∨ c = '\n' then none else some (c, [c, '\x27'], rest)
  | _ => none

/-- Digits, then at most one point and the digits after it. -/
def spanNumber (cs : List Char) : List Char × List Char :=
  match cs.dropWhile Char.isDigit with
  | '.' :: rest =>
    (cs.takeWhile Char.isDigit ++ '.' :: rest.takeWhile Char.isDigit, rest.dropWhile Char.isDigit)
  | rest => (cs.takeWhile Char.isDigit, rest)

/-- A word that starts with `c`: a keyword, or a name. -/
def readWord (c : Char) (cs : List Char) : Piece :=
  let letters := c :: cs.takeWhile isAlphabetic
  match Kind.ofKeyword? (String.ofList letters) with
  | some kind => mark kind letters (cs.dropWhile isAlphabetic)
  | none => lexeme .word letters letters (cs.dropWhile isAlphabetic)

/-- A number of the given characters. -/
def number (digits rest : List Char) : Piece := lexeme .number digits digits rest

/-- A symbol that starts with `c`. A point before a digit starts a number instead. -/
def readSymbol (c : Char) (cs : List Char) : Except LexicalFault Piece :=
  match cs.head?.bind (Kind.ofPair? c), cs with
  | some kind, d :: rest => .ok (mark kind [c, d] rest)
  | _, _ =>
    match Kind.ofPunctuation? c with
    | none => .error (.unexpectedCharacter c)
    | some .dot =>
      if cs.head?.any Char.isDigit then
        .ok (number (c :: cs.takeWhile Char.isDigit) (cs.dropWhile Char.isDigit))
      else .ok (mark .dot [c] cs)
    | some kind => .ok (mark kind [c] cs)

/-- The piece at the head of the text `c :: cs`. -/
def read (c : Char) (cs : List Char) : Except LexicalFault Piece :=
  match c with
  | '\n' => .ok (mark .newline [c] cs)
  | ' ' | '\t' | '\r' => .ok (gap [c] cs)
  | '\x7b' =>
    match closeComment cs with
    | none => .error .unterminatedComment
    | some (taken, rest) => .ok (gap (c :: taken) rest)
  | '\x22' =>
    match closeString cs with
    | none => .error .unterminatedString
    | some (text, taken, rest) => .ok (lexeme .string text (c :: taken) rest)
  | '\x27' =>
    match closeCharacter cs with
    | none => .error .unterminatedCharacter
    | some (value, taken, rest) => .ok (lexeme .character [value] (c :: taken) rest)
  | _ =>
    if isAlphabetic c then .ok (readWord c cs)
    else if c.isDigit then .ok (number (c :: (spanNumber cs).1) (spanNumber cs).2)
    else readSymbol c cs

theorem closeComment_split {cs taken rest : List Char} (h : closeComment cs = some (taken, rest)) :
    taken ++ rest = cs := by
  have hsplit := List.takeWhile_append_dropWhile (p := (· ≠ '\x7d')) (l := cs)
  unfold closeComment at h
  split at h
  · cases h
  · rename_i heq
    cases h
    rw [List.append_assoc, List.singleton_append, ← heq, hsplit]

theorem closeString_split {cs text taken rest : List Char}
    (h : closeString cs = some (text, taken, rest)) : taken ++ rest = cs := by
  fun_induction closeString cs generalizing text taken rest with
  | case1 => cases h
  | case2 => cases h; rfl
  | case3 => cases h
  | case4 c cs ih =>
    obtain ⟨⟨text', taken', rest'⟩, hr, he⟩ := Option.map_eq_some_iff.1 h
    cases he
    simp [ih hr]
  | case5 c cs _ _ _ ih =>
    obtain ⟨⟨text', taken', rest'⟩, hr, he⟩ := Option.map_eq_some_iff.1 h
    cases he
    simp [ih hr]

theorem closeCharacter_split {cs taken rest : List Char} {c : Char}
    (h : closeCharacter cs = some (c, taken, rest)) : taken ++ rest = cs := by
  unfold closeCharacter at h
  split at h
  · cases h; rfl
  · split at h <;> cases h
    rfl
  · cases h

theorem spanNumber_split (cs : List Char) : (spanNumber cs).1 ++ (spanNumber cs).2 = cs := by
  have hsplit := List.takeWhile_append_dropWhile (p := Char.isDigit) (l := cs)
  unfold spanNumber
  split
  · rename_i heq
    simp only [List.append_assoc, List.cons_append, List.takeWhile_append_dropWhile]
    rw [← heq, hsplit]
  · exact hsplit

theorem readWord_split (c : Char) (cs : List Char) :
    (readWord c cs).taken ++ (readWord c cs).rest = c :: cs := by
  unfold readWord
  dsimp only
  split <;> simp [mark, lexeme]

theorem readSymbol_split {c : Char} {cs : List Char} {p : Piece}
    (h : readSymbol c cs = .ok p) : p.taken ++ p.rest = c :: cs := by
  unfold readSymbol at h
  split at h
  · cases h; rfl
  · split at h
    · cases h
    · split at h <;> cases h
      · simp [number, lexeme]
      · rfl
    · cases h; rfl

/-- A piece and what follows it are the text that was read. -/
theorem read_split {c : Char} {cs : List Char} {p : Piece} (h : read c cs = .ok p) :
    p.taken ++ p.rest = c :: cs := by
  unfold read at h
  split at h
  · cases h; rfl
  · cases h; rfl
  · cases h; rfl
  · cases h; rfl
  · split at h <;> cases h
    rename_i hc
    simp [gap, closeComment_split hc]
  · split at h <;> cases h
    rename_i hc
    simp [lexeme, closeString_split hc]
  · split at h <;> cases h
    rename_i hc
    simp [lexeme, closeCharacter_split hc]
  · split at h
    · cases h; exact readWord_split c cs
    · split at h
      · cases h; simp [number, lexeme, spanNumber_split]
      · exact readSymbol_split h

theorem readSymbol_taken_ne_nil {c : Char} {cs : List Char} {p : Piece}
    (h : readSymbol c cs = .ok p) : p.taken ≠ [] := by
  unfold readSymbol at h
  repeat' split at h
  all_goals cases h
  all_goals simp [mark, number, lexeme]

/-- A piece has at least one character. -/
theorem read_taken_ne_nil {c : Char} {cs : List Char} {p : Piece} (h : read c cs = .ok p) :
    p.taken ≠ [] := by
  unfold read at h
  split at h
  · cases h; simp [mark]
  · cases h; simp [gap]
  · cases h; simp [gap]
  · cases h; simp [gap]
  · split at h <;> cases h
    simp [gap]
  · split at h <;> cases h
    simp [lexeme]
  · split at h <;> cases h
    simp [lexeme]
  · split at h
    · cases h
      unfold readWord
      dsimp only
      split <;> simp [mark, lexeme]
    · split at h
      · cases h; simp [number, lexeme]
      · exact readSymbol_taken_ne_nil h

theorem read_rest_lt {c : Char} {cs : List Char} {p : Piece} (h : read c cs = .ok p) :
    p.rest.length < (c :: cs).length := by
  have hsplit := congrArg List.length (read_split h)
  have hpos := List.length_pos_iff.2 (read_taken_ne_nil h)
  rw [List.length_append] at hsplit
  omega

end Piece

end Offside
