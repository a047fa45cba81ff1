import Offside.Token.Basic
import Offside.Token.Lexeme

/-!
The head of a line: its leading blanks, then comments with the blanks after them. The width of the
leading blanks decides the level of a line that holds a lexeme; a change of level is written with
indent and dedent tokens at the place where the line starts.
-/
namespace Offside.Layout

/-- The characters that indentation is made of. -/
def isBlank (c : Char) : Bool := c == ' ' || c == '\t'

/-- The columns that leading blanks cover. -/
def width : List Char → Nat
  | [] => 0
  | c :: blanks => (if c = '\t' then tabWidth else 1) + width blanks

/-- The comments at the head of a text, each with the blanks after it, and what follows. If one is
not closed, the characters before it. -/
def spanComments (cs : List Char) : Except (List Char) (List Char × List Char) :=
  match cs with
  | '\x7b' :: inner =>
    match _h : Piece.closeComment inner with
    | none => .error []
    | some (body, after) =>
      let comment := '\x7b' :: body ++ after.takeWhile isBlank
      match spanComments (after.dropWhile isBlank) with
      | .error before => .error (comment ++ before)
      | .ok (taken, rest) => .ok (comment ++ taken, rest)
  | _ => .ok ([], cs)
termination_by cs.length
decreasing_by
  have hsplit := congrArg List.length (Piece.closeComment_split _h)
  have hdrop := (List.dropWhile_suffix isBlank (l := after)).length_le
  simp only [List.length_append, List.length_cons] at hsplit ⊢
  omega

/-- The head of a line. -/
structure Head where
  blanks : List Char
  comments : List Char
  rest : List Char
deriving DecidableEq

/-- The head of the line that starts here, or the characters before a comment that is not
closed. -/
def readHead (cs : List Char) : Except (List Char) Head :=
  let blanks := cs.takeWhile isBlank
  match spanComments (cs.dropWhile isBlank) with
  | .error before => .error (blanks ++ before)
  | .ok (comments, rest) => .ok ⟨blanks, comments, rest⟩

/-- A line that has only blanks and comments before it ends. -/
def Head.isEmpty (h : Head) : Bool :=
  match h.rest with
  | [] => true
  | c :: _ => c == '\n' || c == '\r'

/-- The level of a line that is `width` columns in, after a line of level `depth`. -/
def level (depth width : Nat) : Except LexicalFault Nat :=
  if width % indentUnit ≠ 0 then .error (.irregularIndentation width)
  else if depth + 1 < width / indentUnit then .error (.indentationJump depth (width / indentUnit))
  else .ok (width / indentUnit)

/-- The tokens that lead from one level to another. -/
def shift (depth level : Nat) (p : Position) : List Token :=
  if depth < level then [⟨.indent, p, none⟩]
  else List.replicate (depth - level) ⟨.dedent, p, none⟩

theorem spanComments_split {cs taken rest : List Char} (h : spanComments cs = .ok (taken, rest)) :
    taken ++ rest = cs := by
  fun_induction spanComments cs generalizing taken rest with
  | case1 => cases h
  | case2 => cases h
  | case3 inner body after hclose comment taken' rest' heq =>
    rename_i ih
    cases h
    have hsplit := Piece.closeComment_split hclose
    rw [List.append_assoc, ih heq]
    simp [comment, hsplit]
  | case4 => cases h; rfl

/-- The head of a line and what follows it are the text that was read. -/
theorem readHead_split {cs : List Char} {h : Head} (hr : readHead cs = .ok h) :
    h.blanks ++ h.comments ++ h.rest = cs := by
  unfold readHead at hr
  dsimp only at hr
  split at hr <;> cases hr
  rename_i heq
  rw [List.append_assoc, spanComments_split heq, List.takeWhile_append_dropWhile]

end Offside.Layout
