import Offside.Text.Cursor
import Offside.Token.Layout

/-!
From text to tokens. A scan is a cursor with the level of the last line and whether a line starts
here; each step reads the head of a line or one piece of it. Steps consume text or leave a line
start behind (`step_weight_lt`), so a scan ends, and at the end of the text it closes the levels
that are still open.
-/
namespace Offside

structure Scan where
  cursor : Cursor
  depth : Nat
  lineStart : Bool
deriving DecidableEq

namespace Scan

def start (source : String) : Scan := ⟨Cursor.ofString source, 0, true⟩

/-- Reads the head of a line. The level changes only if the line holds more than blanks and
comments. -/
def readHead (s : Scan) : Except LexicalError (List Token × Scan) :=
  let p := s.cursor.position
  match Layout.readHead s.cursor.rest with
  | .error before => .error ⟨.unterminatedComment, p.after before⟩
  | .ok h =>
    let cursor := s.cursor.moveOver (h.blanks ++ h.comments) h.rest
    if h.isEmpty then .ok ([], ⟨cursor, s.depth, false⟩)
    else
      match Layout.level s.depth (Layout.width h.blanks) with
      | .error fault => .error ⟨fault, p⟩
      | .ok level => .ok (Layout.shift s.depth level p, ⟨cursor, level, false⟩)

/-- Reads one piece of a line. -/
def readPiece (s : Scan) : Except LexicalError (List Token × Scan) :=
  match s.cursor.rest with
  | [] => .ok ([], s)
  | c :: cs =>
    match Piece.read c cs with
    | .error fault => .error ⟨fault, s.cursor.position⟩
    | .ok piece =>
      let next := ⟨s.cursor.moveOver piece.taken piece.rest, s.depth, c == '\n'⟩
      match piece.token with
      | none => .ok ([], next)
      | some (kind, text) => .ok ([⟨kind, s.cursor.position, text⟩], next)

def step (s : Scan) : Except LexicalError (List Token × Scan) :=
  if s.lineStart then s.readHead else s.readPiece

/-- Twice the text that is left, and one more at the start of a line. -/
def weight (s : Scan) : Nat := 2 * s.cursor.rest.length + s.lineStart.toNat

theorem readHead_weight_lt {s next : Scan} {ts : List Token} (hs : s.lineStart = true)
    (h : s.readHead = .ok (ts, next)) : next.weight < s.weight := by
  unfold readHead at h
  dsimp only at h
  split at h
  · cases h
  · rename_i head hhead
    have hsplit := congrArg List.length (Layout.readHead_split hhead)
    simp only [List.length_append] at hsplit
    split at h
    · cases h
      simp only [weight, Cursor.moveOver_rest, hs, Bool.toNat_true, Bool.toNat_false]
      omega
    · split at h <;> cases h
      simp only [weight, Cursor.moveOver_rest, hs, Bool.toNat_true, Bool.toNat_false]
      omega

theorem readPiece_weight_lt {s next : Scan} {ts : List Token} (hs : s.cursor.rest ≠ [])
    (h : s.readPiece = .ok (ts, next)) : next.weight < s.weight := by
  unfold readPiece at h
  split at h
  · contradiction
  · rename_i c cs hrest
    split at h
    · cases h
    · rename_i piece hpiece
      have hlt := Piece.read_rest_lt hpiece
      have hbool := Bool.toNat_le (c == '\n')
      have hw : next.weight = 2 * piece.rest.length + (c == '\n').toNat := by
        dsimp only at h
        split at h <;> cases h <;> rfl
      rw [hw, weight, hrest]
      omega

theorem step_weight_lt {s next : Scan} {ts : List Token} (hs : s.cursor.rest ≠ [])
    (h : s.step = .ok (ts, next)) : next.weight < s.weight := by
  unfold step at h
  split at h
  · rename_i hl
    exact readHead_weight_lt hl h
  · exact readPiece_weight_lt hs h

/-- The dedents that close every open level. -/
def close (s : Scan) : List Token := List.replicate s.depth ⟨.dedent, s.cursor.position, none⟩

/-- The tokens of the text that is left, after those already `done`. -/
def run (done : Array Token) (s : Scan) : Except LexicalError (List Token) :=
  if _hs : s.cursor.rest = [] then .ok (done.toList ++ s.close)
  else
    match _h : s.step with
    | .error e => .error e
    | .ok (tokens, next) => run (done ++ tokens.toArray) next
termination_by s.weight
decreasing_by exact step_weight_lt _hs _h

end Scan

/-- The tokens of a source text. -/
def tokenize (source : String) : Except LexicalError (List Token) :=
  (Scan.start source).run #[]

end Offside
