import Mathlib.Data.List.Forall2
import Offside.Proofs.Token.Arrangement

/-!
The place of a scan. Two scans before the same text, with as many open levels and both at the start
of a line or both inside one, go on in the same way wherever they stand: they give the same signs at
places that stay related as the places of the scans were, or they fail over the same fault. One step
keeps the scans beside each other (`Beside.step`), and so does a whole run (`Beside.run`).
-/
namespace Offside

namespace Position

/-- The place a number of lines further down. -/
def lower (n : Nat) (p : Position) : Position := ⟨p.line + n, p.column⟩

/-- The relation holds on when both places move over the same character. -/
def Kept (near : Position → Position → Prop) : Prop :=
  ∀ p q c, near p q → near (p.next c) (q.next c)

theorem Kept.after {near : Position → Position → Prop} (hnear : Kept near) {p q : Position}
    (h : near p q) (text : List Char) : near (p.after text) (q.after text) := by
  induction text generalizing p q with
  | nil => exact h
  | cons c text ih => exact ih (hnear p q c h)

theorem kept_lower (n : Nat) : Kept fun p q => q = p.lower n := by
  rintro p q c rfl
  unfold next lower
  split
  · simp only [mk.injEq, and_true]
    omega
  · split <;> rfl

/-- Behind whole lines a line starts, one for each line feed further down. -/
theorem start_after_lines {text : List Char} (h : text = [] ∨ text.getLast? = some '\n') :
    start.after text = start.lower (text.count '\n') := by
  rw [start_after, ofText, start, lower]
  rcases h with rfl | h
  · rfl
  · obtain ⟨lines, rfl⟩ := List.getLast?_eq_some_iff.1 h
    simp [lastLine, List.rtakeWhile_concat_neg]

end Position

open Position

/-- The token as many lines further down. -/
def Token.lower (n : Nat) (t : Token) : Token := { t with position := t.position.lower n }

/-- The error as many lines further down. -/
def LexicalError.lower (n : Nat) (e : LexicalError) : LexicalError :=
  { e with position := e.position.lower n }

/-- Two tokens that say the same at related places. -/
structure Token.Beside (near : Position → Position → Prop) (t t' : Token) : Prop where
  sign : t'.sign = t.sign
  position : near t.position t'.position

theorem eq_map_lower {n : Nat} {ts us : List Token}
    (h : List.Forall₂ (Token.Beside fun p q => q = p.lower n) ts us) :
    us = ts.map (Token.lower n) := by
  induction h with
  | nil => rfl
  | @cons t u ts us ht _ ih =>
    have hkind : u.kind = t.kind := congrArg Sign.kind ht.sign
    have htext : u.text = t.text := congrArg Sign.text ht.sign
    have hu : u = ⟨u.kind, u.position, u.text⟩ := rfl
    rw [List.map_cons, ← ih, hu, hkind, ht.position, htext]
    rfl

theorem signs_of_beside {near : Position → Position → Prop} {ts us : List Token}
    (h : List.Forall₂ (Token.Beside near) ts us) : us.map Token.sign = ts.map Token.sign := by
  induction h with
  | nil => rfl
  | cons ht _ ih => rw [List.map_cons, List.map_cons, ht.sign, ih]

/-- Two outcomes of one sort: results that are related, or the same fault at related places. -/
inductive Matches {α β : Type} (near : Position → Position → Prop) (R : α → β → Prop) :
    Except LexicalError α → Except LexicalError β → Prop
  | ok {a : α} {b : β} (h : R a b) : Matches near R (.ok a) (.ok b)
  | error {e e' : LexicalError} (hfault : e'.fault = e.fault)
      (hposition : near e.position e'.position) : Matches near R (.error e) (.error e')

theorem Matches.mono {α β : Type} {near : Position → Position → Prop} {R S : α → β → Prop}
    {x : Except LexicalError α} {y : Except LexicalError β} (h : Matches near R x y)
    (hR : ∀ a b, R a b → S a b) : Matches near S x y := by
  cases h with
  | ok h => exact .ok (hR _ _ h)
  | error hfault hposition => exact .error hfault hposition

namespace Scan

variable {near : Position → Position → Prop} {s s' : Scan}

/-- Two scans before the same text, both at the start of a line or both inside one. -/
structure Abreast (s s' : Scan) : Prop where
  rest : s'.cursor.rest = s.cursor.rest
  lineStart : s'.lineStart = s.lineStart

/-- Two scans that differ at most in their places, which are related. -/
structure Beside (near : Position → Position → Prop) (s s' : Scan) : Prop extends Abreast s s' where
  depth : s'.depth = s.depth
  position : near s.cursor.position s'.cursor.position

theorem run_of_error {e : LexicalError} (hne : s.cursor.rest ≠ []) (h : s.step = .error e)
    (done : Array Token) : s.run done = .error e := by
  rw [run, dif_neg hne]
  split
  · rename_i hstep
    cases hstep.symm.trans h
    rfl
  · rename_i hstep
    cases hstep.symm.trans h

theorem replicate_beside {t t' : Token} (h : Token.Beside near t t') (n : Nat) :
    List.Forall₂ (Token.Beside near) (List.replicate n t) (List.replicate n t') := by
  induction n with
  | zero => exact .nil
  | succ n ih => exact .cons h ih

theorem shift_beside {p q : Position} (h : near p q) (depth level : Nat) :
    List.Forall₂ (Token.Beside near) (Layout.shift depth level p) (Layout.shift depth level q) := by
  have hdedent : Token.Beside near ⟨.dedent, p, none⟩ ⟨.dedent, q, none⟩ := ⟨rfl, h⟩
  unfold Layout.shift
  split
  · exact .cons ⟨rfl, h⟩ .nil
  · exact replicate_beside hdedent _

theorem Beside.close (h : Beside near s s') :
    List.Forall₂ (Token.Beside near) s.close s'.close := by
  have hdedent : Token.Beside near ⟨.dedent, s.cursor.position, none⟩
      ⟨.dedent, s'.cursor.position, none⟩ := ⟨rfl, h.position⟩
  unfold Scan.close
  rw [h.depth]
  exact replicate_beside hdedent _

/-- What two steps give: related tokens, and scans that are beside each other again. -/
def Beside.Step (near : Position → Position → Prop) (x y : List Token × Scan) : Prop :=
  List.Forall₂ (Token.Beside near) x.1 y.1 ∧ Beside near x.2 y.2

theorem Beside.readHead (hnear : Kept near) (h : Beside near s s') :
    Matches near (Beside.Step near) s.readHead s'.readHead := by
  unfold Scan.readHead
  simp only [h.rest, h.depth]
  cases Layout.readHead s.cursor.rest with
  | error before => exact .error rfl (hnear.after h.position before)
  | ok head =>
    have hmoved := hnear.after h.position (head.blanks ++ head.comments)
    dsimp only
    split
    · exact .ok ⟨.nil, ⟨⟨rfl, rfl⟩, rfl, hmoved⟩⟩
    · cases Layout.level s.depth (Layout.width head.blanks) with
      | error fault => exact .error rfl h.position
      | ok level => exact .ok ⟨shift_beside h.position _ _, ⟨⟨rfl, rfl⟩, rfl, hmoved⟩⟩

theorem Beside.readPiece (hnear : Kept near) (h : Beside near s s') :
    Matches near (Beside.Step near) s.readPiece s'.readPiece := by
  unfold Scan.readPiece
  simp only [h.rest, h.depth]
  cases s.cursor.rest with
  | nil => exact .ok ⟨.nil, h⟩
  | cons c cs =>
    dsimp only
    cases Piece.read c cs with
    | error fault => exact .error rfl h.position
    | ok piece =>
      have hmoved := hnear.after h.position piece.taken
      dsimp only
      cases piece.token with
      | none => exact .ok ⟨.nil, ⟨⟨rfl, rfl⟩, rfl, hmoved⟩⟩
      | some x => exact .ok ⟨.cons ⟨rfl, h.position⟩ .nil, ⟨⟨rfl, rfl⟩, rfl, hmoved⟩⟩

theorem Beside.step (hnear : Kept near) (h : Beside near s s') :
    Matches near (Beside.Step near) s.step s'.step := by
  unfold Scan.step
  rw [h.lineStart]
  split
  · exact h.readHead hnear
  · exact h.readPiece hnear

/-- Two scans beside each other find the same from there on, wherever they stand and whatever they
have found before. -/
theorem Beside.run (hnear : Kept near) (h : Beside near s s') (done done' : Array Token) :
    Matches near (fun ts us => ∃ later later', ts = done.toList ++ later ∧
      us = done'.toList ++ later' ∧ List.Forall₂ (Token.Beside near) later later')
      (s.run done) (s'.run done') := by
  fun_induction Scan.run done s generalizing s' done' with
  | case1 done s hs =>
    rw [Scan.run, dif_pos (h.rest.trans hs)]
    exact .ok ⟨_, _, rfl, rfl, h.close⟩
  | case2 done s hs e hstep =>
    have hsteps := hstep ▸ h.step hnear
    generalize hstep' : s'.step = out at hsteps
    cases hsteps with
    | error hfault hposition =>
      rw [run_of_error (h.rest ▸ hs) hstep']
      exact .error hfault hposition
  | case3 done s hs tokens mid hstep ih =>
    have hsteps := hstep ▸ h.step hnear
    generalize hstep' : s'.step = out at hsteps
    cases hsteps with
    | @ok _ b hsteps =>
      obtain ⟨tokens', mid'⟩ := b
      obtain ⟨htokens, hmid⟩ := hsteps
      obtain ⟨text, hmove⟩ := exists_moves (h.rest ▸ hs) hstep'
      rw [hmove.run_eq]
      refine (ih hmid (done' ++ tokens'.toArray)).mono ?_
      rintro ts us ⟨later, later', rfl, rfl, hlater⟩
      refine ⟨tokens ++ later, tokens' ++ later', by simp, by simp, ?_⟩
      exact List.rel_append htokens hlater

end Scan

end Offside
