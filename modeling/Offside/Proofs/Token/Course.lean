import Offside.Proofs.Text.Position
import Offside.Proofs.Token.Spelling
import Offside.Token.Scan

/-!
The course of a scan. A move is one step together with the text that it takes, and `Effect` lists
what a move can do. A scan reaches another by moves; what every move keeps holds along the way
(`Reaches.invariant`), and two scans reached from one start lie on one course (`Reaches.linear`).
Tokens come from a course that ends where the text ends.
-/
namespace Offside

namespace Token

def isIndent (t : Token) : Bool := t.kind == .indent

def isDedent (t : Token) : Bool := t.kind == .dedent

/-- Indents and dedents tell levels and are not spelled. -/
def isLevel (t : Token) : Bool := t.isIndent || t.isDedent

end Token

theorem Layout.of_mem_shift {depth level : Nat} {p : Position} {t : Token}
    (h : t ∈ Layout.shift depth level p) : t.isLevel = true ∧ t.position = p := by
  unfold Layout.shift at h
  split at h
  · rw [List.mem_singleton.1 h]
    exact ⟨rfl, rfl⟩
  · rw [List.eq_of_mem_replicate h]
    exact ⟨rfl, rfl⟩

theorem Spells.isLevel_eq {text : List Char} {kind : Kind} {value : Option String}
    (h : Spells text kind value) (p : Position) : Token.isLevel ⟨kind, p, value⟩ = false := by
  obtain ⟨hi, hd⟩ := h.kind_ne
  simp [Token.isLevel, Token.isIndent, Token.isDedent, hi, hd]

namespace Scan

theorem of_mem_close {s : Scan} {t : Token} (h : t ∈ s.close) :
    t.isLevel = true ∧ t.position = s.cursor.position := by
  rw [List.eq_of_mem_replicate h]
  exact ⟨rfl, rfl⟩

/-- One step, which takes `text` and gives `ts`. -/
structure Moves (s : Scan) (text : List Char) (ts : List Token) (next : Scan) : Prop where
  rest_ne_nil : s.cursor.rest ≠ []
  step_eq : s.step = .ok (ts, next)
  rest_eq : s.cursor.rest = text ++ next.cursor.rest

/-- What a move can do: pass the head of an empty line, pass the head of a line with content and
settle its level, pass trivia, or give the token of a lexeme. -/
inductive Effect (s : Scan) : List Char → List Token → Scan → Prop
  | emptyHead {h : Layout.Head} (hl : s.lineStart = true)
      (hr : Layout.readHead s.cursor.rest = .ok h) (he : h.isEmpty = true) :
      Effect s (h.blanks ++ h.comments) []
        ⟨s.cursor.moveOver (h.blanks ++ h.comments) h.rest, s.depth, false⟩
  | lineHead {h : Layout.Head} {level : Nat} (hl : s.lineStart = true)
      (hr : Layout.readHead s.cursor.rest = .ok h) (he : h.isEmpty = false)
      (hd : Layout.level s.depth (Layout.width h.blanks) = .ok level) :
      Effect s (h.blanks ++ h.comments) (Layout.shift s.depth level s.cursor.position)
        ⟨s.cursor.moveOver (h.blanks ++ h.comments) h.rest, level, false⟩
  | gap {text rest : List Char} (hl : s.lineStart = false) (hr : s.cursor.rest = text ++ rest)
      (hne : text ≠ []) (ht : Trivia text) :
      Effect s text [] ⟨s.cursor.moveOver text rest, s.depth, false⟩
  | lexeme {text rest : List Char} {kind : Kind} {value : Option String}
      (hl : s.lineStart = false) (hr : s.cursor.rest = text ++ rest)
      (ht : Spells text kind value) :
      Effect s text [⟨kind, s.cursor.position, value⟩]
        ⟨s.cursor.moveOver text rest, s.depth, kind == .newline⟩

variable {s t next : Scan} {text : List Char} {ts : List Token}

theorem readHead_effect (hl : s.lineStart = true) (h : s.readHead = .ok (ts, next)) :
    ∃ text, s.cursor.rest = text ++ next.cursor.rest ∧ Effect s text ts next := by
  unfold readHead at h
  dsimp only at h
  split at h
  · cases h
  · rename_i head hhead
    have hsplit := (Layout.readHead_split hhead).symm
    refine ⟨head.blanks ++ head.comments, ?_⟩
    split at h
    · cases h
      exact ⟨hsplit, .emptyHead hl hhead ‹_›⟩
    · rename_i hcontent
      split at h
      · cases h
      · rename_i level hlevel
        cases h
        exact ⟨hsplit, .lineHead hl hhead (by simpa using hcontent) hlevel⟩

theorem readPiece_effect (hl : s.lineStart = false) (hne : s.cursor.rest ≠ [])
    (h : s.readPiece = .ok (ts, next)) :
    ∃ text, s.cursor.rest = text ++ next.cursor.rest ∧ Effect s text ts next := by
  unfold readPiece at h
  split at h
  · contradiction
  · rename_i c cs hrest
    split at h
    · cases h
    · rename_i piece hpiece
      have hsplit := Piece.read_split hpiece
      have hsound := Piece.read_sound hpiece
      have hr : s.cursor.rest = piece.taken ++ piece.rest := hrest.trans hsplit.symm
      refine ⟨piece.taken, ?_⟩
      dsimp only at h
      unfold Piece.Sound at hsound
      split at h
      · rename_i htoken
        rw [htoken] at hsound
        have hc : (c == '\n') = false := by
          obtain ⟨d, more, htaken⟩ := List.exists_cons_of_ne_nil (Piece.read_taken_ne_nil hpiece)
          rw [htaken] at hsplit hsound
          obtain ⟨rfl, -⟩ := List.cons.inj hsplit
          rcases hsound.head with rfl | rfl | rfl | rfl <;> rfl
        rw [hc] at h
        cases h
        exact ⟨hr, .gap hl hr (Piece.read_taken_ne_nil hpiece) hsound⟩
      · rename_i kind value htoken
        rw [htoken] at hsound
        have hc : (c == '\n') = (kind == .newline) := by
          rw [Bool.eq_iff_iff, beq_iff_eq, beq_iff_eq, Piece.read_newline_iff hpiece htoken]
        rw [hc] at h
        cases h
        exact ⟨hr, .lexeme hl hr hsound⟩

theorem step_effect (hne : s.cursor.rest ≠ []) (h : s.step = .ok (ts, next)) :
    ∃ text, s.cursor.rest = text ++ next.cursor.rest ∧ Effect s text ts next := by
  unfold step at h
  split at h
  · rename_i hl
    exact readHead_effect hl h
  · rename_i hl
    exact readPiece_effect (Bool.eq_false_iff.2 hl) hne h

theorem exists_moves (hne : s.cursor.rest ≠ []) (h : s.step = .ok (ts, next)) :
    ∃ text, Moves s text ts next := by
  obtain ⟨text, hrest, -⟩ := step_effect hne h
  exact ⟨text, hne, h, hrest⟩

/-- A move has one of the four effects. -/
theorem Moves.effect (h : Moves s text ts next) : Effect s text ts next := by
  obtain ⟨taken, hrest, heffect⟩ := step_effect h.rest_ne_nil h.step_eq
  have htext : text = taken := List.append_cancel_right (h.rest_eq.symm.trans hrest)
  exact htext ▸ heffect

/-- A move goes on to the place after its text. -/
theorem Moves.position_eq (h : Moves s text ts next) :
    next.cursor.position = s.cursor.position.after text := by
  cases h.effect <;> rfl

theorem Moves.unique {text' : List Char} {ts' : List Token} {next' : Scan}
    (h : Moves s text ts next) (h' : Moves s text' ts' next') :
    text = text' ∧ ts = ts' ∧ next = next' := by
  have hstep := h.step_eq.symm.trans h'.step_eq
  cases hstep
  exact ⟨List.append_cancel_right (h.rest_eq.symm.trans h'.rest_eq), rfl, rfl⟩

/-- Some moves lead from `s` to `t`; together they take `text` and give `ts`. -/
inductive Reaches : Scan → List Char → List Token → Scan → Prop
  | refl (s : Scan) : Reaches s [] [] s
  | head {s mid t : Scan} {text more : List Char} {ts us : List Token}
      (hm : Moves s text ts mid) (hr : Reaches mid more us t) :
      Reaches s (text ++ more) (ts ++ us) t

namespace Reaches

theorem single (h : Moves s text ts next) : Reaches s text ts next := by
  simpa using head h (refl next)

theorem trans {u : Scan} {more : List Char} {us : List Token} (h : Reaches s text ts t)
    (h' : Reaches t more us u) : Reaches s (text ++ more) (ts ++ us) u := by
  induction h with
  | refl => exact h'
  | head hm _ ih => simpa using head hm (ih h')

/-- What holds at the start and is kept by every move holds of a scan that is reached, with the
text and the tokens up to there. -/
theorem invariant (Inv : List Char → List Token → Scan → Prop) (hstart : Inv [] [] s)
    (hmove : ∀ {w us mid v vs next}, Reaches s w us mid → Inv w us mid → Moves mid v vs next →
      Inv (w ++ v) (us ++ vs) next)
    (h : Reaches s text ts t) : Inv text ts t := by
  have hfrom : ∀ {a b w us v vs}, Reaches s w us a → Inv w us a → Reaches a v vs b →
      Inv (w ++ v) (us ++ vs) b := by
    intro a b w us v vs hreach hinv hr
    induction hr generalizing w us with
    | refl => simpa using hinv
    | head hm _ ih =>
      simpa using ih (hreach.trans (single hm)) (hmove hreach hinv hm)
  simpa using hfrom (.refl s) hstart h

theorem rest_eq (h : Reaches s text ts t) : s.cursor.rest = text ++ t.cursor.rest := by
  induction h with
  | refl => rfl
  | head hm _ ih => rw [hm.rest_eq, ih, List.append_assoc]

theorem position_eq (h : Reaches s text ts t) :
    t.cursor.position = s.cursor.position.after text := by
  induction h with
  | refl => rfl
  | head hm _ ih => rw [ih, hm.position_eq, Position.after_append]

/-- The place of a scan that has taken `text` from the start. -/
theorem position_start {source : String} (h : Reaches (start source) text ts t) :
    t.cursor.position = Position.ofText text := by
  rw [h.position_eq, ← Position.start_after]
  rfl

theorem eq_of_rest_nil (h : Reaches s text ts t) (hs : s.cursor.rest = []) :
    text = [] ∧ ts = [] ∧ s = t := by
  cases h with
  | refl => exact ⟨rfl, rfl, rfl⟩
  | head hm _ => exact absurd hs hm.rest_ne_nil

/-- A course that takes text goes through the first move. -/
theorem of_moves {mid : Scan} {v : List Char} {vs : List Token} (h : Reaches s text ts t)
    (hne : text ≠ []) (hm : Moves s v vs mid) : ∃ more us, Reaches mid more us t := by
  cases h with
  | refl => contradiction
  | head hm' hr =>
    obtain ⟨-, -, rfl⟩ := hm.unique hm'
    exact ⟨_, _, hr⟩

/-- Two scans that are reached from one start lie on one course. -/
theorem linear {u : Scan} {text' : List Char} {ts' : List Token} (h : Reaches s text ts t)
    (h' : Reaches s text' ts' u) :
    (∃ v vs, Reaches t v vs u ∧ text' = text ++ v ∧ ts' = ts ++ vs) ∨
      ∃ v vs, Reaches u v vs t ∧ text = text' ++ v ∧ ts = ts' ++ vs := by
  induction h generalizing text' ts' with
  | refl => exact .inl ⟨text', ts', h', rfl, rfl⟩
  | head hm hr ih =>
    cases h' with
    | refl => exact .inr ⟨_, _, head hm hr, rfl, rfl⟩
    | head hm' hr' =>
      obtain ⟨rfl, rfl, rfl⟩ := hm.unique hm'
      rcases ih hr' with ⟨v, vs, hv, rfl, rfl⟩ | ⟨v, vs, hv, rfl, rfl⟩
      · exact .inl ⟨v, vs, hv, by simp, by simp⟩
      · exact .inr ⟨v, vs, hv, by simp, by simp⟩

/-- A course that has reached the end of the text passes through every scan on the way. -/
theorem to_end {last : Scan} {all : List Char} {us : List Token} (h : Reaches s text ts t)
    (hrun : Reaches s all us last) (hlast : last.cursor.rest = []) :
    ∃ v vs, Reaches t v vs last ∧ all = text ++ v ∧ us = ts ++ vs := by
  rcases h.linear hrun with hto | ⟨v, vs, hback, htext, hts⟩
  · exact hto
  · obtain ⟨rfl, rfl, rfl⟩ := hback.eq_of_rest_nil hlast
    exact ⟨[], [], .refl _, by simpa using htext.symm, by simpa using hts.symm⟩

end Reaches

theorem run_ok {done : Array Token} (h : s.run done = .ok ts) :
    ∃ us last, Reaches s s.cursor.rest us last ∧ last.cursor.rest = [] ∧
      ts = done.toList ++ us ++ last.close := by
  fun_induction run done s with
  | case1 done s hs =>
    cases h
    refine ⟨[], s, ?_, hs, by simp⟩
    rw [hs]
    exact .refl s
  | case2 => cases h
  | case3 done s hs tokens mid hstep ih =>
    obtain ⟨us, last, hreach, hlast, rfl⟩ := ih h
    obtain ⟨text, hmove⟩ := exists_moves hs hstep
    refine ⟨tokens ++ us, last, ?_, hlast, by simp⟩
    rw [hmove.rest_eq]
    exact .head hmove hreach

theorem Moves.run_eq (h : Moves s text ts next) (done : Array Token) :
    s.run done = next.run (done ++ ts.toArray) := by
  rw [run, dif_neg h.rest_ne_nil]
  split
  · rename_i hstep
    cases hstep.symm.trans h.step_eq
  · rename_i hstep
    cases hstep.symm.trans h.step_eq
    rfl

/-- A scan gives what the scan that it reaches gives, behind the tokens on the way. -/
theorem Reaches.run_through (h : Reaches s text ts t) (done : Array Token) :
    s.run done = t.run (done ++ ts.toArray) := by
  induction h generalizing done with
  | refl => simp
  | head hm _ ih => simp [hm.run_eq, ih]

/-- A course to the end of the text gives the tokens. -/
theorem Reaches.run_eq (h : Reaches s text ts t) (ht : t.cursor.rest = []) (done : Array Token) :
    s.run done = .ok (done.toList ++ ts ++ t.close) := by
  rw [h.run_through, run, dif_pos ht]
  simp

end Scan

open Scan

/-- The tokens of a text come from a course over the whole text, and the dedents that close it. -/
theorem exists_reaches_of_tokenize {source : String} {ts : List Token}
    (h : tokenize source = .ok ts) :
    ∃ us last, Reaches (Scan.start source) source.toList us last ∧ last.cursor.rest = [] ∧
      ts = us ++ last.close := by
  obtain ⟨us, last, hreach, hlast, heq⟩ := run_ok h
  exact ⟨us, last, hreach, hlast, by simpa using heq⟩

end Offside
