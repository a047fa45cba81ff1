import Mathlib.Data.List.DropRight
import Mathlib.Data.Prod.Lex
import Offside.Text.Position

/-!
Places by counting, and their order. The place after a text is the number of its line feeds and the
columns since the last one. Moving over a character leads to a later place, so two stretches from
the head of one text that end at the same place are equal.
-/
namespace Offside.Position

/-- The characters after the last line feed. -/
def lastLine (text : List Char) : List Char := text.rtakeWhile (· ≠ '\n')

/-- The place at the end of a text. A tab counts as four characters. -/
def ofText (text : List Char) : Position :=
  ⟨1 + text.count '\n', (lastLine text).length + 3 * (lastLine text).count '\t'⟩

theorem start_after (text : List Char) : start.after text = ofText text := by
  induction text using List.reverseRecOn with
  | nil => rfl
  | append_singleton text c ih =>
    rw [after_append, ih]
    by_cases hn : c = '\n'
    · simp [ofText, lastLine, next, hn, List.rtakeWhile_concat_neg]
      omega
    · by_cases ht : c = '\t'
      · simp [ofText, lastLine, next, ht, List.rtakeWhile_concat_pos, tabWidth]
        omega
      · simp [ofText, lastLine, next, hn, ht, List.rtakeWhile_concat_pos]
        omega

/-- Reading order: by line, then by column. -/
instance : LinearOrder Position :=
  LinearOrder.lift' (fun p => toLex (p.line, p.column)) fun p q h => by
    cases p
    cases q
    simpa using h

theorem lt_def {p q : Position} :
    p < q ↔ p.line < q.line ∨ p.line = q.line ∧ p.column < q.column :=
  Prod.Lex.toLex_lt_toLex

theorem lt_next (p : Position) (c : Char) : p < p.next c := by
  unfold next
  rw [lt_def]
  split
  · simp
  · split <;> simp [tabWidth]

theorem le_after (p : Position) (text : List Char) : p ≤ p.after text := by
  induction text generalizing p with
  | nil => exact le_rfl
  | cons c text ih => exact (lt_next p c).le.trans (ih (p.next c))

theorem lt_after (p : Position) {text : List Char} (h : text ≠ []) : p < p.after text := by
  obtain ⟨c, rest, rfl⟩ := List.exists_cons_of_ne_nil h
  exact (lt_next p c).trans_le (le_after (p.next c) rest)

theorem eq_of_after_append {p : Position} {s t : List Char} (h : p.after s = p.after (s ++ t)) :
    t = [] := by
  by_contra hne
  have hlt := lt_after (p.after s) hne
  rw [← after_append, ← h] at hlt
  exact lt_irrefl _ hlt

/-- A place is reached at one point of a text only. -/
theorem eq_of_after_eq {p : Position} {s t text : List Char} (hs : s <+: text) (ht : t <+: text)
    (h : p.after s = p.after t) : s = t := by
  rcases List.prefix_or_prefix_of_prefix hs ht with ⟨u, rfl⟩ | ⟨u, rfl⟩
  · simp [eq_of_after_append h]
  · simp [eq_of_after_append h.symm]

end Offside.Position
