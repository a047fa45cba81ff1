import Offside.Proofs.Execution.Budget
import Offside.Proofs.Execution.Passage

/-!
How evaluations end if their budget does not matter. A computation settles on an ending if some
budget brings it there; more of it then changes nothing, so there is one ending at most. Endings
follow the code of tasks without any count of steps: a task ends as its code does
(`Code.ends_ask_iff`), and code that goes on after other code ends where the second part does, or
where the first part fails (`Code.ends_bind`).
-/
namespace Offside

variable {α β : Type}

/-- The end of a computation that had budget enough. -/
inductive Ending (α : Type) where
  | success (a : α) (w : World)
  | failure (f : Fault) (w : World)

def Ending.result : Ending α → EStateM.Result Halt World α
  | success a w => .ok a w
  | failure f w => .error (.fault f) w

namespace Ending

theorem result_injective : Function.Injective (result (α := α)) := by
  intro e e' h
  cases e <;> cases e' <;> cases h <;> rfl

theorem result_ne_exhausted (e : Ending α) (w : World) : e.result ≠ .error .exhausted w := by
  cases e <;> simp [result]

end Ending

/-- Some budget brings the computation to this end. -/
def Settles (x : Nat → Machine α) (w : World) (e : Ending α) : Prop := ∃ n, x n w = e.result

/-- No budget is enough for the computation. -/
def Diverges (x : Nat → Machine α) (w : World) : Prop := ∀ n, (x n).Exhausts w

theorem Machine.not_exhausts_of_eq {x : Machine α} {w : World} {e : Ending α}
    (h : x w = e.result) : ¬ x.Exhausts w := by
  rintro ⟨w', hrun⟩
  exact e.result_ne_exhausted w' (h.symm.trans hrun)

/-- A computation diverges if it settles on nothing. -/
theorem diverges_iff {x : Nat → Machine α} {w : World} :
    Diverges x w ↔ ∀ e, ¬ Settles x w e := by
  constructor
  · rintro hx e ⟨n, hn⟩
    exact Machine.not_exhausts_of_eq hn (hx n)
  · intro hx n
    cases hrun : x n w with
    | ok a w' => exact absurd ⟨n, hrun⟩ (hx (.success a w'))
    | error e w' =>
      cases e with
      | fault f => exact absurd ⟨n, hrun⟩ (hx (.failure f w'))
      | exhausted => exact ⟨w', hrun⟩

namespace Code

variable {s : Setup} {c : Code α} {k k' : α → Code β} {w w' : World}

/-- The code comes to this end, if it has budget enough. -/
def Ends (s : Setup) (c : Code α) (w : World) (e : Ending α) : Prop :=
  Settles (fun n => c.run (Task.run s n)) w e

theorem run_eq_of_le {n m : Nat} {e : Ending α} (h : c.run (Task.run s n) w = e.result)
    (hle : n ≤ m) : c.run (Task.run s m) w = e.result := by
  rw [run_eq_of_not_exhausts (fun t w ht => Task.run_eq_of_le ht hle) c
    (Machine.not_exhausts_of_eq h), h]

/-- There is no other end. -/
theorem Ends.unique {e e' : Ending α} (h : c.Ends s w e) (h' : c.Ends s w e') : e = e' := by
  obtain ⟨n, hn⟩ := h
  obtain ⟨m, hm⟩ := h'
  have hleft := run_eq_of_le hn (Nat.le_max_left n m)
  have hright := run_eq_of_le hm (Nat.le_max_right n m)
  exact Ending.result_injective (hleft.symm.trans hright)

theorem ends_pure {a : α} {e : Ending α} : (pure a : Code α).Ends s w e ↔ e = .success a w := by
  constructor
  · rintro ⟨n, hn⟩
    exact Ending.result_injective hn.symm
  · rintro rfl
    exact ⟨0, rfl⟩

/-- Code after code ends where the second part does, or where the first part fails. -/
theorem ends_bind {e : Ending β} :
    (c >>= k).Ends s w e ↔
      (∃ a w₁, c.Ends s w (.success a w₁) ∧ (k a).Ends s w₁ e) ∨
        ∃ f w₁, c.Ends s w (.failure f w₁) ∧ e = .failure f w₁ := by
  constructor
  · rintro ⟨n, hn⟩
    simp only [run_bind] at hn
    cases hrun : c.run (Task.run s n) w with
    | ok a w₁ =>
      rw [Machine.bind_ok hrun] at hn
      exact .inl ⟨a, w₁, ⟨n, hrun⟩, n, hn⟩
    | error halt w₁ =>
      rw [Machine.bind_error hrun] at hn
      cases halt with
      | fault f => exact .inr ⟨f, w₁, ⟨n, hrun⟩, Ending.result_injective hn.symm⟩
      | exhausted => exact absurd hn.symm (e.result_ne_exhausted w₁)
  · rintro (⟨a, w₁, ⟨n, hn⟩, m, hm⟩ | ⟨f, w₁, ⟨n, hn⟩, rfl⟩)
    · refine ⟨max n m, ?_⟩
      simp only [run_bind]
      rw [Machine.bind_ok (run_eq_of_le hn (Nat.le_max_left n m))]
      exact run_eq_of_le hm (Nat.le_max_right n m)
    · refine ⟨n, ?_⟩
      simp only [run_bind]
      exact Machine.bind_error hn

theorem ends_bind_success {b : β} :
    (c >>= k).Ends s w (.success b w') ↔
      ∃ a w₁, c.Ends s w (.success a w₁) ∧ (k a).Ends s w₁ (.success b w') := by
  rw [ends_bind]
  simp

/-- After a success, code after code ends as the second part does. -/
theorem Ends.bind_iff {a : α} {w₁ : World} (h : c.Ends s w (.success a w₁)) {e : Ending β} :
    (c >>= k).Ends s w e ↔ (k a).Ends s w₁ e := by
  rw [ends_bind]
  constructor
  · rintro (⟨a', w₂, hc, hk⟩ | ⟨f, w₂, hc, -⟩)
    · cases h.unique hc
      exact hk
    · cases h.unique hc
  · exact fun hk => .inl ⟨a, w₁, h, hk⟩

/-- Only the ends of the first part count for what comes after it. -/
theorem ends_bind_congr {e : Ending β}
    (h : ∀ a w₁, c.Ends s w (.success a w₁) → ((k a).Ends s w₁ e ↔ (k' a).Ends s w₁ e)) :
    (c >>= k).Ends s w e ↔ (c >>= k').Ends s w e := by
  rw [ends_bind, ends_bind]
  refine or_congr_left (exists_congr fun a => exists_congr fun w₁ => ?_)
  exact and_congr_right fun ha => h a w₁ ha

/-- A task ends as its code does. -/
theorem ends_code (t : Task) {e : Ending t.Answer} :
    (t.code s).Ends s w e ↔ Settles (fun n => t.run s n) w e := by
  constructor
  · rintro ⟨n, hn⟩
    refine ⟨n + 1, ?_⟩
    show t.run s (n + 1) w = _
    rw [t.run_succ]
    exact hn
  · rintro ⟨n, hn⟩
    change t.run s n w = _ at hn
    cases n with
    | zero =>
      rw [t.run_zero] at hn
      exact absurd hn.symm (e.result_ne_exhausted w)
    | succ n =>
      rw [t.run_succ] at hn
      exact ⟨n, hn⟩

theorem ends_ask (t : Task) {e : Ending t.Answer} :
    (ask t).Ends s w e ↔ Settles (fun n => t.run s n) w e := by
  simp only [Ends, run_ask]

theorem ends_ask_iff (t : Task) {e : Ending t.Answer} :
    (ask t).Ends s w e ↔ (t.code s).Ends s w e :=
  (ends_ask t).trans (ends_code t).symm

theorem ends_stmts (f : Frame) (body : List Stmt) {e : Ending Frame} :
    (stmts f body).Ends s w e ↔ Settles (fun n => execBlock s n f body) w e := by
  simp only [Ends, run_stmts, execBlock]

end Code

end Offside
