import Offside.Proofs.Execution.Scope

/-!
Budgets. A computation that ends before its budget does ends in the same way with a larger budget:
code asks for the same tasks, and gets the same answers. So a program whose run ends with some
budget has one outcome with every budget from there on.
-/
namespace Offside

/-- The computation stops because its budget is used up. -/
def Machine.Exhausts {α : Type} (x : Machine α) (w : World) : Prop :=
  ∃ w', x w = .error .exhausted w'

namespace Code

variable {α : Type} {answer answer' : (t : Task) → Machine t.Answer}

theorem not_exhausts_of_task {t : Task} {k : t.Answer → Code α} {w : World}
    (h : ¬ ((task t k).run answer).Exhausts w) : ¬ (answer t).Exhausts w := by
  rintro ⟨w', hrun⟩
  exact h ⟨w', Machine.bind_error hrun⟩

/-- Code that does not use up the budget ends in the same way if its tasks have more of it. -/
theorem run_eq_of_not_exhausts (hmore : ∀ t w, ¬ (answer t).Exhausts w → answer' t w = answer t w)
    (c : Code α) {w : World} (h : ¬ (c.run answer).Exhausts w) :
    c.run answer' w = c.run answer w := by
  induction c generalizing w with
  | done | halt => rfl
  | effect x k ih => exact ih (x.apply w).1 (w := (x.apply w).2) h
  | task t k ih =>
    have heq := hmore t w (not_exhausts_of_task h)
    cases hrun : answer t w with
    | error e w' =>
      rw [run, run, Machine.bind_error hrun, Machine.bind_error (heq.trans hrun)]
    | ok a w' =>
      have hrest : ¬ ((k a).run answer).Exhausts w' := by
        rintro ⟨w'', hk⟩
        exact h ⟨w'', (Machine.bind_ok hrun).trans hk⟩
      rw [run, run, Machine.bind_ok hrun, Machine.bind_ok (heq.trans hrun), ih a hrest]

end Code

namespace Task

theorem run_succ_eq {s : Setup} {n : Nat} {t : Task} {w : World}
    (h : ¬ (t.run s n).Exhausts w) : t.run s (n + 1) w = t.run s n w := by
  induction n generalizing t w with
  | zero => exact absurd ⟨w, by rw [t.run_zero]; rfl⟩ h
  | succ n ih =>
    rw [t.run_succ] at h
    rw [t.run_succ, t.run_succ]
    exact Code.run_eq_of_not_exhausts (fun _ _ => ih) _ h

/-- A task that ends with some budget ends in the same way with every larger one. -/
theorem run_eq_of_le {s : Setup} {n m : Nat} {t : Task} {w : World}
    (h : ¬ (t.run s n).Exhausts w) (hle : n ≤ m) : t.run s m w = t.run s n w := by
  induction hle with
  | refl => rfl
  | @step m _ ih =>
    have hm : ¬ (t.run s m).Exhausts w := by
      rintro ⟨w', hrun⟩
      exact h ⟨w', ih ▸ hrun⟩
    rw [run_succ_eq hm, ih]

end Task

/-- The outcome of a run whose entry method ends like this. -/
def Outcome.ofResult {α : Type} : EStateM.Result Halt World α → Outcome
  | .ok _ w => .finished w.console.toList
  | .error (.fault f) _ => .failed f
  | .error .exhausted _ => .exhausted

theorem Outcome.ofResult_eq_exhausted_iff {α : Type} {x : Machine α} {w : World} :
    ofResult (x w) = .exhausted ↔ x.Exhausts w := by
  unfold Machine.Exhausts
  cases x w with
  | ok a w' => simp [ofResult]
  | error e w' => cases e <;> simp [ofResult]

namespace Setup

variable {s : Setup}

theorem outcome_start (s : Setup) (budget : Nat) :
    (s.start budget).1 = .ofResult (s.main budget .start) := by
  unfold start EStateM.run
  cases s.main budget .start with
  | ok => rfl
  | error e => cases e <;> rfl

theorem outcome_of_none (h : s.context.entry? = none) (budget : Nat) :
    (s.start budget).1 = .failed .noEntryPoint := by
  rw [outcome_start, main, h]
  rfl

/-- A run that finds its entry method ends as this method ends. -/
theorem outcome_of_entry {cls : Class} {m : Method} (h : s.context.entry? = some (cls, m))
    (budget : Nat) :
    (s.start budget).1 =
      .ofResult ((Task.invoke .entry cls m none []).run s budget .start) := by
  rw [outcome_start, main, h]
  cases hrun : (Task.invoke .entry cls m none []).run s budget .start with
  | ok vs w => exact congrArg Outcome.ofResult (Machine.bind_ok hrun)
  | error e w =>
    refine (congrArg Outcome.ofResult (Machine.bind_error hrun)).trans ?_
    cases e <;> rfl

/-- A run that ends with some budget has the same outcome with every larger one. -/
theorem outcome_eq_of_le {n m : Nat} (h : (s.start n).1 ≠ .exhausted) (hle : n ≤ m) :
    (s.start m).1 = (s.start n).1 := by
  cases hentry : s.context.entry? with
  | none => rw [outcome_of_none hentry, outcome_of_none hentry]
  | some entry =>
    obtain ⟨cls, method⟩ := entry
    rw [outcome_of_entry hentry] at h
    rw [outcome_of_entry hentry, outcome_of_entry hentry,
      Task.run_eq_of_le (mt Outcome.ofResult_eq_exhausted_iff.2 h) hle]

end Setup

theorem Program.outcome_eq_of_le {p : Program} {constructionCall : Bool} {n m : Nat}
    (h : p.outcome constructionCall n ≠ .exhausted) (hle : n ≤ m) :
    p.outcome constructionCall m = p.outcome constructionCall n := by
  unfold outcome at h ⊢
  split at h
  · rfl
  · exact Setup.outcome_eq_of_le h hle

end Offside
