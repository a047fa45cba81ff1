import Offside.Proofs.Execution.Code

/-!
The console is only written to. Lines that stand on it when a computation starts stay there, in
front of what the computation writes, and change nothing else: not how it ends, not the frames it
gives, not the objects it leaves. The machine's effects have this property, so code has it if its
tasks do, and one induction on the budget gives it to every evaluation.
-/
namespace Offside

/-- The world with these lines in front of its console. -/
def World.behind (lines : Array String) (w : World) : World :=
  { w with console := lines ++ w.console }

/-- The world with nothing on its console. -/
def World.silent (w : World) : World := { w with console := #[] }

theorem World.behind_silent (w : World) : w.silent.behind w.console = w := by
  simp only [behind, silent, Array.append_empty]

namespace Machine

variable {α β : Type}

/-- The same end of a computation, with these lines in front of what it has written. -/
def Result.behind (lines : Array String) :
    EStateM.Result Halt World α → EStateM.Result Halt World α
  | .ok a w => .ok a (w.behind lines)
  | .error e w => .error e (w.behind lines)

/-- Earlier lines on the console change nothing but the console. -/
def Blind (x : Machine α) : Prop :=
  ∀ (lines : Array String) (w : World), x (w.behind lines) = Result.behind lines (x w)

namespace Blind

theorem pure (a : α) : Blind (Pure.pure a) := fun _ _ => rfl

theorem throw (e : Halt) : Blind (throw e : Machine α) := fun _ _ => rfl

theorem bind {x : Machine α} {k : α → Machine β} (hx : Blind x) (hk : ∀ a, Blind (k a)) :
    Blind (x >>= k) := by
  intro lines w
  have hstart := hx lines w
  cases hrun : x w with
  | ok a w' =>
    rw [hrun] at hstart
    rw [bind_ok hstart, bind_ok hrun, hk a lines w']
  | error e w' =>
    rw [hrun] at hstart
    rw [bind_error hstart, bind_error hrun]
    rfl

/-- No effect reads the console. -/
theorem effect (x : Effect) : Blind (modifyGet x.apply) := by
  intro lines w
  cases x with
  | writeLine vs =>
    show EStateM.Result.ok _ _ = EStateM.Result.ok _ _
    simp only [World.behind, Array.append_push]
  | _ => rfl

/-- The computation with the lines of a world on the console, against the same one without. -/
theorem from_silent {x : Machine α} (hx : Blind x) (w : World) :
    x w = Result.behind w.console (x w.silent) := by
  rw [← hx, World.behind_silent]

end Blind

end Machine

open Machine

theorem Code.blind_run {answer : (t : Task) → Machine t.Answer} (h : ∀ t, Blind (answer t))
    {α : Type} (c : Code α) : Blind (c.run answer) := by
  induction c with
  | done a => exact .pure a
  | halt e => exact .throw e
  | effect x k ih => exact (Blind.effect x).bind ih
  | task t k ih => exact (h t).bind ih

theorem Task.blind_run (s : Setup) (n : Nat) (t : Task) : Blind (t.run s n) := by
  induction n generalizing t with
  | zero =>
    rw [t.run_zero]
    exact .throw _
  | succ n ih =>
    rw [t.run_succ]
    exact Code.blind_run ih _

/-- A block, an expression, a call, a construction and a method end in the same way, with the same
frames and objects, whether or not there are lines on the console; and these lines then stand in
front of those that are written. -/
theorem console_unread (s : Setup) (n : Nat) (w : World) :
    (∀ f body, execBlock s n f body w =
      Result.behind w.console (execBlock s n f body w.silent)) ∧
    (∀ f e, evalExpr s n f e w = Result.behind w.console (evalExpr s n f e w.silent)) ∧
    (∀ f c, evalCall s n f c w = Result.behind w.console (evalCall s n f c w.silent)) ∧
    (∀ f name args, construct s n f name args w =
      Result.behind w.console (construct s n f name args w.silent)) ∧
    ∀ route cls m this args, invoke s n route cls m this args w =
      Result.behind w.console (invoke s n route cls m this args w.silent) := by
  refine ⟨fun f body => ?_, fun f e => ?_, fun f c => ?_, fun f name args => ?_,
    fun route cls m this args => ?_⟩
  · have hblock := Code.blind_run (Task.blind_run s n) (.stmts f body)
    rw [Code.run_stmts] at hblock
    exact hblock.from_silent w
  · exact (Task.blind_run s n (.expr f e)).from_silent w
  · exact (Task.blind_run s n (.call f c)).from_silent w
  · exact (Task.blind_run s n (.construct f name args)).from_silent w
  · exact (Task.blind_run s n (.invoke route cls m this args)).from_silent w

end Offside
