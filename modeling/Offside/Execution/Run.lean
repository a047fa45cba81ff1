import Offside.Execution.Evaluate

/-!
Runs of a program from its entry point. The console's lines, joined by line feeds, are the output
of a run that succeeds; a run that fails has none.
-/
namespace Offside

/-- How a run ends. -/
inductive Outcome where
  | finished (lines : List String)
  | failed (f : Fault)
  | exhausted
deriving DecidableEq

namespace Setup

def ofProgram (p : Program) (constructionCall : Bool) : Except Fault Setup := do
  return ⟨← Context.ofProgram p, constructionCall⟩

/-- Starts the entry method. -/
def main (s : Setup) (budget : Nat) : Machine PUnit := do
  match s.context.entry? with
  | none => Machine.fail .noEntryPoint
  | some (cls, m) => do
    let _ ← invoke s budget .entry cls m none []

/-- A run from the start, with the world it leaves. -/
def start (s : Setup) (budget : Nat) : Outcome × World :=
  match (s.main budget).run .start with
  | .ok _ w => (.finished w.console.toList, w)
  | .error (.fault f) w => (.failed f, w)
  | .error .exhausted w => (.exhausted, w)

end Setup

/-- The text of the console's lines. -/
def outputText (lines : List String) : String := "\n".intercalate lines

/-- A budget that no run within reach uses up. -/
def ampleBudget : Nat := Nat.pow 2 62

end Offside
