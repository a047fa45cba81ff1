import Offside.Program.Grammar.Rule

/-!
Recursive rules. A rule that may use itself on what is left is unrolled as often as the input has
tokens. If it takes a token before each use of itself, and never gives one back, it is guarded, and
then the unrolled rule satisfies its own equation (`fix_eq`): the count of rounds does not show.
-/
namespace Offside.Rule

variable {α : Type}

/-- A recursive rule, unrolled a number of times. -/
def unroll (f : Rule α → Rule α) : Nat → Rule α
  | 0 => refuse "token"
  | n + 1 => f (unroll f n)

/-- The rule that may use itself as `f` says. -/
def fix (f : Rule α → Rule α) : Rule α := fun ts => unroll f (ts.length + 1) ts

/-- What the rule leaves is an end of what it was given. -/
def LeavesSuffix (p : Rule α) : Prop :=
  ∀ ts rest a, p ts = .ok (a, rest) → rest <:+ ts

/-- Two rules that give no tokens back and agree on every list shorter than `n`. -/
structure Alike (n : Nat) (p q : Rule α) : Prop where
  left : LeavesSuffix p
  right : LeavesSuffix q
  agree : ∀ ts : List Token, ts.length < n → p ts = q ts

/-- A rule that uses its argument only on lists shorter than its own. -/
def Guarded (f : Rule α → Rule α) : Prop := ∀ n p q, Alike n p q → Alike (n + 1) (f p) (f q)

theorem Alike.refl {p : Rule α} (h : LeavesSuffix p) (n : Nat) : Alike n p p :=
  ⟨h, h, fun _ _ => rfl⟩

theorem Guarded.leaves {f : Rule α → Rule α} (hf : Guarded f) (p : Rule α)
    (hp : LeavesSuffix p) : LeavesSuffix (f p) := (hf 0 p p (Alike.refl hp 0)).left

theorem unroll_leaves {f : Rule α → Rule α} (hf : ∀ p, LeavesSuffix p → LeavesSuffix (f p))
    (n : Nat) : LeavesSuffix (unroll f n) := by
  induction n with
  | zero =>
    intro ts rest a h
    cases h
  | succ n ih => exact hf _ ih

theorem fix_leaves {f : Rule α → Rule α} (hf : ∀ p, LeavesSuffix p → LeavesSuffix (f p)) :
    LeavesSuffix (fix f) := fun ts => unroll_leaves hf (ts.length + 1) ts

theorem unroll_alike {f : Rule α → Rule α} (hf : Guarded f) (n m : Nat) :
    Alike (min n m) (unroll f n) (unroll f m) := by
  induction n generalizing m with
  | zero =>
    refine ⟨unroll_leaves hf.leaves 0, unroll_leaves hf.leaves m, fun ts h => ?_⟩
    omega
  | succ n ih =>
    cases m with
    | zero =>
      refine ⟨unroll_leaves hf.leaves (n + 1), unroll_leaves hf.leaves 0, fun ts h => ?_⟩
      omega
    | succ m =>
      rw [Nat.succ_min_succ]
      exact hf _ _ _ (ih m)

theorem unroll_alike_fix {f : Rule α → Rule α} (hf : Guarded f) (n : Nat) :
    Alike n (unroll f n) (fix f) := by
  refine ⟨unroll_leaves hf.leaves n, fix_leaves hf.leaves, fun ts h => ?_⟩
  refine (unroll_alike hf n (ts.length + 1)).agree ts ?_
  omega

/-- A guarded rule is what its equation says. -/
theorem fix_eq {f : Rule α → Rule α} (hf : Guarded f) : fix f = f (fix f) := by
  funext ts
  exact (hf _ _ _ (unroll_alike_fix hf ts.length)).agree ts (Nat.lt_succ_self _)

/-- Items separated by commas, at least one. -/
def commaSeparated (item : Rule α) : Rule (List α) :=
  fix fun again => do
    let first ← item
    match ← accept .comma with
    | some _ => return first :: (← again)
    | none => return [first]

/-- The items of an indented block, one or more lines each, up to its end. -/
def lines (item : Rule α) : Rule (List α) :=
  fix fun again => do
    skipNewlines
    if ← blockEnd then return []
    else return (← item) :: (← again)

/-- Operators with the operands after them, as many as there are. -/
def operations {ω : Type} (op : Kind → Option ω) (operand : Rule α) : Rule (List (ω × α)) :=
  fix fun again => do
    match (← peekKind 0).bind op with
    | none => return []
    | some o => do
      let _ ← next
      return (o, ← operand) :: (← again)

/-- Operands joined by operators of one rank, folded from the left. -/
def chain {ω : Type} (op : Kind → Option ω) (join : ω → α → α → α) (operand : Rule α) : Rule α := do
  let first ← operand
  let more ← operations op operand
  return more.foldl (fun left step => join step.1 left step.2) first

end Offside.Rule
