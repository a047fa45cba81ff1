import Offside.Program.Grammar.Error

/-!
Grammar rules. A rule reads a part of a program from the head of a token list and gives the tokens
that are left, or refuses. Rules look ahead by peeking and never go back.
-/
namespace Offside

def Rule (α : Type) : Type := List Token → Except Refusal (α × List Token)

namespace Rule

instance : Monad Rule where
  pure a := fun ts => .ok (a, ts)
  bind p f := fun ts =>
    match p ts with
    | .ok (a, rest) => f a rest
    | .error r => .error r

variable {α β : Type}

@[simp] theorem pure_apply (a : α) (ts : List Token) : (pure a : Rule α) ts = .ok (a, ts) := rfl

theorem bind_apply (p : Rule α) (f : α → Rule β) (ts : List Token) :
    (p >>= f) ts = match p ts with
      | .ok (a, rest) => f a rest
      | .error r => .error r := rfl

theorem bind_of_ok {p : Rule α} {ts rest : List Token} {a : α} (h : p ts = .ok (a, rest))
    (f : α → Rule β) : (p >>= f) ts = f a rest := by
  rw [bind_apply, h]

theorem bind_of_error {p : Rule α} {ts : List Token} {r : Refusal} (h : p ts = .error r)
    (f : α → Rule β) : (p >>= f) ts = .error r := by
  rw [bind_apply, h]

/-- Refuses the token at the head. -/
def refuse (what : String) : Rule α := fun ts => .error ⟨.expected what, ts⟩

def atEnd : Rule Bool := fun ts => .ok (ts.isEmpty, ts)

/-- The token that stands `i` places after the head. -/
def peek (i : Nat) : Rule (Option Token) := fun ts => .ok (ts[i]?, ts)

def peekKind (i : Nat) : Rule (Option Kind) := fun ts => .ok (ts[i]?.map Token.kind, ts)

/-- Whether the first two tokens are of these kinds. -/
def startsWith (first second : Kind) : Rule Bool := fun ts =>
  .ok (decide (ts[0]?.map Token.kind = some first ∧ ts[1]?.map Token.kind = some second), ts)

/-- Takes the head, whatever it is. -/
def next : Rule (Option Token) := fun ts => .ok (ts.head?, ts.tail)

/-- Takes the head if it is of the given kind. -/
def accept (kind : Kind) : Rule (Option Token) := fun ts =>
  match ts with
  | t :: rest => if t.kind = kind then .ok (some t, rest) else .ok (none, ts)
  | [] => .ok (none, ts)

/-- Takes a token of the given kind, or refuses what stands there. -/
def expect (kind : Kind) (what : String) : Rule Token := fun ts =>
  match ts with
  | t :: rest => if t.kind = kind then .ok (t, rest) else .error ⟨.expected what, ts⟩
  | [] => .error ⟨.expected what, ts⟩

/-- Takes a name. -/
def word (what : String) : Rule String := Token.content <$> expect .word what

/-- Takes every token of the given kinds at the head. -/
def skip (kinds : List Kind) : Rule Unit := fun ts =>
  .ok ((), ts.dropWhile fun t => kinds.contains t.kind)

def skipNewlines : Rule Unit := skip [.newline]

/-- A line ends with newlines, or before a dedent or the end of the input. -/
def lineEnd : Rule Unit := fun ts =>
  match ts with
  | [] => .ok ((), ts)
  | t :: _ =>
    match t.kind with
    | .newline => skipNewlines ts
    | .dedent => .ok ((), ts)
    | _ => refuse "end of line" ts

/-- A block ends with a dedent, which is taken, or with the input. -/
def blockEnd : Rule Bool := fun ts =>
  match ts with
  | [] => .ok (true, ts)
  | t :: rest => if t.kind = .dedent then .ok (true, rest) else .ok (false, ts)

end Rule

end Offside
