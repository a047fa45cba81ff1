import Offside.Program.Grammar.Expression

/-!
The grammar of statements. A name followed by an assignment mark starts a call statement if a call
without receiver follows, and an assignment otherwise; a loop or a branch holds an indented block.
-/
namespace Offside.Grammar

open Rule

/-- An indented block of items. -/
def block {α : Type} (item : Rule α) : Rule (List α) := do
  let _ ← expect .indent "indented block"
  lines item

def assignment : Rule Stmt := do
  let target ← word "variable name"
  let _ ← expect .assign "'='"
  let value ← expr
  lineEnd
  return .assign target value

/-- The targets of a call statement that are followed by a comma. -/
def commaTargets : Rule (List String) :=
  fix fun again => do
    if ← startsWith .word .comma then do
      let target ← word "variable name"
      let _ ← next
      return target :: (← again)
    else return []

/-- The targets of a call statement; the last is followed by an assignment mark. -/
def targets : Rule (List String) := do
  let first ← commaTargets
  if ← startsWith .word .assign then do
    let target ← word "variable name"
    let _ ← next
    return first ++ [target]
  else if first.isEmpty then return []
  else refuse "variable name followed by '='"

def callStatement : Rule Stmt := do
  let names ← targets
  let target ← call expr
  lineEnd
  return .call names target

def loop (stmt : Rule Stmt) : Rule Stmt := do
  let _ ← next
  let item ← (do
    if ← startsWith .word .assign then do
      let name ← word "loop variable"
      let _ ← next
      return some name
    else return none)
  let source ← expr
  lineEnd
  return .loop item source (← block stmt)

def branch (stmt : Rule Stmt) : Rule Stmt := do
  let _ ← next
  let condition ← expr
  lineEnd
  let thenBody ← block stmt
  match ← accept .keyElse with
  | none => return .branch condition thenBody none
  | some _ => do
    if (← peekKind 0) = some .keyIf then return .branch condition thenBody (some [← stmt])
    else do
      lineEnd
      return .branch condition thenBody (some (← block stmt))

/-- A statement whose blocks hold statements of the given rule. -/
def stmtWith (stmt : Rule Stmt) : Rule Stmt := do
  match ← peekKind 0 with
  | some .keyLoop => loop stmt
  | some .keyIf => branch stmt
  | some .word => do
    match ← peekKind 1, ← peekKind 2, ← peekKind 3 with
    | some .assign, some .word, some .lparen => callStatement
    | some .assign, _, _ => assignment
    | some .comma, _, _ | some .dot, _, _ | some .lparen, _, _ => callStatement
    | _, _, _ => refuse "statement"
  | _ => refuse "statement"

def stmt : Rule Stmt := fix stmtWith

end Offside.Grammar
