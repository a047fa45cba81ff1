/-!
What can go wrong when a program runs, and the words for it.
-/
namespace Offside

/-- How an iterator method can answer wrongly. -/
inductive IteratorBreach where
  | valueCount (count : Nat)
  | flagType (typeName : String)
deriving DecidableEq

def IteratorBreach.describe : IteratorBreach → String
  | valueCount count => s!"getNext returned {count} values, expected 2"
  | flagType typeName => s!"expected a boolean flag, got {typeName}"

inductive Fault where
  | noEntryPoint
  | duplicateClass (name : String)
  | undefinedVariable (name : String)
  | undefinedClass (name : String)
  | unknownMethod (method cls : String)
  | argumentCount (method : String) (expected found : Nat)
  | argumentTypes (method : String)
  | noConstructor (cls : String) (found : Nat)
  | unassignedReturn (method name : String)
  | tooManyTargets (method : String) (returned targets : Nat)
  | unsupportedOperation (operation left right : String)
  | conditionNotBoolean (typeName : String)
  | notAnObject (name typeName : String)
  | notIterable (typeName : String)
  | brokenIterator (cls : String) (breach : IteratorBreach)
  | noReturnValue (method : String)
deriving DecidableEq

def Fault.message : Fault → String
  | noEntryPoint =>
    "No entry point: expected a shared, non-private method 'start()' with no parameters"
  | duplicateClass name => s!"Duplicate class definition '{name}'"
  | undefinedVariable name => s!"Undefined variable '{name}'"
  | undefinedClass name => s!"Undefined class '{name}'"
  | unknownMethod method cls => s!"Unknown method '{method}' for class {cls}"
  | argumentCount method expected found =>
    s!"Method '{method}' expected {expected} arguments, got {found}"
  | argumentTypes method => s!"No overload of method '{method}' accepts the given argument types"
  | noConstructor cls found => s!"No constructor of class {cls} accepts {found} arguments"
  | unassignedReturn method name =>
    s!"Method '{method}' finished without a value for return variable '{name}'"
  | tooManyTargets method returned targets =>
    s!"Method '{method}' returns {returned} values, but {targets} targets were given"
  | unsupportedOperation operation left right =>
    s!"Operation '{operation}' is not supported between {left} and {right}"
  | conditionNotBoolean typeName => s!"Condition must be a boolean, got {typeName}"
  | notAnObject name typeName => s!"Variable '{name}' holds {typeName}, not an object"
  | notIterable typeName =>
    s!"Cannot loop over {typeName}: expected an iterator object or a boolean condition"
  | brokenIterator cls breach =>
    "Iterator " ++ cls ++ " broke the getNext protocol: " ++ breach.describe
  | noReturnValue method => s!"Method '{method}' has no return value to use in an expression"

end Offside
