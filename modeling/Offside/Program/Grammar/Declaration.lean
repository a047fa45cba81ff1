import Offside.Program.Grammar.Statement

/-!
The grammar of declarations, classes, interfaces and whole programs. What a block declares is read
in the order of its lines and then sorted by its sort of declaration.
-/
namespace Offside.Grammar

open Rule

/-- A type and a name. They may change places where only the second is a scalar type. -/
def declaration : Rule Declaration := do
  let first ← word "type name"
  let second ← word "variable name"
  if isScalarName second && !isScalarName first then return ⟨second, first⟩
  else return ⟨first, second⟩

def parameters : Rule (List Declaration) := do
  let _ ← expect .lparen "'('"
  match ← accept .rparen with
  | some _ => return []
  | none => do
    let params ← commaSeparated declaration
    let _ ← expect .rparen "')'"
    return params

def returns : Rule (List Declaration) := do
  match ← accept .colon with
  | some _ => commaSeparated declaration
  | none => return []

/-- A line of a method or constructor body: a local variable or a statement. -/
inductive BodyLine where
  | declared (d : Declaration)
  | statement (s : Stmt)

def bodyLine : Rule BodyLine := do
  if ← startsWith .word .word then do
    let d ← declaration
    lineEnd
    return .declared d
  else return .statement (← stmt)

/-- The local variables among the lines of a body. -/
def BodyLine.locals (ls : List BodyLine) : List Declaration :=
  ls.filterMap fun
    | .declared d => some d
    | .statement _ => none

/-- The statements among the lines of a body. -/
def BodyLine.statements (ls : List BodyLine) : List Stmt :=
  ls.filterMap fun
    | .declared _ => none
    | .statement s => some s

/-- The words before a method's name: whether it is shared, and whether private. -/
def modifiers : Rule (Bool × Bool) :=
  fix fun again => do
    match ← peekKind 0 with
    | some .keyShared => do
      let _ ← next
      return (true, (← again).2)
    | some .keyPrivate => do
      let _ ← next
      return ((← again).1, true)
    | _ => return (false, false)

def method : Rule Method := do
  let (isShared, isPrivate) ← modifiers
  let name ← word "method name"
  let params ← parameters
  let returns ← returns
  lineEnd
  let body ← (do
    match ← accept .indent with
    | some _ => lines bodyLine
    | none => return [])
  return ⟨name, isShared, isPrivate, false, params, returns, BodyLine.locals body,
    .statements (BodyLine.statements body)⟩

def constructor : Rule Constructor := do
  let _ ← next
  let params ← parameters
  lineEnd
  let _ ← expect .indent "indented constructor body"
  let body ← lines bodyLine
  return ⟨params, BodyLine.locals body, BodyLine.statements body⟩

/-- A section of a member. -/
inductive MemberSection where
  | accessor (body : List Stmt)
  | mutator (body : List Stmt)

/-- The statements of a section; without an indented block there are none. -/
def sectionBody : Rule (List Stmt) := do
  let _ ← expect .colon "':'"
  lineEnd
  if (← peekKind 0) = some .indent then block stmt else return []

def memberSection : Rule MemberSection := do
  match ← peekKind 0 with
  | some .keyAccessor => do
    let _ ← next
    return .accessor (← sectionBody)
  | some .keyMutator => do
    let _ ← next
    return .mutator (← sectionBody)
  | _ => refuse "accessor or mutator"

/-- A member with one more section, which replaces an earlier one of its sort. -/
def MemberSection.addTo (m : Member) : MemberSection → Member
  | .accessor body => { m with accessor := some body }
  | .mutator body => { m with mutator := some body }

def member : Rule Member := do
  let declaration ← declaration
  lineEnd
  let sections ← (do
    match ← accept .indent with
    | some _ => lines memberSection
    | none => return [])
  return sections.foldl MemberSection.addTo ⟨declaration, none, none⟩

/-- A declaration in a class. -/
inductive Feature where
  | member (m : Member)
  | constructor (c : Constructor)
  | method (m : Method)

def feature : Rule Feature := do
  match ← peekKind 0, ← peekKind 1 with
  | some .keyConstruct, _ => return .constructor (← constructor)
  | some .keyShared, _ | some .keyPrivate, _ | some .word, some .lparen =>
    return .method (← method)
  | some .word, some .word => return .member (← member)
  | _, _ => refuse "member, method or constructor"

def Feature.members (fs : List Feature) : List Member :=
  fs.filterMap fun
    | .member m => some m
    | _ => none

def Feature.constructors (fs : List Feature) : List Constructor :=
  fs.filterMap fun
    | .constructor c => some c
    | _ => none

def Feature.methods (fs : List Feature) : List Method :=
  fs.filterMap fun
    | .method m => some m
    | _ => none

/-- A class after its keyword. -/
def classBody : Rule Class := do
  let name ← word "class name"
  let interfaces ← (do
    match ← accept .keyImplements with
    | some _ => commaSeparated (word "interface name")
    | none => return [])
  lineEnd
  let features ← (do
    match ← accept .indent with
    | some _ => lines feature
    | none => return [])
  return ⟨name, interfaces, Feature.members features, Feature.constructors features,
    Feature.methods features⟩

def signature : Rule Signature := do
  let name ← word "method name"
  let params ← parameters
  let returns ← returns
  lineEnd
  return ⟨name, params, returns⟩

/-- An interface after its keyword. -/
def interfaceBody : Rule Interface := do
  let name ← word "interface name"
  lineEnd
  let _ ← expect .indent "indented interface body"
  return ⟨name, ← lines signature⟩

/-- A declaration of a program. -/
inductive TopLevel where
  | cls (c : Class)
  | interface (i : Interface)

/-- The classes and interfaces at the head of the input. -/
def topLevel : Rule (List TopLevel) :=
  fix fun again => do
    skipNewlines
    match ← peekKind 0 with
    | some .keyClass => do
      let _ ← next
      return .cls (← classBody) :: (← again)
    | some .keyInterface => do
      let _ ← next
      return .interface (← interfaceBody) :: (← again)
    | _ => return []

def TopLevel.classes (us : List TopLevel) : List Class :=
  us.filterMap fun
    | .cls c => some c
    | .interface _ => none

def TopLevel.interfaces (us : List TopLevel) : List Interface :=
  us.filterMap fun
    | .cls _ => none
    | .interface i => some i

/-- A whole program. Dedents and newlines may be left over at its end. -/
def program : Rule Program := do
  let us ← topLevel
  skip [.dedent, .newline]
  if ← atEnd then return ⟨TopLevel.classes us, TopLevel.interfaces us⟩
  else refuse "class or interface"

end Offside.Grammar

namespace Offside

/-- The program that a token list is. -/
def Program.ofTokens (ts : List Token) : Except ParseError Program :=
  match Grammar.program ts with
  | .ok (p, _) => .ok p
  | .error r => .error (r.toError ts)

end Offside
