import Offside.Execution.Fault
import Offside.Execution.Value

/-!
Which method a call reaches, and which constructor a new object runs. Of the methods that have the
name and that the caller may use, the first that takes the arguments is called.
-/
namespace Offside

/-- How a call names its method, and so which methods it may use. -/
inductive Standing where
  /-- Without a receiver, from inside the class. -/
  | own
  /-- On an object. -/
  | object
  /-- On a class. -/
  | shared
deriving DecidableEq

def Standing.admits : Standing → Method → Bool
  | own, _ => true
  | object, m => !m.isPrivate
  | shared, m => m.isShared && !m.isPrivate

/-- Whether arguments fit parameters one by one. -/
def allFit (params : List Declaration) (args : List Value) : Bool :=
  (params.zip args).all fun (p, v) => v.fits p.typeName

def Method.takes (m : Method) (args : List Value) : Bool :=
  m.isVariadic || (m.params.length == args.length && allFit m.params args)

def Constructor.takes (c : Constructor) (args : List Value) : Bool :=
  c.params.length == args.length && allFit c.params args

namespace Class

/-- The methods of a name that a call may use. -/
def candidates (c : Class) (standing : Standing) (name : String) : List Method :=
  c.methods.filter fun m => m.name == name && standing.admits m

/-- The method that a call reaches. -/
def resolve (c : Class) (standing : Standing) (name : String) (args : List Value) :
    Except Fault Method :=
  match c.candidates standing name with
  | [] => .error (.unknownMethod name c.name)
  | first :: others =>
    match (first :: others).find? (·.takes args) with
    | some m => .ok m
    | none =>
      if (first :: others).all (·.params.length != args.length) then
        .error (.argumentCount name first.params.length args.length)
      else .error (.argumentTypes name)

/-- The constructor for the arguments: the first that takes them, else the first with as many
parameters. -/
def constructor? (c : Class) (args : List Value) : Option Constructor :=
  (c.constructors.find? (·.takes args)).or
    (c.constructors.find? (·.params.length == args.length))

/-- The method that a new object also calls: the first with a body of statements and as many
parameters as there are arguments. -/
def constructionMethod? (c : Class) (args : List Value) : Option Method :=
  c.methods.find? fun m => m.hasStatements && m.params.length == args.length

end Class

end Offside
