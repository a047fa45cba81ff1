import Offside.Execution.Fault
import Offside.Program.Basic

/-!
The classes that a run can reach: those of the program in order, then the console. No two have one
name.
-/
namespace Offside

/-- The built-in class: one shared method that takes any arguments and writes them as a line. -/
def consoleClass : Class :=
  { name := "console"
    interfaces := []
    members := []
    constructors := []
    methods :=
      [{ name := "write"
         isShared := true
         isPrivate := false
         isVariadic := true
         params := []
         returns := []
         locals := []
         body := .consoleWrite }] }

structure Context where
  classes : List Class

namespace Context

/-- The first class whose name an earlier class has. -/
def duplicate? (seen : List String) : List Class → Option String
  | [] => none
  | c :: rest => if seen.contains c.name then some c.name else duplicate? (c.name :: seen) rest

def ofProgram (p : Program) : Except Fault Context :=
  let classes := p.classes ++ [consoleClass]
  match duplicate? [] classes with
  | some name => .error (.duplicateClass name)
  | none => .ok ⟨classes⟩

def find? (ctx : Context) (name : String) : Option Class := ctx.classes.find? (·.name == name)

/-- The class and method that a run starts with: the first entry method of the first class that
has one. -/
def entry? (ctx : Context) : Option (Class × Method) :=
  ctx.classes.findSome? fun c => (c.methods.find? Method.isEntry).map fun m => (c, m)

end Context

end Offside
