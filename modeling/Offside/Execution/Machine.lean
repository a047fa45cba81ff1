import Offside.Execution.Context
import Offside.Execution.Frame
import Offside.Execution.Overload

/-!
The world of a run: its objects, the lines on its console, and a journal of the bodies it entered.
A computation ends with a value, with a fault, or because its budget ran out; the world is kept in
every case.
-/
namespace Offside

/-- What made a method start, with the class whose code was running. -/
inductive Route where
  /-- The run itself. -/
  | entry
  /-- A call expression or call statement. -/
  | call (standing : Standing) (caller : Class)
  /-- A loop that asks its iterator. -/
  | iterator (caller : Class)
  /-- The making of a new object. -/
  | construction (caller : Class)

/-- A body that was entered, with the count of its arguments. -/
inductive Event where
  | invoked (route : Route) (cls : Class) (method : Method) (argCount : Nat)
  | constructed (caller cls : Class) (constructor : Constructor) (argCount : Nat)

structure World where
  heap : Heap
  console : Array String
  /-- The latest event is first. -/
  journal : List Event

def World.start : World := ⟨.empty, #[], []⟩

/-- Why a computation stopped without a value. -/
inductive Halt where
  | fault (f : Fault)
  | exhausted
deriving DecidableEq

abbrev Machine := EStateM Halt World

namespace Machine

variable {α : Type}

def fail (f : Fault) : Machine α := throw (.fault f)

def ofExcept : Except Fault α → Machine α
  | .ok a => pure a
  | .error f => fail f

def heap : Machine Heap := return (← get).heap

def record (e : Event) : Machine PUnit := modify fun w => { w with journal := e :: w.journal }

/-- Writes the values as one line, with blanks between them. -/
def writeLine (vs : List Value) : Machine PUnit :=
  modify fun w => { w with console := w.console.push (" ".intercalate (vs.map (·.output w.heap))) }

/-- Makes a new object. -/
def allocate (i : Instance) : Machine ObjectId :=
  modifyGet fun w =>
    let (id, heap) := w.heap.alloc i
    (id, { w with heap })

def write (f : Frame) (name : String) (v : Value) (slot : Slot) : Machine Frame :=
  modifyGet fun w =>
    let (f, heap) := f.write w.heap name v slot
    (f, { w with heap })

/-- An assignment. -/
def store (f : Frame) (name : String) (v : Value) : Machine Frame := do
  match f.slot? (← heap) name with
  | some slot => write f name v slot
  | none => fail (.undefinedVariable name)

/-- Gives a loop's variable, if it has one, its next value. -/
def storeItem (f : Frame) (v : Value) : Option String → Machine Frame
  | some name => do write f name v (f.itemSlot (← heap) name)
  | none => pure f

/-- The boolean that a condition must be. -/
def condition (v : Value) : Machine Bool := do
  match v.resolved with
  | .boolean b => return b
  | other => fail (.conditionNotBoolean (other.typeName (← heap)))

end Machine

end Offside
