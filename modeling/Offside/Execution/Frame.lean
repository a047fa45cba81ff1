import Offside.Execution.Value

/-!
The variables of one running method or constructor. Names are read from the locals first and then
from the current object, but written to the current object first.
-/
namespace Offside

structure Frame where
  cls : Class
  /-- The current object; a shared call has none. -/
  this : Option ObjectId
  locals : Bindings
  /-- The return variables. They become locals when they are first assigned. -/
  returns : List String

/-- Where a name is written. -/
inductive Slot where
  | member (owner : ObjectId)
  | localVariable
deriving DecidableEq

namespace Frame

/-- Locals that hold the arguments under the parameters' names, and the defaults of the declared
variables that no parameter names. -/
def bind (params : List Declaration) (args : List Value) (locals : List Declaration) : Bindings :=
  let bound := (params.zip args).foldl (fun b (p, v) => b.set p.name v) Bindings.empty
  locals.foldl (fun b d => if b.has d.name then b else b.set d.name (.default d.typeName)) bound

def load? (f : Frame) (h : Heap) (name : String) : Option Value :=
  (f.locals.get? name).or (f.this.bind fun id => h.member? id name)

/-- The current object, if it has a member of this name. -/
def owner? (f : Frame) (h : Heap) (name : String) : Option ObjectId :=
  f.this.filter fun id => (h.member? id name).isSome

/-- Where an assignment to a name goes. -/
def slot? (f : Frame) (h : Heap) (name : String) : Option Slot :=
  match f.owner? h name with
  | some id => some (.member id)
  | none => if f.locals.has name || f.returns.contains name then some .localVariable else none

/-- Where a loop puts its item: a name that is no member becomes a local. -/
def itemSlot (f : Frame) (h : Heap) (name : String) : Slot :=
  match f.owner? h name with
  | some id => .member id
  | none => .localVariable

/-- Writes a value. -/
def write (f : Frame) (h : Heap) (name : String) (v : Value) : Slot → Frame × Heap
  | .member id => (f, h.setMember id name v)
  | .localVariable => ({ f with locals := f.locals.set name v }, h)

end Frame

end Offside
