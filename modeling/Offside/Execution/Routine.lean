import Offside.Execution.Machine

/-!
Computations of one body. They have the body's frame at hand, to read and to write, besides the
world of the run. What the machine does by itself it does without the frame; a body that is entered
gets a frame of its own.
-/
namespace Offside

/-- A world, with the frame of the body that runs in it. -/
structure Activation where
  frame : Frame
  world : World

/-- A computation that may change the frame. The frame is kept, as the world is, however the
computation ends. -/
abbrev Routine := EStateM Halt Activation

namespace Routine

variable {α : Type}

/-- What the machine does, which has no access to the frame. -/
def lift (x : Machine α) : Routine α
  | ⟨f, w⟩ =>
    match x w with
    | .ok v w' => .ok v ⟨f, w'⟩
    | .error e w' => .error e ⟨f, w'⟩

instance : MonadLift Machine Routine := ⟨lift⟩

def frame : Routine Frame
  | ⟨f, w⟩ => .ok f ⟨f, w⟩

/-- Puts another frame in the place of the frame. -/
def update (change : Frame → Machine Frame) : Routine PUnit
  | ⟨f, w⟩ =>
    match change f w with
    | .ok f' w' => .ok ⟨⟩ ⟨f', w'⟩
    | .error e w' => .error e ⟨f, w'⟩

/-- An assignment. -/
def store (name : String) (v : Value) : Routine PUnit := update fun f => Machine.store f name v

/-- Gives a loop's variable, if it has one, its next value. -/
def storeItem (v : Value) (item : Option String) : Routine PUnit :=
  update fun f => Machine.storeItem f v item

/-- Runs a routine from a frame of its own, for the frame at its end. -/
def frameFrom (x : Routine α) (f : Frame) : Machine Frame := fun w =>
  match x ⟨f, w⟩ with
  | .ok _ ⟨f', w'⟩ => .ok f' w'
  | .error e ⟨_, w'⟩ => .error e w'

end Routine

end Offside
