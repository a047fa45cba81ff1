import Offside.Decimal.Notation
import Offside.Program.Basic

/-!
Values. Objects are numbers of instances, so a value stays small and two variables may hold the
same object. A variable of a class type holds an unbound reference until it is assigned; a bound
reference stands for the value behind it in every question that is asked of it.
-/
namespace Offside

/-- The number of an instance. -/
abbrev ObjectId := Nat

inductive Value where
  | boolean (b : Bool)
  | number (x : Float)
  | string (s : String)
  | character (c : Char)
  | object (id : ObjectId)
  | unbound
  | bound (target : Value)
deriving DecidableEq

namespace Value

/-- The value of a variable that was declared and not yet assigned. The case of the type name does
not matter; a name that is no scalar type in any case is a class. -/
def default (typeName : String) : Value :=
  match typeName.toLower with
  | "number" => .number 0.0
  | "string" => .string ""
  | "boolean" => .boolean false
  | "char" | "character" => .character ' '
  | _ => .unbound

/-- The value behind bound references. -/
def resolved : Value → Value
  | bound target => target.resolved
  | v => v

/-- The object that a value is or refers to. -/
def object? (v : Value) : Option ObjectId :=
  match v.resolved with
  | object id => some id
  | _ => none

/-- The type names that a value may be refused for; every other one is taken for a class. -/
def isScalarType : String → Bool
  | "int" | "number" | "String" | "string" | "boolean" | "char" | "character" => true
  | _ => false

/-- The scalar types that take no number. -/
def isNonNumericScalar (typeName : String) : Bool :=
  isScalarType typeName && !(typeName == "int" || typeName == "number")

/-- Whether a parameter of the given type takes the value. A class takes every value. -/
def fits : Value → String → Bool
  | bound target, typeName => target.fits typeName
  | unbound, typeName => !isScalarType typeName
  | number _, typeName => !isNonNumericScalar typeName
  | string _, typeName => typeName == "String" || typeName == "string" || !isScalarType typeName
  | boolean _, typeName => typeName == "boolean" || !isScalarType typeName
  | character _, typeName => typeName == "char" || typeName == "character" || !isScalarType typeName
  | object _, typeName => !isScalarType typeName

/-- Sameness: numbers compare as numbers, objects by identity, and a reference is only the same as
a reference. -/
def same : Value → Value → Bool
  | boolean a, boolean b => a == b
  | number x, number y => x == y
  | string s, string t => s == t
  | character c, character d => c == d
  | object i, object j => i == j
  | unbound, unbound => true
  | bound v, bound w => v.same w
  | _, _ => false

end Value

/-- Names with their values. -/
structure Bindings where
  entries : List (String × Value)
deriving DecidableEq

namespace Bindings

def empty : Bindings := ⟨[]⟩

def get? (b : Bindings) (name : String) : Option Value := b.entries.lookup name

def has (b : Bindings) (name : String) : Bool := (b.get? name).isSome

/-- Entries with one name bound anew. -/
def replace (name : String) (v : Value) : List (String × Value) → List (String × Value)
  | [] => [(name, v)]
  | (n, w) :: rest => if n = name then (n, v) :: rest else (n, w) :: replace name v rest

/-- The bindings with one name bound anew. -/
def set (b : Bindings) (name : String) (v : Value) : Bindings := ⟨replace name v b.entries⟩

theorem lookup_replace (entries : List (String × Value)) (name n : String) (v : Value) :
    (replace name v entries).lookup n = if n = name then some v else entries.lookup n := by
  induction entries with
  | nil => by_cases hn : n = name <;> simp [replace, List.lookup_cons, hn, beq_false_of_ne]
  | cons p rest ih =>
    obtain ⟨m, w⟩ := p
    by_cases hm : m = name
    · by_cases hn : n = name <;> simp [replace, hm, hn, List.lookup_cons, beq_false_of_ne]
    · by_cases hn : n = m
      · simp [replace, hn, hm]
      · simp [replace, hm, hn, ih, List.lookup_cons, beq_false_of_ne]

theorem get?_set (b : Bindings) (name n : String) (v : Value) :
    (b.set name v).get? n = if n = name then some v else b.get? n :=
  lookup_replace b.entries name n v

end Bindings

/-- An object with its class and the values of its members. -/
structure Instance where
  cls : Class
  members : Bindings

/-- The objects of a run. None is ever removed. -/
structure Heap where
  instances : Array Instance

namespace Heap

def empty : Heap := ⟨#[]⟩

def get? (h : Heap) (id : ObjectId) : Option Instance := h.instances[id]?

/-- A new object. -/
def alloc (h : Heap) (i : Instance) : ObjectId × Heap := (h.instances.size, ⟨h.instances.push i⟩)

/-- The value of a member of an object. -/
def member? (h : Heap) (id : ObjectId) (name : String) : Option Value :=
  (h.get? id).bind fun i => i.members.get? name

/-- Gives a member of an object a new value. -/
def setMember (h : Heap) (id : ObjectId) (name : String) (v : Value) : Heap :=
  ⟨h.instances.modify id fun i => { i with members := i.members.set name v }⟩

def className (h : Heap) (id : ObjectId) : String := ((h.get? id).map (·.cls.name)).getD ""

end Heap

namespace Value

/-- The text of a value on the console. -/
def output (h : Heap) : Value → String
  | boolean b => if b then "true" else "false"
  | number x => NumberFormat.plain.write x
  | string s => s
  | character c => c.toString
  | object id => "<" ++ h.className id ++ " object>"
  | unbound => "null"
  | bound target => target.output h

/-- The type of a value as messages name it. -/
def typeName (h : Heap) : Value → String
  | boolean _ => "boolean"
  | number _ => "number"
  | string _ => "string"
  | character _ => "char"
  | object id => h.className id
  | unbound => "null"
  | bound target => target.typeName h

end Value

end Offside
