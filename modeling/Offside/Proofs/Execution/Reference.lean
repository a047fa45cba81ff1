import Offside.Execution.Value
import Offside.Proofs.Program.Shape

/-!
References are transparent. A value is what it resolves to, behind a number of bound references,
and no question that is asked of it shows this number: not its text, its type, its object, nor
which types take it. What a type takes is tested variant by variant, in part by exclusion; the tests
together say that a scalar type takes the values that resolve to its own, and every other type takes
all (`Value.fits_eq`).
-/
namespace Offside

/-- The types whose values are not objects. -/
inductive Scalar where
  | number | string | boolean | character
deriving DecidableEq

namespace Scalar

/-- The scalar type that a type name stands for. -/
def ofTypeName? : String → Option Scalar
  | "number" | "int" => some number
  | "string" | "String" => some string
  | "boolean" => some boolean
  | "char" | "character" => some character
  | _ => none

/-- The names of a scalar type. -/
def names : Scalar → List String
  | number => ["number", "int"]
  | string => ["string", "String"]
  | boolean => ["boolean"]
  | character => ["char", "character"]

theorem ofTypeName?_eq_some_iff {typeName : String} {s : Scalar} :
    ofTypeName? typeName = some s ↔ typeName ∈ s.names := by
  unfold ofTypeName?
  split <;> cases s <;> simp_all [names]

theorem ofTypeName?_eq_none_iff {typeName : String} :
    ofTypeName? typeName = none ↔ typeName ∉ scalarNames := by
  unfold ofTypeName?
  split <;> simp_all [scalarNames]

end Scalar

namespace Value

/-- The values know the same scalar types by name as the grammar. -/
theorem isScalarType_iff {typeName : String} :
    isScalarType typeName = true ↔ typeName ∈ scalarNames := by
  unfold isScalarType
  split <;> simp_all [scalarNames]

theorem isScalarType_eq_false_iff {typeName : String} :
    isScalarType typeName = false ↔ typeName ∉ scalarNames := by
  rw [← isScalarType_iff, Bool.not_eq_true]

/-- The scalar type of a value. -/
def scalar? (v : Value) : Option Scalar :=
  match v.resolved with
  | boolean _ => some .boolean
  | number _ => some .number
  | string _ => some .string
  | character _ => some .character
  | _ => none

variable (v : Value) (h : Heap)

theorem exists_eq_repeat_bound : ∃ n, v = Nat.repeat bound n v.resolved := by
  induction v with
  | bound target ih =>
    obtain ⟨n, hn⟩ := ih
    exact ⟨n + 1, congrArg bound hn⟩
  | _ => exact ⟨0, rfl⟩

theorem resolved_ne_bound (target : Value) : v.resolved ≠ bound target := by
  induction v with
  | bound v ih => exact ih
  | _ => exact Value.noConfusion

theorem resolved_resolved : v.resolved.resolved = v.resolved := by
  induction v with
  | bound target ih => exact ih
  | _ => rfl

theorem output_resolved : v.resolved.output h = v.output h := by
  induction v with
  | bound target ih => exact ih
  | _ => rfl

theorem typeName_resolved : v.resolved.typeName h = v.typeName h := by
  induction v with
  | bound target ih => exact ih
  | _ => rfl

theorem object?_resolved : v.resolved.object? = v.object? := by
  rw [object?, object?, resolved_resolved]

theorem fits_resolved (typeName : String) : v.resolved.fits typeName = v.fits typeName := by
  induction v with
  | bound target ih => exact ih
  | _ => rfl

/-- A class takes every value. -/
theorem fits_of_not_mem {typeName : String} (ht : typeName ∉ scalarNames) :
    v.fits typeName = true := by
  have hscalar := isScalarType_eq_false_iff.2 ht
  induction v with
  | bound target ih => exact ih
  | number x => rw [fits, isNonNumericScalar, hscalar, Bool.false_and, Bool.not_false]
  | unbound | string | boolean | character | object =>
    simp only [fits, hscalar, Bool.not_false, Bool.or_true]

/-- The tests of all variants together: a scalar type takes its own values. -/
theorem fits_eq (typeName : String) :
    v.fits typeName =
      match Scalar.ofTypeName? typeName with
      | none => true
      | some s => v.scalar? == some s := by
  by_cases ht : typeName ∈ scalarNames
  · induction v with
    | bound target ih => exact ih
    | boolean | number | string | character | object | unbound =>
      simp only [scalarNames, List.mem_cons, List.not_mem_nil, or_false] at ht
      rcases ht with rfl | rfl | rfl | rfl | rfl | rfl | rfl <;> rfl
  · rw [Scalar.ofTypeName?_eq_none_iff.2 ht, v.fits_of_not_mem ht]

end Value

/-- The values that are of a scalar type themselves. -/
def Scalar.Holds : Scalar → Value → Prop
  | number, v => ∃ x, v = .number x
  | string, v => ∃ s, v = .string s
  | boolean, v => ∃ b, v = .boolean b
  | character, v => ∃ c, v = .character c

theorem Value.scalar?_eq_some_iff {v : Value} {s : Scalar} :
    v.scalar? = some s ↔ s.Holds v.resolved := by
  unfold scalar?
  cases v.resolved <;> cases s <;> simp [Scalar.Holds]

theorem Scalar.exists_iff {P : Scalar → Prop} :
    (∃ s, P s) ↔ P number ∨ P string ∨ P boolean ∨ P character := by
  constructor
  · rintro ⟨s, hs⟩
    cases s <;> simp [hs]
  · rintro (hs | hs | hs | hs) <;> exact ⟨_, hs⟩

/-- A type takes a value if it is no scalar type, or the one that the value is of. -/
theorem Value.fits_iff {v : Value} {typeName : String} :
    v.fits typeName = true ↔
      typeName ∉ scalarNames ∨ ∃ s : Scalar, typeName ∈ s.names ∧ s.Holds v.resolved := by
  rw [← Scalar.ofTypeName?_eq_none_iff, fits_eq]
  simp only [← Scalar.ofTypeName?_eq_some_iff, ← scalar?_eq_some_iff]
  cases Scalar.ofTypeName? typeName with
  | none => simp
  | some s => simp

/-- A value is what it resolves to, which is no bound reference, behind a number of bound
references. It has the same text, type and object as what it resolves to, and the same types take
it: all that are not scalar, and the one of its own sort. -/
theorem references_transparent (v : Value) (h : Heap) (typeName : String) :
    (∃ n, v = Nat.repeat .bound n v.resolved) ∧ (∀ target, v.resolved ≠ .bound target) ∧
    v.resolved.resolved = v.resolved ∧
    v.output h = v.resolved.output h ∧ v.typeName h = v.resolved.typeName h ∧
    v.object? = v.resolved.object? ∧ v.fits typeName = v.resolved.fits typeName ∧
    (v.fits typeName = true ↔ typeName ∉ scalarNames ∨
      (typeName = "number" ∨ typeName = "int") ∧ (∃ x, v.resolved = .number x) ∨
      (typeName = "string" ∨ typeName = "String") ∧ (∃ s, v.resolved = .string s) ∨
      typeName = "boolean" ∧ (∃ b, v.resolved = .boolean b) ∨
      (typeName = "char" ∨ typeName = "character") ∧ ∃ c, v.resolved = .character c) := by
  refine ⟨v.exists_eq_repeat_bound, v.resolved_ne_bound, v.resolved_resolved,
    (v.output_resolved h).symm, (v.typeName_resolved h).symm, v.object?_resolved.symm,
    (v.fits_resolved typeName).symm, Value.fits_iff.trans (or_congr_right ?_)⟩
  rw [Scalar.exists_iff]
  simp only [Scalar.names, Scalar.Holds, List.mem_cons, List.not_mem_nil, or_false]

end Offside
