import Offside.Proofs.Execution.Reference
import Offside.Proofs.Execution.Scope

/-!
Default values and the types they are declared with. The default of a type fits the type, with one
exception: `int` takes numbers only, but its default is that of a class. So a variable that was
declared and not assigned can be passed on as it is, unless its type is `int`.
-/
namespace Offside

/-- The default of a type fits it, for every type name but one. -/
theorem Value.fits_default_iff (typeName : String) :
    (Value.default typeName).fits typeName = true ↔ typeName ≠ "int" := by
  by_cases hscalar : typeName ∈ scalarNames
  · simp only [scalarNames, List.mem_cons, List.not_mem_nil, or_false] at hscalar
    rcases hscalar with rfl | rfl | rfl | rfl | rfl | rfl | rfl <;> decide +kernel
  · have hne : typeName ≠ "int" := by
      rintro rfl
      exact hscalar (by decide)
    exact ⟨fun _ => hne, fun _ => Value.fits_of_not_mem _ hscalar⟩

namespace Frame

/-- A variable that a body declares, and that is no parameter, starts with its default. -/
theorem load?_ofMethod {m : Method} {d : Declaration}
    (hd : m.locals.find? (·.name == d.name) = some d) (hparam : d.name ∉ m.params.map (·.name))
    (cls : Class) (this : Option ObjectId) (args : List Value) (h : Heap) :
    (ofMethod cls m this args).load? h d.name = some (.default d.typeName) := by
  have hbound : (bind m.params args []).get? d.name = none := by
    refine Option.not_isSome_iff_eq_none.1 fun hhas => hparam ?_
    have hmem := mem_of_has_bind hhas
    rwa [List.append_nil] at hmem
  have hget : (bind m.params args m.locals).get? d.name = some (.default d.typeName) := by
    refine (get?_declare m.locals (bind m.params args []) d.name).trans ?_
    rw [hbound, hd]
    rfl
  rw [load?, ofMethod, hget]
  rfl

/-- The members of a new object: the last declaration of a name counts. -/
theorem get?_newMembers (f : Frame) (h : Heap) (members : List Member) (name : String) :
    (f.newMembers h members).get? name =
      (members.reverse.find? (·.declaration.name == name)).map fun m =>
        (f.load? h name).getD (.default m.declaration.typeName) := by
  unfold newMembers
  induction members using List.reverseRecOn with
  | nil => rfl
  | append_singleton members m ih =>
    rw [List.foldl_append, List.foldl_cons, List.foldl_nil, Bindings.get?_set, ih,
      List.reverse_concat, List.find?_cons]
    by_cases hname : m.declaration.name = name
    · subst hname
      simp
    · rw [if_neg (Ne.symm hname), beq_false_of_ne hname]

end Frame

theorem allFit_cons (p : Declaration) (params : List Declaration) (v : Value)
    (args : List Value) :
    allFit (p :: params) (v :: args) = (v.fits p.typeName && allFit params args) := rfl

/-- Of arguments that fit, one may be exchanged for a value that fits too. -/
theorem allFit_set {params : List Declaration} {args : List Value} {i : Nat} {p : Declaration}
    (hp : params[i]? = some p) (hcount : params.length = args.length)
    (hfit : allFit params args = true) (v : Value) :
    allFit params (args.set i v) = v.fits p.typeName := by
  induction params generalizing args i with
  | nil => cases hp
  | cons first params ih =>
    cases args with
    | nil => cases hcount
    | cons a args =>
      rw [allFit_cons, Bool.and_eq_true] at hfit
      cases i with
      | zero =>
        cases hp
        rw [List.set_cons_zero, allFit_cons, hfit.2, Bool.and_true]
      | succ i =>
        rw [List.set_cons_succ, allFit_cons, hfit.1, Bool.true_and]
        exact ih hp (Nat.succ.inj hcount) hfit.2

namespace Method

variable {m : Method} {args : List Value} {i : Nat} {p : Declaration}

/-- A default may stand for any argument whose parameter has its type, unless the type is `int`. -/
theorem takes_set_default_iff (hm : m.isVariadic = false) (hp : m.params[i]? = some p)
    (hargs : m.takes args = true) :
    m.takes (args.set i (.default p.typeName)) = true ↔ p.typeName ≠ "int" := by
  rw [takes, hm, Bool.false_or, Bool.and_eq_true, beq_iff_eq] at hargs
  obtain ⟨hcount, hfit⟩ := hargs
  rw [takes, hm, Bool.false_or, List.length_set, hcount, beq_self_eq_true, Bool.true_and,
    allFit_set hp hcount hfit]
  exact Value.fits_default_iff p.typeName

theorem takes_set_default (hp : m.params[i]? = some p) (hargs : m.takes args = true)
    (hint : p.typeName ≠ "int") : m.takes (args.set i (.default p.typeName)) = true := by
  cases hm : m.isVariadic with
  | true => rw [takes, hm, Bool.true_or]
  | false => exact (takes_set_default_iff hm hp hargs).2 hint

end Method

namespace Class

variable {c : Class} {standing : Standing} {m : Method} {name : String} {args : List Value}

theorem exists_resolve_of_takes (hm : m ∈ c.candidates standing name)
    (hargs : m.takes args = true) :
    ∃ m' ∈ c.candidates standing name, m'.takes args = true ∧
      c.resolve standing name args = .ok m' := by
  have hsome : ((c.candidates standing name).find? (·.takes args)).isSome = true :=
    List.find?_isSome.2 ⟨m, hm, hargs⟩
  obtain ⟨m', hfind⟩ := Option.isSome_iff_exists.1 hsome
  have htakes := List.find?_some hfind
  refine ⟨m', List.mem_of_find?_eq_some hfind, htakes, ?_⟩
  unfold resolve
  cases hc : c.candidates standing name with
  | nil =>
    rw [hc] at hm
    cases hm
  | cons first others =>
    rw [hc] at hfind
    simp only [hfind]

theorem resolve_of_not_takes (hc : c.candidates standing name = [m])
    (hcount : m.params.length = args.length) (hargs : m.takes args = false) :
    c.resolve standing name args = .error (.argumentTypes name) := by
  unfold resolve
  simp [hc, hargs, hcount]

end Class

/-- The default of a type fits the type exactly if the type is not `int`. It is the value of a local
that was declared and not assigned, and of a member that no variable lends its value to. Such a
value can be passed for a parameter of its type, in the place of any other argument that can, unless
the type is `int`; then it is refused where there is no other method to call. -/
theorem unassigned_fits (typeName : String) :
    ((Value.default typeName).fits typeName = true ↔ typeName ≠ "int") ∧
    (∀ (cls : Class) (m : Method) (this : Option ObjectId) (args : List Value) (h : Heap)
      (name : String), m.locals.find? (·.name == name) = some ⟨typeName, name⟩ →
      name ∉ m.params.map (·.name) →
      (Frame.ofMethod cls m this args).load? h name = some (.default typeName)) ∧
    (∀ (f : Frame) (h : Heap) (members : List Member) (m : Member),
      members.reverse.find? (·.declaration.name == m.declaration.name) = some m →
      m.declaration.typeName = typeName → f.load? h m.declaration.name = none →
      (f.newMembers h members).get? m.declaration.name = some (.default typeName)) ∧
    ∀ (c : Class) (standing : Standing) (name : String) (m : Method) (args : List Value) (i : Nat)
      (p : Declaration), m ∈ c.candidates standing name → m.takes args = true →
      m.params[i]? = some p → p.typeName = typeName →
      (typeName ≠ "int" → ∃ m' ∈ c.candidates standing name,
        m'.takes (args.set i (.default typeName)) = true ∧
        c.resolve standing name (args.set i (.default typeName)) = .ok m') ∧
      (typeName = "int" → c.candidates standing name = [m] → m.isVariadic = false →
        c.resolve standing name (args.set i (.default typeName)) =
          .error (.argumentTypes name)) := by
  refine ⟨Value.fits_default_iff typeName, fun cls m this args h name hd hparam => ?_,
    fun f h members m hm htype hload => ?_, ?_⟩
  · exact Frame.load?_ofMethod (d := ⟨typeName, name⟩) hd hparam cls this args h
  · rw [Frame.get?_newMembers, hm, hload, ← htype]
    rfl
  · rintro c standing name m args i p hm hargs hp rfl
    refine ⟨fun hint => ?_, fun hint hc hvariadic => ?_⟩
    · exact Class.exists_resolve_of_takes hm (Method.takes_set_default hp hargs hint)
    · have hrefused : m.takes (args.set i (.default p.typeName)) = false := by
        refine Bool.eq_false_iff.2 fun htakes => ?_
        exact (Method.takes_set_default_iff hvariadic hp hargs).1 htakes hint
      refine Class.resolve_of_not_takes hc ?_ hrefused
      rw [Method.takes, hvariadic, Bool.false_or, Bool.and_eq_true, beq_iff_eq] at hargs
      rw [List.length_set]
      exact hargs.1

namespace Unassigned

/-- Takes one value, and writes a line. -/
def showMethod (typeName : String) : Method :=
  { name := "show"
    isShared := true
    isPrivate := false
    isVariadic := false
    params := [⟨typeName, "k"⟩]
    returns := []
    locals := []
    body := .statements [.call [] ⟨some "console", "write", [.string "shown"]⟩] }

/-- Passes a variable on that it declares and does not assign. -/
def startMethod (typeName : String) : Method :=
  { name := "start"
    isShared := true
    isPrivate := false
    isVariadic := false
    params := []
    returns := []
    locals := [⟨typeName, "n"⟩]
    body := .statements [.call [] ⟨none, "show", [.var "n"]⟩] }

def mainClass (typeName : String) : Class :=
  ⟨"Main", [], [], [], [startMethod typeName, showMethod typeName]⟩

def program (typeName : String) : Program := ⟨[mainClass typeName], []⟩

end Unassigned

open Unassigned in
theorem unassigned_fits_number :
    (Frame.ofMethod (mainClass "number") (startMethod "number") none []).load? .empty "n" =
      some (.default "number") ∧
    (∃ m ∈ (mainClass "number").candidates .own "show", m.takes [.default "number"] = true ∧
      (mainClass "number").resolve .own "show" [.default "number"] = .ok m) ∧
    (mainClass "int").resolve .own "show" [.default "int"] = .error (.argumentTypes "show") ∧
    (program "number").outcome true 12 = .finished ["shown"] := by
  obtain ⟨-, hlocal, -, hpass⟩ := unassigned_fits "number"
  obtain ⟨-, -, -, hrefuse⟩ := unassigned_fits "int"
  refine ⟨?_, ?_, ?_, by decide +kernel⟩
  · exact hlocal _ (startMethod "number") none [] .empty "n" rfl (by decide)
  · refine (hpass (mainClass "number") .own "show" (showMethod "number") [.number 5] 0
      ⟨"number", "k"⟩ ?_ rfl rfl rfl).1 (by decide)
    exact List.mem_singleton_self _
  · refine (hrefuse (mainClass "int") .own "show" (showMethod "int") [.number 5] 0
      ⟨"int", "k"⟩ ?_ rfl rfl rfl).2 rfl rfl rfl
    exact List.mem_singleton_self _

open Unassigned in
/-- A variable of type `int` that was declared and not assigned cannot be passed for a parameter of
type `int`. -/
theorem unassigned_int_refused :
    (Value.default "int").fits "int" = false ∧
    (program "int").outcome true 12 = .failed (.argumentTypes "show") :=
  ⟨by decide +kernel, by decide +kernel⟩

end Offside
