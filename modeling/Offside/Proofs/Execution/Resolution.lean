import Mathlib.Data.List.Forall2
import Offside.Execution.Overload
import Offside.Proofs.Execution.Reference

/-!
Which method a call reaches, told without any search. `Class.Resolves` says what each answer means:
a method is the first of those the call may use that accepts the arguments, and each of the three
faults has its own reason. Main statements: a call is resolved as `Resolves` says and in no other
way (`resolve_first_match`), and if the methods of one name differ in scalar types, their order in
the class does not matter (`resolve_of_perm`).
-/
namespace Offside

/-- A call of this name may use the method: a private one only if it has no receiver, and on a class
only a shared one. -/
def Standing.Allows (standing : Standing) (name : String) (m : Method) : Prop :=
  m.name = name ∧ (standing ≠ .own → m.isPrivate = false) ∧
    (standing = .shared → m.isShared = true)

instance (standing : Standing) (name : String) : DecidablePred (standing.Allows name) :=
  fun _ => inferInstanceAs (Decidable (_ ∧ _ ∧ _))

theorem Standing.allows_iff {standing : Standing} {name : String} {m : Method} :
    (m.name == name && standing.admits m) = true ↔ standing.Allows name m := by
  cases standing <;> simp [admits, Allows, and_comm]

namespace Method

/-- The method accepts the arguments: any if it is variadic, and otherwise one for each parameter
that fits its type. -/
def Accepts (m : Method) (args : List Value) : Prop :=
  m.isVariadic = true ∨ List.Forall₂ (fun p v => Value.fits v p.typeName = true) m.params args

theorem takes_iff {m : Method} {args : List Value} : m.takes args = true ↔ m.Accepts args := by
  simp [takes, allFit, Accepts, List.forall₂_iff_zip]

instance (m : Method) (args : List Value) : Decidable (m.Accepts args) :=
  decidable_of_iff _ takes_iff

theorem Accepts.length_eq {m : Method} {args : List Value} (h : m.Accepts args)
    (hfixed : m.isVariadic = false) : m.params.length = args.length := by
  rcases h with hvariadic | hfit
  · rw [hfixed] at hvariadic
    cases hvariadic
  · exact hfit.length_eq

end Method

/-- A call of this name with these arguments may use the method, and the method accepts them. -/
def Standing.Matches (standing : Standing) (name : String) (args : List Value) (m : Method) :
    Prop :=
  standing.Allows name m ∧ m.Accepts args

instance (standing : Standing) (name : String) (args : List Value) :
    DecidablePred (standing.Matches name args) :=
  fun _ => inferInstanceAs (Decidable (_ ∧ _))

namespace Class

/-- The first method of the class, in the order of their declarations, that has a property. -/
def First (c : Class) (P : Method → Prop) (m : Method) : Prop :=
  ∃ before after, c.methods = before ++ m :: after ∧ P m ∧ ∀ earlier ∈ before, ¬ P earlier

/-- What it means that a call of this name with these arguments reaches a method, or a fault. -/
def Resolves (c : Class) (standing : Standing) (name : String) (args : List Value) :
    Except Fault Method → Prop
  | .ok m => c.First (standing.Matches name args) m
  -- There is no method to choose from.
  | .error (.unknownMethod method cls) => method = name ∧ cls = c.name ∧
      ∀ m ∈ c.methods, ¬ standing.Allows name m
  -- No method to choose from has the right number of parameters; the first one is named.
  | .error (.argumentCount method expected found) => method = name ∧ found = args.length ∧
      (∃ first, c.First (standing.Allows name) first ∧ first.params.length = expected) ∧
      ∀ m ∈ c.methods, standing.Allows name m →
        m.isVariadic = false ∧ m.params.length ≠ args.length
  -- Some have the right number, but none accepts the arguments.
  | .error (.argumentTypes method) => method = name ∧
      (∃ m ∈ c.methods, standing.Allows name m ∧ m.params.length = args.length) ∧
      ∀ m ∈ c.methods, standing.Allows name m → ¬ m.Accepts args
  | .error _ => False

variable {c : Class} {P : Method → Prop} {m : Method} {standing : Standing} {name : String}
  {args : List Value}

theorem first_iff_find? [DecidablePred P] :
    c.First P m ↔ c.methods.find? (fun m => decide (P m)) = some m := by
  rw [List.find?_eq_some_iff_append]
  simp only [First, decide_eq_true_eq, Bool.not_eq_true', decide_eq_false_iff_not]
  constructor
  · rintro ⟨before, after, hmethods, hm, hbefore⟩
    exact ⟨hm, before, after, hmethods, hbefore⟩
  · rintro ⟨hm, before, after, hmethods, hbefore⟩
    exact ⟨before, after, hmethods, hm, hbefore⟩

theorem First.mem (h : c.First P m) : m ∈ c.methods ∧ P m := by
  obtain ⟨before, after, hmethods, hm, -⟩ := h
  exact ⟨by simp [hmethods], hm⟩

theorem exists_first [DecidablePred P] (h : ∃ m ∈ c.methods, P m) : ∃ m, c.First P m := by
  obtain ⟨m, hmem, hm⟩ := h
  have hsome : (c.methods.find? fun m => decide (P m)).isSome = true :=
    List.find?_isSome.2 ⟨m, hmem, decide_eq_true hm⟩
  obtain ⟨first, hfirst⟩ := Option.isSome_iff_exists.1 hsome
  exact ⟨first, first_iff_find?.2 hfirst⟩

/-- Methods that stand behind all others do not change which one is first. -/
theorem First.append (h : c.First P m) (more : List Method) :
    First { c with methods := c.methods ++ more } P m := by
  obtain ⟨before, after, hmethods, hm, hbefore⟩ := h
  refine ⟨before, after ++ more, ?_, hm, hbefore⟩
  show c.methods ++ more = before ++ m :: (after ++ more)
  rw [hmethods, List.append_assoc, List.cons_append]

theorem candidates_eq :
    c.candidates standing name = c.methods.filter fun m => decide (standing.Allows name m) := by
  refine List.filter_congr fun m _ => ?_
  rw [Bool.eq_iff_iff, Standing.allows_iff, decide_eq_true_eq]

theorem find?_candidates :
    (c.candidates standing name).find? (·.takes args) =
      c.methods.find? fun m => decide (standing.Matches name args m) := by
  rw [candidates_eq, List.find?_filter]
  refine congrArg (List.find? · c.methods) (funext fun m => ?_)
  rw [decide_eq_decide, decide_eq_true_eq, Method.takes_iff, Standing.Matches]

theorem resolve_of_first (h : c.First (standing.Matches name args) m) :
    c.resolve standing name args = .ok m := by
  have hfind := find?_candidates.trans (first_iff_find?.1 h)
  unfold resolve
  cases hc : c.candidates standing name with
  | nil =>
    rw [hc] at hfind
    cases hfind
  | cons first others =>
    rw [hc] at hfind
    simp only [hfind]

theorem resolve_of_not_allowed (h : ∀ m ∈ c.methods, ¬ standing.Allows name m) :
    c.resolve standing name args = .error (.unknownMethod name c.name) := by
  have hc : c.candidates standing name = [] := by
    rw [candidates_eq, List.filter_eq_nil_iff]
    simpa using h
  unfold resolve
  rw [hc]

/-- If no method accepts the arguments, the number of parameters decides about the fault. -/
theorem resolve_of_not_accepted {first : Method} (hfirst : c.First (standing.Allows name) first)
    (h : ∀ m ∈ c.methods, standing.Allows name m → ¬ m.Accepts args) :
    c.resolve standing name args =
      if ∀ m ∈ c.methods, standing.Allows name m → m.params.length ≠ args.length then
        .error (.argumentCount name first.params.length args.length)
      else .error (.argumentTypes name) := by
  have hhead : (c.candidates standing name).head? = some first := by
    rw [candidates_eq, List.head?_filter]
    exact first_iff_find?.1 hfirst
  obtain ⟨others, hc⟩ := List.head?_eq_some_iff.1 hhead
  have hnone : (c.candidates standing name).find? (·.takes args) = none := by
    rw [find?_candidates, List.find?_eq_none]
    intro m hm hmatches
    obtain ⟨hallows, haccepts⟩ := of_decide_eq_true hmatches
    exact h m hm hallows haccepts
  have hcount : (c.candidates standing name).all (·.params.length != args.length) = true ↔
      ∀ m ∈ c.methods, standing.Allows name m → m.params.length ≠ args.length := by
    rw [candidates_eq, List.all_eq_true]
    simp
  rw [hc] at hnone hcount
  unfold resolve
  simp only [hc, hnone, hcount]

/-- One of the answers is the right one. -/
theorem exists_resolves (c : Class) (standing : Standing) (name : String) (args : List Value) :
    ∃ r, c.Resolves standing name args r := by
  by_cases haccepted : ∃ m ∈ c.methods, standing.Matches name args m
  · obtain ⟨m, hm⟩ := exists_first haccepted
    exact ⟨.ok m, hm⟩
  have hnone : ∀ m ∈ c.methods, standing.Allows name m → ¬ m.Accepts args :=
    fun m hm hallows haccepts => haccepted ⟨m, hm, hallows, haccepts⟩
  by_cases hallowed : ∃ m ∈ c.methods, standing.Allows name m
  · obtain ⟨first, hfirst⟩ := exists_first hallowed
    by_cases hcount : ∃ m ∈ c.methods, standing.Allows name m ∧ m.params.length = args.length
    · exact ⟨.error (.argumentTypes name), rfl, hcount, hnone⟩
    · refine ⟨.error (.argumentCount name first.params.length args.length), rfl, rfl,
        ⟨first, hfirst, rfl⟩, fun m hm hallows => ⟨?_, fun heq => hcount ⟨m, hm, hallows, heq⟩⟩⟩
      exact Bool.eq_false_iff.2 fun hvariadic => hnone m hm hallows (.inl hvariadic)
  · refine ⟨.error (.unknownMethod name c.name), rfl, rfl, fun m hm hallows => ?_⟩
    exact hallowed ⟨m, hm, hallows⟩

/-- The right answer is the one that is given. -/
theorem Resolves.resolve_eq {r : Except Fault Method} (h : c.Resolves standing name args r) :
    c.resolve standing name args = r := by
  rcases r with f | m
  · cases f with
    | unknownMethod method cls =>
      obtain ⟨rfl, rfl, hnone⟩ := h
      exact resolve_of_not_allowed hnone
    | argumentCount method expected found =>
      obtain ⟨rfl, rfl, ⟨first, hfirst, rfl⟩, hcount⟩ := h
      have hrefused : ∀ m ∈ c.methods, standing.Allows method m → ¬ m.Accepts args := by
        intro m hm hallows haccepts
        obtain ⟨hfixed, hne⟩ := hcount m hm hallows
        exact hne (haccepts.length_eq hfixed)
      rw [resolve_of_not_accepted hfirst hrefused, if_pos]
      exact fun m hm hallows => (hcount m hm hallows).2
    | argumentTypes method =>
      obtain ⟨rfl, ⟨m, hm, hallows, hlength⟩, hrefused⟩ := h
      obtain ⟨first, hfirst⟩ := exists_first ⟨m, hm, hallows⟩
      rw [resolve_of_not_accepted hfirst hrefused, if_neg]
      exact fun hcount => hcount m hm hallows hlength
    | _ => exact h.elim
  · exact resolve_of_first h

theorem resolve_eq_iff {r : Except Fault Method} :
    c.resolve standing name args = r ↔ c.Resolves standing name args r := by
  constructor
  · rintro rfl
    obtain ⟨r, hr⟩ := c.exists_resolves standing name args
    rw [hr.resolve_eq]
    exact hr
  · exact Resolves.resolve_eq

/-- A call reaches a method or a fault exactly if `Resolves` says so, and a method that it reaches
is still reached if more methods are declared behind the others. -/
theorem resolve_first_match (c : Class) (standing : Standing) (name : String) (args : List Value) :
    (∀ r, c.resolve standing name args = r ↔ c.Resolves standing name args r) ∧
    ∀ (more : List Method) (m : Method), c.resolve standing name args = .ok m →
      resolve { c with methods := c.methods ++ more } standing name args = .ok m := by
  refine ⟨fun r => resolve_eq_iff, fun more m hm => ?_⟩
  have hfirst : c.First (standing.Matches name args) m := resolve_eq_iff.1 hm
  exact resolve_of_first (hfirst.append more)

end Class

namespace Overloads

/-- A method without statements whose parameters have these types. -/
def method (name : String) (isShared isPrivate : Bool) (types : List String) : Method :=
  { name, isShared, isPrivate
    isVariadic := false
    params := types.map fun typeName => ⟨typeName, "x"⟩
    returns := []
    locals := []
    body := .statements [] }

def showNumber : Method := method "show" false false ["number"]

def showText : Method := method "show" false true ["String"]

def showPair : Method := method "show" true false ["Printer", "char"]

def printer : Class := ⟨"Printer", [], [], [], [showNumber, showText, showPair]⟩

end Overloads

open Overloads in
theorem resolve_first_match_printer :
    printer.Resolves .own "show" [.string "a"] (.ok showText) ∧
    printer.Resolves .object "show" [.string "a"] (.error (.argumentTypes "show")) ∧
    printer.Resolves .object "show" [] (.error (.argumentCount "show" 1 0)) ∧
    printer.Resolves .shared "show" [.unbound] (.error (.argumentCount "show" 2 1)) ∧
    printer.Resolves .own "hide" [] (.error (.unknownMethod "hide" "Printer")) ∧
    Class.resolve { printer with methods := printer.methods ++ [method "show" true false ["int"]] }
      .own "show" [.bound (.number 5)] = .ok showNumber := by
  refine ⟨?_, ?_, ?_, ?_, ?_, (Class.resolve_first_match printer .own "show" _).2 _ _ rfl⟩
  all_goals exact ((Class.resolve_first_match printer _ _ _).1 _).1 rfl

/-- If the methods have equally many parameters, there is a place where the types of both are
scalar types, and different ones. -/
def Method.Apart (a b : Method) : Prop :=
  a.params.length = b.params.length → ∃ (i : Nat) (p q : Declaration) (s t : Scalar),
    a.params[i]? = some p ∧ b.params[i]? = some q ∧ Scalar.ofTypeName? p.typeName = some s ∧
      Scalar.ofTypeName? q.typeName = some t ∧ s ≠ t

/-- The methods that a call of this name may use have fixed parameters, and no two of them are
alike. -/
structure Class.Disjoint (c : Class) (standing : Standing) (name : String) : Prop where
  fixed : ∀ m ∈ c.methods, standing.Allows name m → m.isVariadic = false
  apart : c.methods.Pairwise fun a b =>
    standing.Allows name a → standing.Allows name b → a.Apart b

/-- The same method is reached, or faults of one kind. -/
def SameAnswer : Except Fault Method → Except Fault Method → Prop
  | .ok m, .ok m' => m = m'
  | .error f, .error f' => f.ctorIdx = f'.ctorIdx
  | _, _ => False

/-- A value fits a scalar type only if it is of that type, behind all references. -/
theorem Value.scalar?_of_fits {v : Value} {typeName : String} {s : Scalar}
    (h : v.fits typeName = true) (hs : Scalar.ofTypeName? typeName = some s) :
    v.scalar? = some s := by
  rw [fits_eq, hs] at h
  exact beq_iff_eq.1 h

namespace Method

variable {a b m : Method} {args : List Value}

theorem Accepts.fits (h : m.Accepts args) (hfixed : m.isVariadic = false) {i : Nat}
    {p : Declaration} (hp : m.params[i]? = some p) :
    ∃ v, args[i]? = some v ∧ v.fits p.typeName = true := by
  rcases h with hvariadic | hfit
  · rw [hfixed] at hvariadic
    cases hvariadic
  · obtain ⟨hi, rfl⟩ := List.getElem?_eq_some_iff.1 hp
    obtain ⟨hlength, hfit⟩ := List.forall₂_iff_get.1 hfit
    have hi' : i < args.length := hlength ▸ hi
    exact ⟨args[i], List.getElem?_eq_getElem hi', hfit i hi hi'⟩

/-- No arguments are accepted by both. -/
theorem Apart.not_accepts (h : a.Apart b) (ha : a.isVariadic = false) (hb : b.isVariadic = false)
    (haccepts : a.Accepts args) : ¬ b.Accepts args := by
  intro hbaccepts
  have hlength := (haccepts.length_eq ha).trans (hbaccepts.length_eq hb).symm
  obtain ⟨i, p, q, s, t, hp, hq, hs, ht, hne⟩ := h hlength
  obtain ⟨v, hv, hfitp⟩ := haccepts.fits ha hp
  obtain ⟨u, hu, hfitq⟩ := hbaccepts.fits hb hq
  cases hv.symm.trans hu
  have hscalar := (Value.scalar?_of_fits hfitp hs).symm.trans (Value.scalar?_of_fits hfitq ht)
  exact hne (Option.some.inj hscalar)

end Method

namespace Class

variable {c : Class} {standing : Standing} {name : String} {args : List Value}

/-- At most one method accepts the arguments, counted by its place in the class. -/
theorem Disjoint.place_eq (h : c.Disjoint standing name) {i j : Nat} {a b : Method}
    (hi : c.methods[i]? = some a) (hj : c.methods[j]? = some b)
    (ha : standing.Matches name args a) (hb : standing.Matches name args b) : i = j := by
  obtain ⟨hi', rfl⟩ := List.getElem?_eq_some_iff.1 hi
  obtain ⟨hj', rfl⟩ := List.getElem?_eq_some_iff.1 hj
  have hfixed : ∀ k (hk : k < c.methods.length), standing.Allows name c.methods[k] →
      c.methods[k].isVariadic = false := fun k hk => h.fixed _ (List.getElem_mem hk)
  have hapart := List.pairwise_iff_getElem.1 h.apart
  rcases Nat.lt_trichotomy i j with hlt | heq | hgt
  · exact absurd hb.2 ((hapart i j hi' hj' hlt ha.1 hb.1).not_accepts (hfixed i hi' ha.1)
      (hfixed j hj' hb.1) ha.2)
  · exact heq
  · exact absurd ha.2 ((hapart j i hj' hi' hgt hb.1 ha.1).not_accepts (hfixed j hj' hb.1)
      (hfixed i hi' ha.1) hb.2)

/-- Whichever method accepts the arguments is the first to do so. -/
theorem Disjoint.first (h : c.Disjoint standing name) {m : Method} (hm : m ∈ c.methods)
    (hmatches : standing.Matches name args m) : c.First (standing.Matches name args) m := by
  obtain ⟨first, hfirst⟩ := exists_first ⟨m, hm, hmatches⟩
  obtain ⟨hmem, hfirst'⟩ := hfirst.mem
  obtain ⟨i, hi⟩ := List.mem_iff_getElem?.1 hm
  obtain ⟨j, hj⟩ := List.mem_iff_getElem?.1 hmem
  obtain rfl := h.place_eq hi hj hmatches hfirst'
  cases hi.symm.trans hj
  exact hfirst

/-- If the methods of a name differ in scalar types, a call reaches the same method or the same kind
of fault in whatever order they are declared; and at most one of them accepts its arguments. -/
theorem resolve_of_perm (h : c.Disjoint standing name) (args : List Value) :
    (∀ methods : List Method, methods.Perm c.methods →
      SameAnswer (c.resolve standing name args)
        (resolve { c with methods } standing name args)) ∧
    ∀ (i j : Nat) (a b : Method), c.methods[i]? = some a → c.methods[j]? = some b →
      standing.Matches name args a → standing.Matches name args b → i = j := by
  refine ⟨fun methods hperm => ?_, fun i j a b hi hj ha hb => h.place_eq hi hj ha hb⟩
  obtain ⟨r, hr⟩ := exists_resolves { c with methods } standing name args
  rw [hr.resolve_eq]
  -- Each answer is told by which methods there are; only the count of parameters that a fault
  -- names depends on which is the first.
  have hmem : ∀ m, m ∈ methods ↔ m ∈ c.methods := fun m => hperm.mem_iff
  rcases r with f | m
  · cases f with
    | unknownMethod method cls =>
      obtain ⟨rfl, rfl, hnone⟩ := hr
      rw [resolve_of_not_allowed fun m hm => hnone m ((hmem m).2 hm)]
      rfl
    | argumentCount method expected found =>
      obtain ⟨rfl, rfl, ⟨first, hfirst, rfl⟩, hcount⟩ := hr
      obtain ⟨hfirst, hallows⟩ := hfirst.mem
      obtain ⟨first', hfirst'⟩ := exists_first ⟨first, (hmem first).1 hfirst, hallows⟩
      have hr' : c.Resolves standing method args
          (.error (.argumentCount method first'.params.length args.length)) :=
        ⟨rfl, rfl, ⟨first', hfirst', rfl⟩, fun m hm => hcount m ((hmem m).2 hm)⟩
      rw [hr'.resolve_eq]
      rfl
    | argumentTypes method =>
      obtain ⟨rfl, ⟨m, hm, hallows, hlength⟩, hrefused⟩ := hr
      have hr' : c.Resolves standing method args (.error (.argumentTypes method)) :=
        ⟨rfl, ⟨m, (hmem m).1 hm, hallows, hlength⟩, fun m hm => hrefused m ((hmem m).2 hm)⟩
      rw [hr'.resolve_eq]
      rfl
    | _ => exact hr.elim
  · obtain ⟨hm, hmatches⟩ : m ∈ methods ∧ standing.Matches name args m := First.mem hr
    rw [resolve_of_first (h.first ((hmem m).1 hm) hmatches)]
    rfl

end Class

open Overloads in
theorem Overloads.printer_disjoint : printer.Disjoint .own "show" := by
  have hnumber : showNumber.Apart showText := fun _ =>
    ⟨0, ⟨"number", "x"⟩, ⟨"String", "x"⟩, .number, .string, rfl, rfl, rfl, rfl, by decide⟩
  have hpair : ∀ m : Method, m.params.length = 1 → m.Apart showPair :=
    fun m hm hlength => absurd (hm.symm.trans hlength) (by decide)
  refine ⟨by decide, ?_⟩
  simp only [printer, List.pairwise_cons, List.forall_mem_cons]
  refine ⟨⟨fun _ _ => hnumber, fun _ _ => hpair _ rfl, List.forall_mem_nil _⟩,
    ⟨fun _ _ => hpair _ rfl, List.forall_mem_nil _⟩, List.forall_mem_nil _, .nil⟩

open Overloads in
theorem resolve_of_perm_printer :
    printer.Disjoint .own "show" ∧
    SameAnswer (.ok showText)
      (Class.resolve { printer with methods := [showPair, showText, showNumber] } .own "show"
        [.bound (.string "a")]) ∧
    SameAnswer (.error (.argumentCount "show" 1 0))
      (Class.resolve { printer with methods := [showPair, showText, showNumber] } .own "show" []) ∧
    ∀ (i j : Nat) (a b : Method), printer.methods[i]? = some a → printer.methods[j]? = some b →
      Standing.own.Matches "show" [.number 5] a → Standing.own.Matches "show" [.number 5] b →
      i = j := by
  have hperm : [showPair, showText, showNumber].Perm printer.methods :=
    List.reverse_perm [showNumber, showText, showPair]
  refine ⟨printer_disjoint, ?_, ?_, (Class.resolve_of_perm printer_disjoint _).2⟩
  · exact (Class.resolve_of_perm printer_disjoint [.bound (.string "a")]).1 _ hperm
  · exact (Class.resolve_of_perm printer_disjoint []).1 _ hperm

end Offside
