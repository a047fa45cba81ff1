import Offside.Proofs.Execution.Origin
import Offside.Proofs.Grammar.Shape

/-!
Counts of arguments and of values. In a program of plain methods, whatever starts a body has picked
it by the number of its parameters: the entry method and the method of an iterator have none, a call
and a new object look for a method or a constructor that takes their arguments. So the check at the
start of a body never fails, each parameter holds an argument (`Frame.HoldsArguments`), and a loop
gets two values from every iterator.
-/
namespace Offside

/-- All methods have fixed parameters and a body of statements. -/
def Program.Plain (p : Program) : Prop := ∀ cls ∈ p.classes, ∀ m ∈ cls.methods, m.Plain

theorem Program.plain_of_ofTokens {ts : List Token} {p : Program} (h : ofTokens ts = .ok p) :
    p.Plain := by
  unfold ofTokens at h
  split at h
  · rename_i hp
    cases h
    have hshaped := Grammar.program_yields _ _ _ hp
    exact fun cls hcls m hm => ((hshaped.classes cls hcls).methods m hm).here
  · cases h

variable {p : Program} {constructionCall : Bool} {s : Setup} {cls : Class} {m : Method}

namespace Setup

/-- The methods of a plain program's setup are plain, but for that of the console. -/
theorem plain_or_console (hp : p.Plain) (hs : ofProgram p constructionCall = .ok s)
    (hcls : cls ∈ s.context.classes) (hm : m ∈ cls.methods) :
    m.Plain ∨ m ∈ consoleClass.methods := by
  rw [Context.classes_of_ofProgram (of_ofProgram hs).1] at hcls
  rcases List.mem_append.1 hcls with hcls | hcls
  · exact .inl (hp cls hcls m hm)
  · rw [List.mem_singleton.1 hcls] at hm
    exact .inr hm

theorem isVariadic_eq_false (hp : p.Plain) (hs : ofProgram p constructionCall = .ok s)
    (hcls : cls ∈ s.context.classes) (hm : m ∈ cls.methods) (hbody : m.hasStatements = true) :
    m.isVariadic = false := by
  rcases plain_or_console hp hs hcls hm with hplain | hconsole
  · exact hplain.1
  · rw [List.mem_singleton.1 hconsole] at hbody
    cases hbody

/-- The method that gives a loop its items is made of statements, and declares two values. -/
theorem of_iterator? (hp : p.Plain) (hs : ofProgram p constructionCall = .ok s)
    (hcls : cls ∈ s.context.classes) (hm : cls.iterator? = some m) :
    m.hasStatements = true ∧ m.returns.length = 2 := by
  have hiterator := List.find?_some hm
  simp only [Method.isIterator, Bool.and_eq_true, beq_iff_eq] at hiterator
  refine ⟨?_, hiterator.1.2⟩
  rcases plain_or_console hp hs hcls (List.mem_of_find?_eq_some hm) with hplain | hconsole
  · exact hplain.2
  · rw [List.mem_singleton.1 hconsole] at hiterator
    exact absurd hiterator.1.1.1 (by decide)

end Setup

/-- However a body was entered, its method was picked by the number of arguments. -/
theorem Event.Legit.count_eq {route : Route} {count : Nat}
    (h : (Event.invoked route cls m count).Legit s) (hfixed : m.isVariadic = false) :
    m.params.length = count := by
  cases route with
  | entry =>
    obtain ⟨hentry, rfl⟩ := h
    have hmethod := List.find?_some (Context.mem_of_entry hentry).2
    simp only [Method.isEntry, Bool.and_eq_true, List.isEmpty_iff] at hmethod
    rw [hmethod.2, List.length_nil]
  | call standing caller =>
    obtain ⟨-, name, args, hresolve, rfl⟩ := h
    obtain ⟨-, -, haccepts⟩ := Class.First.mem (Class.resolve_eq_iff.1 hresolve)
    exact haccepts.length_eq hfixed
  | iterator caller =>
    obtain ⟨hiterator, rfl⟩ := h
    have hmethod := List.find?_some hiterator
    simp only [Method.isIterator, Bool.and_eq_true, List.isEmpty_iff] at hmethod
    rw [hmethod.1.1.2, List.length_nil]
  | construction caller =>
    obtain ⟨-, args, hmethod, rfl⟩ := h
    exact (Class.of_constructionMethod? hmethod).2.2

/-- Each parameter's name holds the parameter's own argument, unless a later parameter has the same
name. -/
def Frame.HoldsArguments (f : Frame) (params : List Declaration) (args : List Value) : Prop :=
  ∀ (i : Nat) (p : Declaration) (v : Value), params[i]? = some p → args[i]? = some v →
    (∀ (j : Nat) (q : Declaration), i < j → params[j]? = some q → q.name ≠ p.name) →
      f.locals.get? p.name = some v

/-- The variables that a body declares leave the parameters as they are. -/
theorem Frame.get?_bind {params locals : List Declaration} {args : List Value} {i : Nat}
    {p : Declaration} {v : Value} (hp : params[i]? = some p) (hv : args[i]? = some v)
    (hlast : ∀ (j : Nat) (q : Declaration), i < j → params[j]? = some q → q.name ≠ p.name) :
    (bind params args locals).get? p.name = some v := by
  refine (get?_declare locals _ p.name).trans ?_
  rw [get?_bindAll hp hv hlast]
  rfl

theorem Frame.holdsArguments_ofMethod (cls : Class) (m : Method) (this : Option ObjectId)
    (args : List Value) : (ofMethod cls m this args).HoldsArguments m.params args :=
  fun _ _ _ hp hv hlast => get?_bind hp hv hlast

theorem Frame.holdsArguments_ofConstructor (cls : Class) (c : Constructor) (id : ObjectId)
    (args : List Value) : (ofConstructor cls c id args).HoldsArguments c.params args :=
  fun _ _ _ hp hv hlast => get?_bind hp hv hlast

theorem knownClasses_start (s : Setup) : (knownClasses s).world .start := by
  intro id i hi
  cases hi

section Begun

variable (hp : p.Plain) (hs : Setup.ofProgram p constructionCall = .ok s) {budget n : Nat}
  {w : World}
include hp hs

theorem Setup.Begins.count_eq {route : Route} {this : Option ObjectId} {args : List Value}
    (h : s.Begins budget n (.invoke route cls m this args) w) (hbody : m.hasStatements = true) :
    m.params.length = args.length := by
  obtain ⟨-, hcls, -, hlegit⟩ := h.good (knownClasses_start s)
  exact Event.Legit.count_eq hlegit (isVariadic_eq_false hp hs hcls hlegit.mem_methods hbody)

theorem Setup.Begins.of_iterate {id : ObjectId} {item : Option String} {body : List Stmt}
    {f : Frame} (h : s.Begins budget n (.iterate cls m id item body f) w) :
    m.hasStatements = true ∧ m.returns.length = 2 := by
  obtain ⟨-, -, hcls, hlegit⟩ := h.good (knownClasses_start s)
  exact of_iterator? hp hs hcls (hlegit f.cls).1

/-- No loop of the run gets another number of values than two. -/
theorem Setup.not_raises_valueCount (t : Task) (name : String) (count : Nat) :
    ¬ s.Raises budget t (.brokenIterator name (.valueCount count)) := by
  intro hraises
  have hmay := hraises.mayRaise
  cases t with
  | iterate cls m id item body f =>
    obtain ⟨k, ds, w, w', hbegins, -⟩ := hraises
    obtain ⟨hbody, htwo⟩ := hbegins.of_iterate hp hs
    exact hmay.1 ((hmay.2 hbody).trans htwo)
  | expr | call | invoke | construct | runConstructor | stmt | repeatWhile => exact hmay

end Begun

/-- Take a program whose methods are plain, such as every program that is read from tokens. In each
of its runs, a method made of statements is entered with one argument for each parameter, which the
frame of its body holds under the parameter's name, and returns as many values as it declares if it
succeeds; and a constructor runs with one argument for each parameter, held in the same way. The
complaint of a method about the number of its arguments is never raised, and no run ends with that
of a loop about the number of values. -/
theorem arity_settled (hp : p.Plain ∨ ∃ ts, Program.ofTokens ts = .ok p)
    (hs : Setup.ofProgram p constructionCall = .ok s) (budget : Nat) :
    (∀ n route cls m this args w, s.Begins budget n (.invoke route cls m this args) w →
      m.hasStatements = true →
      m.params.length = args.length ∧
        (Frame.ofMethod cls m this args).HoldsArguments m.params args ∧
        ∀ vs w', invoke s n route cls m this args w = .ok vs w' →
          vs.length = m.returns.length) ∧
    (∀ n f cls id args c w, s.Begins budget n (.runConstructor f cls id args) w →
      cls.constructor? args = some c →
      c.params.length = args.length ∧
        (Frame.ofConstructor cls c id args).HoldsArguments c.params args) ∧
    (∀ route cls m this args name expected found,
      ¬ s.Raises budget (.invoke route cls m this args) (.argumentCount name expected found)) ∧
    ∀ name count, (s.start budget).1 ≠ .failed (.brokenIterator name (.valueCount count)) := by
  have hplain : p.Plain := hp.elim id fun ⟨_, hts⟩ => Program.plain_of_ofTokens hts
  refine ⟨fun n route cls m this args w hbegins hbody => ?_, fun n f cls id args c w _ hc => ?_,
    fun route cls m this args name expected found hraises => ?_, fun name count hfailed => ?_⟩
  · have hcount := hbegins.count_eq hplain hs hbody
    refine ⟨hcount, Frame.holdsArguments_ofMethod cls m this args, fun vs w' hrun => ?_⟩
    exact Task.counted_of_run (t := .invoke route cls m this args) hrun hbody
  · exact ⟨(Class.of_constructor? hc).2, Frame.holdsArguments_ofConstructor cls c id args⟩
  · obtain ⟨hbody, hne⟩ := hraises.mayRaise
    obtain ⟨k, ds, w, w', hbegins, -⟩ := hraises
    exact hne (hbegins.count_eq hplain hs hbody)
  · rcases Setup.exists_raises_of_failed hfailed with hentry | ⟨t, hraises⟩
    · cases hentry
    · exact Setup.not_raises_valueCount hplain hs t name count hraises

namespace Echo

def mainClass : Class := ⟨"Main", [], [], [], [startMethod, twice]⟩

def setup : Setup := ⟨⟨[mainClass, consoleClass]⟩, true⟩

/-- The world when the entry method has begun. -/
def entered : World := ⟨.empty, #[], [.invoked .entry mainClass startMethod 0]⟩

/-- The first statement of the entry method calls the other method. -/
theorem begins_twice :
    setup.Begins 9 6 (.invoke (.call .own mainClass) mainClass twice none [.string "ab"])
      entered := by
  refine ⟨mainClass, startMethod, rfl, ?_⟩
  refine .inside (.effect .here) ?_
  refine .inside .here ?_
  exact .inside (.task rfl (.effect .here)) .here

end Echo

open Echo Privacy in
theorem arity_settled_echo :
    setup.Begins 9 6 (.invoke (.call .own mainClass) mainClass twice none [.string "ab"])
      entered ∧
    twice.params.length = 1 ∧
    (Frame.ofMethod mainClass twice none [.string "ab"]).locals.get? "text" =
      some (.string "ab") ∧
    (∃ vs w', invoke setup 6 (.call .own mainClass) mainClass twice none [.string "ab"] entered =
      .ok vs w' ∧ vs.length = twice.returns.length) ∧
    (cursorSetup.start 12).1 = .finished ["done"] ∧
    ∀ name count,
      (cursorSetup.start 12).1 ≠ .failed (.brokenIterator name (.valueCount count)) := by
  have hecho : echo.Plain := by
    unfold Program.Plain Method.Plain
    decide
  have hcursor : Program.Plain ⟨[cursor, cursorUser], []⟩ := by
    unfold Program.Plain Method.Plain
    decide
  obtain ⟨hinvoke, -, -, -⟩ := arity_settled (s := setup) (.inl hecho) rfl 9
  obtain ⟨-, -, -, hloop⟩ := arity_settled (s := cursorSetup) (.inl hcursor) rfl 12
  obtain ⟨hcount, hheld, hvalues⟩ := hinvoke _ _ _ _ _ _ _ begins_twice rfl
  have htext : (Frame.ofMethod mainClass twice none [.string "ab"]).locals.get? "text" =
      some (.string "ab") := by
    refine hheld 0 ⟨"string", "text"⟩ (.string "ab") rfl rfl fun j q hj hq => ?_
    rw [List.getElem?_eq_none hj] at hq
    cases hq
  obtain ⟨vs, w', hrun⟩ : ∃ vs w', invoke setup 6 (.call .own mainClass) mainClass twice none
      [.string "ab"] entered = .ok vs w' := ⟨_, _, rfl⟩
  exact ⟨begins_twice, hcount, htext, ⟨vs, w', hrun, hvalues vs w' hrun⟩, rfl, hloop⟩

end Offside
