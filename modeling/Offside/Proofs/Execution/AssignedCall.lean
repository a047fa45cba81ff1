import Offside.Proofs.Execution.Ending
import Offside.Proofs.Grammar.Assignment
import Offside.Proofs.Grammar.Recognition

/-!
Two ways to assign a call. A line that assigns a call is a call statement with one target if the
call has no receiver, and else the assignment of an expression. Both run the call and store the
first value it returns; only a call that returns nothing tells them apart, since each of them has
its own fault for it (`assigned_call_agrees`).
-/
namespace Offside

namespace Code

variable {α β : Type} {s : Setup} {w : World}

theorem ends_fail {g : Fault} {e : Ending α} :
    (fail g : Code α).Ends s w e ↔ e = .failure g w := by
  constructor
  · rintro ⟨n, hn⟩
    exact Ending.result_injective hn.symm
  · rintro rfl
    exact ⟨0, rfl⟩

theorem ends_bind_congr_left {c c' : Code α} {k : α → Code β} {e : Ending β}
    (h : ∀ e, c.Ends s w e ↔ c'.Ends s w e) : (c >>= k).Ends s w e ↔ (c' >>= k).Ends s w e := by
  simp only [ends_bind, h]

/-- Stores the first of the values; if there is none, this is a fault. -/
def storeFirst (f : Frame) (x : String) (missing : Fault) : List Value → Code Frame
  | v :: _ => store f x v
  | [] => fail missing

variable {f : Frame} {x : String} {c : Call} {e : Ending Frame}

theorem ends_call_statement_iff :
    (stmt f (.call [x] c)).Ends s w e ↔
      (call f c >>= storeFirst f x (.tooManyTargets c.method 0 1)).Ends s w e := by
  refine (ends_ask_iff (.stmt f (.call [x] c))).trans (ends_bind_congr fun values w₁ _ => ?_)
  cases values with
  | nil => exact Iff.rfl
  | cons v vs =>
    have hcount : ¬ (v :: vs).length < [x].length := by simp
    -- The one target takes the first value, and no target is left for the others.
    rw [if_neg hcount]
    simp only [List.zip_cons_cons, List.zip_nil_left, List.foldlM_cons, List.foldlM_nil, bind_pure]
    exact Iff.rfl

theorem ends_assignment_iff :
    (stmt f (.assign x c.toExpr)).Ends s w e ↔
      (call f c >>= storeFirst f x (.noReturnValue c.method)).Ends s w e := by
  calc (stmt f (.assign x c.toExpr)).Ends s w e
    _ ↔ (expr f c.toExpr >>= store f x).Ends s w e := ends_ask_iff (.stmt f (.assign x c.toExpr))
    _ ↔ (ofExpr f c.toExpr >>= store f x).Ends s w e :=
      ends_bind_congr_left fun _ => ends_ask_iff (.expr f c.toExpr)
    _ ↔ (call f c >>= storeFirst f x (.noReturnValue c.method)).Ends s w e := by
      rw [Call.toExpr, ofExpr, bind_assoc]
      refine ends_bind_congr fun values w₁ _ => ?_
      cases values <;> exact Iff.rfl

/-- Which fault stands for a missing value matters only to a call that returns nothing. -/
theorem ends_storeFirst_congr {g g' : Fault}
    (h : ∀ w', ¬ (call f c).Ends s w (.success [] w')) :
    (call f c >>= storeFirst f x g).Ends s w e ↔ (call f c >>= storeFirst f x g').Ends s w e := by
  refine ends_bind_congr fun values w₁ hvalues => ?_
  cases values with
  | nil => exact absurd hvalues (h w₁)
  | cons v vs => exact Iff.rfl

theorem ends_store {v : Value} :
    (store f x v).Ends s w e ↔ Machine.store f x v w = e.result := by
  simp only [Ends, Settles, run_store, exists_const]

end Code

namespace Grammar

open Rule

theorem Derives.expression_of_atom {ts : List Token} {e : Expr} (h : Derives .atom ts e) :
    Derives .expression ts e := by
  have harith : Derives (.arithmetic false) (ts ++ []) e := .arithmetic (.ofAtom h) .arithEnd
  have hexpr : Derives .expression ((ts ++ []) ++ []) e := .expression (.single harith) .logicEnd
  simpa only [List.append_nil] using hexpr

theorem Derives.expr_eq_of_atom {ts : List Token} {e : Expr} (h : Derives .atom ts e) :
    expr ts = .ok (e, []) := by
  have hread := h.expression_of_atom.rule_eq [] (by simp [Phrase.Stops])
  rwa [List.append_nil] at hread

/-- Just the calls without receiver begin with a name and a parenthesis. -/
theorem Derives.startsCall_iff {ts : List Token} {c : Call} (h : Derives .atom ts c.toExpr) :
    StartsCall ts ↔ c.receiver = none := by
  obtain ⟨receiver, method, args⟩ := c
  cases h with
  | ownCall hmethod hargs =>
    have hparen := hargs.arguments_starts []
    rw [List.append_nil] at hparen
    exact iff_of_true ⟨congrArg some hmethod, hparen⟩ rfl
  | call _ hdot _ _ =>
    refine iff_of_false (fun hstart => ?_) (by simp)
    cases hdot.symm.trans (Option.some.inj hstart.2)
  | bareCall _ hdot _ =>
    refine iff_of_false (fun hstart => ?_) (by simp)
    cases hdot.symm.trans (Option.some.inj hstart.2)

theorem closing_of_lineEnd {tail left : List Token} (h : lineEnd tail = .ok ((), left)) :
    headKind tail ∈ closingKinds := by
  rcases lineEnd_eq_ok.1 h with ⟨hhead, -⟩ | ⟨-, hhead | hhead⟩ <;> rw [hhead] <;> decide

/-- A line that assigns a call is a call statement if the call has no receiver. -/
theorem stmt_of_assigned_atom {x a : Token} {ts tail left : List Token} {c : Call}
    (hx : x.kind = .word) (ha : a.kind = .assign) (hts : Derives .atom ts c.toExpr)
    (hend : lineEnd tail = .ok ((), left)) :
    stmt (x :: a :: (ts ++ tail)) =
      .ok (if c.receiver = none then .call [x.content] c else .assign x.content c.toExpr,
        left) := by
  have hvalue := hts.expr_eq_of_atom
  have htail := closing_of_lineEnd hend
  by_cases hreceiver : c.receiver = none
  · have hstart := hts.startsCall_iff.2 hreceiver
    obtain ⟨c', mid, hcall, -, ⟨heq, rfl⟩ | ⟨hoperation, -⟩⟩ :=
      continues_of_startsCall hstart hvalue
    · obtain rfl : c = c' := Call.eq_of_toExpr heq
      rw [if_pos hreceiver, stmt_of_startsCall hx ha hstart hcall htail]
      exact bind_of_ok hend _
    · rw [Call.isOperation_toExpr] at hoperation
      cases hoperation
  · rw [if_neg hreceiver]
    exact stmt_of_value hx ha hvalue (mt hts.startsCall_iff.1 hreceiver) htail hend

end Grammar

/-- A call statement with one target and the assignment of the call as an expression have the same
end, unless the call returns nothing: then the first counts no value for one target, and the second
has no value to use. If values are returned, the first of them is stored. Lines that assign a call
read as the one if it has no receiver, and as the other if it has one. -/
theorem assigned_call_agrees (s : Setup) (f : Frame) (c : Call) (x : String) (w : World) :
    ((∀ w', ¬ Settles (evalCall s · f c) w (.success [] w')) →
      (∀ e, Settles (execStmt s · f (.call [x] c)) w e ↔
        Settles (execStmt s · f (.assign x c.toExpr)) w e) ∧
      (Diverges (execStmt s · f (.call [x] c)) w ↔
        Diverges (execStmt s · f (.assign x c.toExpr)) w)) ∧
    (∀ v vs w', Settles (evalCall s · f c) w (.success (v :: vs) w') →
      ∀ e, Settles (execStmt s · f (.call [x] c)) w e ↔ Machine.store f x v w' = e.result) ∧
    (∀ w', Settles (evalCall s · f c) w (.success [] w') →
      (∀ e, Settles (execStmt s · f (.call [x] c)) w e ↔
        e = .failure (.tooManyTargets c.method 0 1) w') ∧
      ∀ e, Settles (execStmt s · f (.assign x c.toExpr)) w e ↔
        e = .failure (.noReturnValue c.method) w') ∧
    ∀ (target mark : Token) (ts tail left : List Token), target.kind = .word →
      target.content = x → mark.kind = .assign → Grammar.Derives .atom ts c.toExpr →
      Rule.lineEnd tail = .ok ((), left) →
      Grammar.stmt (target :: mark :: (ts ++ tail)) =
        .ok (if c.receiver = none then .call [x] c else .assign x c.toExpr, left) := by
  have hcall : ∀ e, Settles (evalCall s · f c) w e ↔ (Code.call f c).Ends s w e := fun e =>
    (Code.ends_ask (.call f c)).symm
  have hstmt : ∀ e, Settles (execStmt s · f (.call [x] c)) w e ↔
      (Code.call f c >>= Code.storeFirst f x (.tooManyTargets c.method 0 1)).Ends s w e := fun e =>
    (Code.ends_ask (.stmt f (.call [x] c))).symm.trans Code.ends_call_statement_iff
  have hassign : ∀ e, Settles (execStmt s · f (.assign x c.toExpr)) w e ↔
      (Code.call f c >>= Code.storeFirst f x (.noReturnValue c.method)).Ends s w e := fun e =>
    (Code.ends_ask (.stmt f (.assign x c.toExpr))).symm.trans Code.ends_assignment_iff
  refine ⟨fun hvalue => ?_, fun v vs w' hvalues e => ?_, fun w' hnone => ⟨fun e => ?_, fun e => ?_⟩,
    fun target mark ts tail left hx hcontent ha hts hend => ?_⟩
  · have hsome : ∀ w', ¬ (Code.call f c).Ends s w (.success [] w') := fun w' =>
      mt (hcall _).2 (hvalue w')
    have hends : ∀ e, Settles (execStmt s · f (.call [x] c)) w e ↔
        Settles (execStmt s · f (.assign x c.toExpr)) w e := fun e =>
      (hstmt e).trans ((Code.ends_storeFirst_congr hsome).trans (hassign e).symm)
    refine ⟨hends, ?_⟩
    rw [diverges_iff, diverges_iff]
    exact forall_congr' fun e => not_congr (hends e)
  · rw [hstmt, ((hcall _).1 hvalues).bind_iff]
    exact Code.ends_store
  · rw [hstmt, ((hcall _).1 hnone).bind_iff]
    exact Code.ends_fail
  · rw [hassign, ((hcall _).1 hnone).bind_iff]
    exact Code.ends_fail
  · subst hcontent
    exact Grammar.stmt_of_assigned_atom hx ha hts hend

namespace Halves

/-- Returns two texts. -/
def both : Method :=
  { name := "both"
    isShared := true
    isPrivate := false
    isVariadic := false
    params := []
    returns := [⟨"string", "left"⟩, ⟨"string", "right"⟩]
    locals := []
    body := .statements [.assign "left" (.string "a"), .assign "right" (.string "b")] }

def cls : Class := ⟨"Halves", [], [], [], [both]⟩

def setup : Setup := ⟨⟨[cls, consoleClass]⟩, false⟩

/-- A frame with a local variable. -/
def frame (text : String) : Frame := ⟨cls, none, ⟨[("x", .string text)]⟩, []⟩

def callBoth : Call := ⟨some "Halves", "both", []⟩

def callWrite : Call := ⟨some "console", "write", [.string "a"]⟩

/-- The world that the one call leaves. -/
def returned : World := (evalCall setup 9 (frame "") callBoth).final .start

/-- The world that the other call leaves, with a line on the console. -/
def written : World := (evalCall setup 9 (frame "") callWrite).final .start

/-- The tokens of `Halves.both`, a call without parentheses. -/
def tokens : List Token :=
  [⟨.word, .start, some "Halves"⟩, Kind.dot.token, ⟨.word, .start, some "both"⟩]

end Halves

open Halves in
theorem assigned_call_agrees_halves :
    Settles (execStmt setup · (frame "") (.call ["x"] callBoth)) .start
      (.success (frame "a") returned) ∧
    Settles (execStmt setup · (frame "") (.assign "x" callBoth.toExpr)) .start
      (.success (frame "a") returned) ∧
    Settles (execStmt setup · (frame "") (.call ["x"] callWrite)) .start
      (.failure (.tooManyTargets "write" 0 1) written) ∧
    Settles (execStmt setup · (frame "") (.assign "x" callWrite.toExpr)) .start
      (.failure (.noReturnValue "write") written) ∧
    Grammar.stmt (⟨.word, .start, some "x"⟩ :: Kind.assign.token :: (tokens ++ [])) =
      .ok (.assign "x" callBoth.toExpr, []) := by
  have hboth : Settles (evalCall setup · (frame "") callBoth) .start
      (.success [.string "a", .string "b"] returned) := ⟨9, rfl⟩
  have hwrite : Settles (evalCall setup · (frame "") callWrite) .start
      (.success [] written) := ⟨9, rfl⟩
  have hvalue : ∀ w', ¬ Settles (evalCall setup · (frame "") callBoth) .start
      (.success [] w') := fun w' hnone => by
    cases ((Code.ends_ask (.call _ _)).2 hboth).unique ((Code.ends_ask (.call _ _)).2 hnone)
  obtain ⟨hagree, hstored, -, hline⟩ := assigned_call_agrees setup (frame "") callBoth "x" .start
  obtain ⟨-, -, hmissing, -⟩ := assigned_call_agrees setup (frame "") callWrite "x" .start
  have hcall := (hstored _ _ _ hboth (.success (frame "a") returned)).2 rfl
  refine ⟨hcall, ((hagree hvalue).1 _).1 hcall, ((hmissing _ hwrite).1 _).2 rfl,
    ((hmissing _ hwrite).2 _).2 rfl, ?_⟩
  exact hline _ _ tokens [] [] rfl rfl rfl (.bareCall rfl rfl rfl) rfl

end Offside
