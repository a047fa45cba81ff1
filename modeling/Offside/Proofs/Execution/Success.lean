import Offside.Proofs.Execution.Passage

/-!
What statements and loops have done when they succeed: which parts of them ran, one budget lower,
in which frames and worlds, and that these parts succeeded too.
-/
namespace Offside

variable {s : Setup} {n : Nat} {f f' : Frame} {w w' : World}

theorem Machine.of_condition {v : Value} {b : Bool} (h : condition v w = .ok b w') :
    v.resolved = .boolean b ∧ w' = w := by
  unfold condition at h
  cases hv : v.resolved with
  | boolean b' =>
    rw [hv] at h
    cases h
    exact ⟨rfl, rfl⟩
  | number | string | character | object | unbound | bound =>
    rw [hv] at h
    cases h

theorem exists_of_assign {target : String} {value : Expr}
    (h : execStmt s (n + 1) f (.assign target value) w = .ok f' w') :
    ∃ v w₁, evalExpr s n f value w = .ok v w₁ ∧ Machine.store f target v w₁ = .ok f' w' := by
  rw [execStmt_assign] at h
  exact Machine.exists_of_bind h

theorem exists_of_callStmt {targets : List String} {c : Call}
    (h : execStmt s (n + 1) f (.call targets c) w = .ok f' w') :
    ∃ vs w₁, evalCall s n f c w = .ok vs w₁ ∧
      List.foldlM (m := Machine) (fun f x => Machine.store f x.1 x.2) f (targets.zip vs) w₁ =
        .ok f' w' := by
  rw [execStmt_call] at h
  obtain ⟨vs, w₁, hcall, h⟩ := Machine.exists_of_bind h
  refine ⟨vs, w₁, hcall, ?_⟩
  split at h
  · cases h
  · exact h

theorem exists_of_loop {item : Option String} {source : Expr} {body : List Stmt}
    (h : execStmt s (n + 1) f (.loop item source body) w = .ok f' w') :
    ∃ v w₁, evalExpr s n f source w = .ok v w₁ ∧
      (repeatWhile s n source item body v f w₁ = .ok f' w' ∨
        ∃ cls m id, iterate s n cls m id item body f w₁ = .ok f' w') := by
  rw [execStmt_loop] at h
  obtain ⟨v, w₁, hsource, h⟩ := Machine.exists_of_bind h
  refine ⟨v, w₁, hsource, ?_⟩
  cases hv : v.resolved with
  | boolean b =>
    rw [hv] at h
    exact .inl h
  | object id =>
    rw [hv] at h
    obtain ⟨heap, w₂, hheap, h⟩ := Machine.exists_of_bind h
    cases hheap
    cases hi : w₁.heap.get? id with
    | none =>
      rw [hi] at h
      cases h
    | some i =>
      rw [hi] at h
      cases hm : i.cls.iterator? with
      | none =>
        simp only [hm] at h
        cases h
      | some m =>
        simp only [hm] at h
        exact .inr ⟨i.cls, m, id, h⟩
  | number | string | character | unbound | bound =>
    rw [hv] at h
    cases h

theorem exists_of_branch {condition : Expr} {thenBody : List Stmt}
    {elseBody : Option (List Stmt)}
    (h : execStmt s (n + 1) f (.branch condition thenBody elseBody) w = .ok f' w') :
    ∃ v w₁ b, evalExpr s n f condition w = .ok v w₁ ∧ v.resolved = .boolean b ∧
      execBlock s n f (if b then thenBody else elseBody.getD []) w₁ = .ok f' w' := by
  rw [execStmt_branch] at h
  obtain ⟨v, w₁, hvalue, h⟩ := Machine.exists_of_bind h
  obtain ⟨b, w₂, hcondition, h⟩ := Machine.exists_of_bind h
  obtain ⟨hb, rfl⟩ := Machine.of_condition hcondition
  refine ⟨v, w₂, b, hvalue, hb, ?_⟩
  cases b with
  | true => exact h
  | false => exact h

theorem exists_of_iterate {cls : Class} {m : Method} {id : ObjectId} {item : Option String}
    {body : List Stmt} (h : iterate s (n + 1) cls m id item body f w = .ok f' w') :
    ∃ flag v w₁, invoke s n (.iterator f.cls) cls m (some id) [] w = .ok [flag, v] w₁ ∧
      (flag.resolved = .boolean false ∧ f' = f ∧ w' = w₁ ∨
        flag.resolved = .boolean true ∧ ∃ f₂ w₂ f₃ w₃,
          Machine.storeItem f v item w₁ = .ok f₂ w₂ ∧ execBlock s n f₂ body w₂ = .ok f₃ w₃ ∧
            iterate s n cls m id item body f₃ w₃ = .ok f' w') := by
  rw [iterate_succ] at h
  obtain ⟨vs, w₁, hinvoke, h⟩ := Machine.exists_of_bind h
  rcases vs with _ | ⟨flag, _ | ⟨v, _ | ⟨u, vs⟩⟩⟩
  · cases h
  · cases h
  · refine ⟨flag, v, w₁, hinvoke, ?_⟩
    simp only at h
    cases hflag : flag.resolved with
    | boolean more =>
      rw [hflag] at h
      cases more with
      | false =>
        cases h
        exact .inl ⟨rfl, rfl, rfl⟩
      | true =>
        obtain ⟨f₂, w₂, hstore, h⟩ := Machine.exists_of_bind h
        obtain ⟨f₃, w₃, hbody, h⟩ := Machine.exists_of_bind h
        exact .inr ⟨rfl, f₂, w₂, f₃, w₃, hstore, hbody, h⟩
    | number | string | character | object | unbound | bound =>
      rw [hflag] at h
      cases h
  · cases h

theorem exists_of_repeatWhile {source : Expr} {item : Option String} {body : List Stmt}
    {v : Value} (h : repeatWhile s (n + 1) source item body v f w = .ok f' w') :
    v.resolved = .boolean false ∧ f' = f ∧ w' = w ∨
      v.resolved = .boolean true ∧ ∃ f₂ w₂ f₃ w₃ v' w₄,
        Machine.storeItem f v item w = .ok f₂ w₂ ∧ execBlock s n f₂ body w₂ = .ok f₃ w₃ ∧
          evalExpr s n f₃ source w₃ = .ok v' w₄ ∧
            repeatWhile s n source item body v' f₃ w₄ = .ok f' w' := by
  rw [repeatWhile_succ] at h
  obtain ⟨b, w₁, hcondition, h⟩ := Machine.exists_of_bind h
  obtain ⟨hb, rfl⟩ := Machine.of_condition hcondition
  cases b with
  | false =>
    cases h
    exact .inl ⟨hb, rfl, rfl⟩
  | true =>
    obtain ⟨f₂, w₂, hstore, h⟩ := Machine.exists_of_bind h
    obtain ⟨f₃, w₃, hbody, h⟩ := Machine.exists_of_bind h
    obtain ⟨v', w₄, hvalue, h⟩ := Machine.exists_of_bind h
    exact .inr ⟨hb, f₂, w₂, f₃, w₃, v', w₄, hstore, hbody, hvalue, h⟩

end Offside
