import Offside.Proofs.Execution.Ending
import Offside.Proofs.Execution.ReturnVariable
import Offside.Proofs.Execution.Success

/-!
Loops. A loop over a condition does what a branch does that runs the body and then the loop again
(`loop_unrolls`), and a loop over an iterator runs its body once for every item that the iterator
announces, in order, until it announces none (`iterate_rounds`).
-/
namespace Offside

/-- Whether an expression can only be a boolean: a comparison, a conjunction or disjunction, or a
boolean itself. -/
def Expr.isCondition : Expr → Bool
  | boolean _ | logic .. | compare .. => true
  | _ => false

namespace Code

variable {s : Setup} {f : Frame} {w w' : World}

theorem exists_apply_of_operation {l r : Expr} {op : Heap → Value → Value → Except Fault Value}
    {v : Value} (h : (operation f l r op).Ends s w (.success v w')) :
    ∃ heap a b, op heap a b = .ok v := by
  obtain ⟨a, w₁, -, h⟩ := ends_bind_success.1 h
  obtain ⟨b, w₂, -, h⟩ := ends_bind_success.1 h
  obtain ⟨heap, w₃, -, n, h⟩ := ends_bind_success.1 h
  refine ⟨heap, a, b, ?_⟩
  cases hop : op heap a b with
  | ok v' =>
    rw [hop] at h
    cases h
    rfl
  | error e =>
    rw [hop] at h
    cases h

/-- The value of such an expression is a boolean. -/
theorem boolean_of_isCondition {c : Expr} (hc : c.isCondition = true) {v : Value}
    (h : (expr f c).Ends s w (.success v w')) : ∃ b, v = .boolean b := by
  have hcode : (ofExpr f c).Ends s w (.success v w') := (ends_ask_iff (.expr f c)).1 h
  cases c with
  | boolean b =>
    cases ends_pure.1 hcode
    exact ⟨b, rfl⟩
  | logic op l r =>
    obtain ⟨heap, a, b, hv⟩ := exists_apply_of_operation hcode
    unfold LogicOp.apply at hv
    split at hv <;> cases hv
    exact ⟨_, rfl⟩
  | compare op l r =>
    obtain ⟨heap, a, b, hv⟩ := exists_apply_of_operation hcode
    unfold CompareOp.apply at hv
    split at hv <;> cases hv
    exact ⟨_, rfl⟩
  | number | string | character | var | arith | call | construct => cases hc

variable {c : Expr} {body : List Stmt} {e : Ending Frame}

/-- A loop over a condition evaluates it and goes on with its value. -/
theorem ends_loop_iff (hc : c.isCondition = true) (item : Option String) :
    (stmt f (.loop item c body)).Ends s w e ↔
      (expr f c >>= fun v => repeatWhile c item body v f).Ends s w e := by
  refine (ends_ask_iff (.stmt f (.loop item c body))).trans ?_
  refine ends_bind_congr fun v w₁ hv => ?_
  obtain ⟨b, rfl⟩ := boolean_of_isCondition hc hv
  exact Iff.rfl

/-- With a true condition, the loop runs its body and then starts again. -/
theorem ends_repeatWhile_iff (hc : c.isCondition = true) (v : Value) :
    (repeatWhile c none body v f).Ends s w e ↔
      (condition v >>= fun b =>
        if b then stmts f (body ++ [.loop none c body]) else stmts f []).Ends s w e := by
  refine (ends_ask_iff (.repeatWhile c none body v f)).trans (ends_bind_congr fun b w₁ _ => ?_)
  cases b with
  | false => exact Iff.rfl
  | true =>
    have happend : stmts f (body ++ [.loop none c body]) =
        stmts f body >>= fun f' => stmt f' (.loop none c body) := by
      simp only [stmts, List.foldlM_append, List.foldlM_cons, List.foldlM_nil, bind_pure]
    simp only [if_true, happend]
    exact ends_bind_congr fun f' w₂ _ => (ends_loop_iff hc none).symm

theorem ends_loop_iff_branch (hc : c.isCondition = true) :
    (stmt f (.loop none c body)).Ends s w e ↔
      (stmt f (.branch c (body ++ [.loop none c body]) none)).Ends s w e := by
  calc (stmt f (.loop none c body)).Ends s w e
    _ ↔ (expr f c >>= fun v => repeatWhile c none body v f).Ends s w e := ends_loop_iff hc none
    _ ↔ (expr f c >>= fun v => condition v >>= fun b =>
          if b then stmts f (body ++ [.loop none c body]) else stmts f []).Ends s w e :=
      ends_bind_congr fun v w₁ _ => ends_repeatWhile_iff hc v
    _ ↔ (stmt f (.branch c (body ++ [.loop none c body]) none)).Ends s w e :=
      (ends_ask_iff (.stmt f (.branch c (body ++ [.loop none c body]) none))).symm

end Code

/-- A loop over a comparison, a conjunction or disjunction, or a boolean is the branch that runs
the body and then the loop, without anything to do otherwise: they end with the same frame in the
same world, or with the same fault in the same world, or neither ends. -/
theorem loop_unrolls (s : Setup) (f : Frame) (w : World) {c : Expr} (hc : c.isCondition = true)
    (body : List Stmt) :
    (∀ e, Settles (execStmt s · f (.loop none c body)) w e ↔
      Settles (execStmt s · f (.branch c (body ++ [.loop none c body]) none)) w e) ∧
    (Diverges (execStmt s · f (.loop none c body)) w ↔
      Diverges (execStmt s · f (.branch c (body ++ [.loop none c body]) none)) w) := by
  have hends : ∀ e, Settles (execStmt s · f (.loop none c body)) w e ↔
      Settles (execStmt s · f (.branch c (body ++ [.loop none c body]) none)) w e := fun e =>
    (Code.ends_ask (.stmt f (.loop none c body))).symm.trans
      ((Code.ends_loop_iff_branch hc).trans (Code.ends_ask (.stmt f _)))
  refine ⟨hends, ?_⟩
  rw [diverges_iff, diverges_iff]
  exact forall_congr' fun e => not_congr (hends e)

namespace Switch

/-- A frame with a switch that is on or off. -/
def frame (on : Bool) : Frame := ⟨consoleClass, none, ⟨[("on", .boolean on)]⟩, []⟩

def isOn : Expr := .logic .and (.var "on") (.boolean true)

def turnOff : List Stmt := [.assign "on" (.boolean false)]

end Switch

open Switch in
theorem loop_unrolls_switch :
    isOn.isCondition = true ∧
    Settles (execStmt ⟨⟨[]⟩, false⟩ · (frame true) (.loop none isOn turnOff)) .start
      (.success (frame false) .start) ∧
    Settles (execStmt ⟨⟨[]⟩, false⟩ · (frame true)
      (.branch isOn (turnOff ++ [.loop none isOn turnOff]) none)) .start
      (.success (frame false) .start) := by
  have hloop : Settles (execStmt ⟨⟨[]⟩, false⟩ · (frame true) (.loop none isOn turnOff)) .start
      (.success (frame false) .start) := ⟨6, rfl⟩
  exact ⟨rfl, hloop, ((loop_unrolls _ _ _ rfl turnOff).1 _).1 hloop⟩

/-- A loop over an iterator: the object and the method of its class that gives the items, the loop
variable if there is one, and the body. -/
structure IteratorLoop where
  cls : Class
  method : Method
  object : ObjectId
  item : Option String
  body : List Stmt

/-- A loop variable, if there is one, takes a value: as a member of the current object that has
one of its name, and else as a local. -/
inductive Frame.Takes (v : Value) : Option String → Frame → World → Frame → World → Prop where
  | nothing {f : Frame} {w : World} : Takes v none f w f w
  | member {f : Frame} {w : World} {name : String} {id : ObjectId} : f.this = some id →
      (w.heap.member? id name).isSome = true →
      Takes v (some name) f w f { w with heap := w.heap.setMember id name v }
  | localVariable {f : Frame} {w : World} {name : String} :
      (∀ id, f.this = some id → w.heap.member? id name = none) →
      Takes v (some name) f w { f with locals := f.locals.set name v } w

theorem Machine.storeItem_eq_ok {f f' : Frame} {v : Value} {item : Option String} {w w' : World} :
    storeItem f v item w = .ok f' w' ↔ Frame.Takes v item f w f' w' := by
  cases item with
  | none =>
    constructor
    · intro h
      cases h
      exact .nothing
    · intro h
      cases h
      rfl
  | some name =>
    have hrun : storeItem f v (some name) w =
        .ok (f.write w.heap name v (f.itemSlot w.heap name)).1
          { w with heap := (f.write w.heap name v (f.itemSlot w.heap name)).2 } := rfl
    rw [hrun, Frame.itemSlot]
    constructor
    · intro h
      cases howner : f.owner? w.heap name with
      | some id =>
        rw [howner] at h
        cases h
        obtain ⟨hid, hmember⟩ := Frame.owner?_eq_some_iff.1 howner
        exact .member hid hmember
      | none =>
        rw [howner] at h
        cases h
        refine .localVariable fun id hid => Option.eq_none_iff_forall_ne_some.2 fun u hu => ?_
        rw [Frame.owner?_eq_some_iff.2 ⟨hid, by rw [hu]; rfl⟩] at howner
        cases howner
    · intro h
      cases h with
      | member hid hmember =>
        rw [Frame.owner?_eq_some_iff.2 ⟨hid, hmember⟩]
        rfl
      | localVariable hfree =>
        have howner : f.owner? w.heap name = none := by
          refine Option.eq_none_iff_forall_ne_some.2 fun id hid => ?_
          obtain ⟨hthis, hmember⟩ := Frame.owner?_eq_some_iff.1 hid
          rw [hfree id hthis] at hmember
          cases hmember
        rw [howner]
        rfl

namespace IteratorLoop

variable (L : IteratorLoop) (s : Setup)

def run (f : Frame) (n : Nat) : Machine Frame :=
  iterate s n L.cls L.method L.object L.item L.body f

/-- Asked for the next item, the iterator says whether there is one, and which. -/
def Answers (f : Frame) (w : World) (more : Bool) (v : Value) (w' : World) : Prop :=
  ∃ flag, flag.resolved = .boolean more ∧
    Settles (invoke s · (.iterator f.cls) L.cls L.method (some L.object) []) w
      (.success [flag, v] w')

/-- One round: the iterator gives an item, the loop variable takes it, and the body runs. -/
def Round (f : Frame) (w : World) (v : Value) (f' : Frame) (w' : World) : Prop :=
  ∃ w₁ f₂ w₂, L.Answers s f w true v w₁ ∧ Frame.Takes v L.item f w₁ f₂ w₂ ∧
    Settles (execBlock s · f₂ L.body) w₂ (.success f' w')

/-- Rounds with these items lead from each frame and world to the next, and then the iterator has
no item left. -/
structure Rounds (items : List Value) (frames : Nat → Frame) (worlds : Nat → World)
    (w' : World) : Prop where
  round : ∀ j v, items[j]? = some v →
    L.Round s (frames j) (worlds j) v (frames (j + 1)) (worlds (j + 1))
  last : ∃ v, L.Answers s (frames items.length) (worlds items.length) false v w'

variable {L s} {f f' : Frame} {w w' : World} {v : Value}

theorem settles_run {e : Ending Frame} :
    Settles (L.run s f) w e ↔
      (Code.ofIterate L.cls L.method L.object L.item L.body f).Ends s w e :=
  (Code.ends_code (.iterate L.cls L.method L.object L.item L.body f)).symm

theorem Answers.ends {more : Bool} (h : L.Answers s f w more v w') :
    ∃ flag, flag.resolved = .boolean more ∧
      (Code.invoke (.iterator f.cls) L.cls L.method (some L.object) []).Ends s w
        (.success [flag, v] w') := by
  obtain ⟨flag, hflag, hsettles⟩ := h
  exact ⟨flag, hflag,
    (Code.ends_ask (.invoke (.iterator f.cls) L.cls L.method (some L.object) [])).2 hsettles⟩

/-- Without an item the loop is over, and its frame is as it was. -/
theorem Answers.settles (h : L.Answers s f w false v w') :
    Settles (L.run s f) w (.success f w') := by
  obtain ⟨flag, hflag, hends⟩ := h.ends
  rw [settles_run]
  refine hends.bind_iff.2 ?_
  simp only [hflag]
  exact Code.ends_pure.2 rfl

/-- After a round the loop ends as it does from there. -/
theorem Round.settles_iff (h : L.Round s f w v f' w') {e : Ending Frame} :
    Settles (L.run s f) w e ↔ Settles (L.run s f') w' e := by
  obtain ⟨w₁, f₂, w₂, hanswer, htakes, hbody⟩ := h
  obtain ⟨flag, hflag, hends⟩ := hanswer.ends
  have hstore : (Code.storeItem f v L.item).Ends s w₁ (.success f₂ w₂) := by
    refine ⟨0, ?_⟩
    simp only [Code.run_storeItem]
    exact Machine.storeItem_eq_ok.2 htakes
  rw [settles_run]
  refine hends.bind_iff.trans ?_
  simp only [hflag]
  refine hstore.bind_iff.trans (((Code.ends_stmts f₂ L.body).2 hbody).bind_iff.trans ?_)
  exact Code.ends_ask (.iterate L.cls L.method L.object L.item L.body f')

/-- What a loop that succeeds does first: the iterator has no item, or there is a round and the
loop goes on with less budget. -/
theorem of_run_succ {n : Nat} (h : L.run s f (n + 1) w = .ok f' w') :
    (∃ v, L.Answers s f w false v w' ∧ f' = f) ∨
      ∃ v f₁ w₁, L.Round s f w v f₁ w₁ ∧ L.run s f₁ n w₁ = .ok f' w' := by
  obtain ⟨flag, v, w₁, hinvoke, hrest⟩ := exists_of_iterate h
  rcases hrest with ⟨hflag, rfl, rfl⟩ | ⟨hflag, f₂, w₂, f₃, w₃, hstore, hbody, hrun⟩
  · exact .inl ⟨v, ⟨flag, hflag, n, hinvoke⟩, rfl⟩
  · have hanswer : L.Answers s f w true v w₁ := ⟨flag, hflag, n, hinvoke⟩
    have htakes := Machine.storeItem_eq_ok.1 hstore
    exact .inr ⟨v, f₃, w₃, ⟨w₁, f₂, w₂, hanswer, htakes, n, hbody⟩, hrun⟩

/-- A sequence with one more member in front. -/
def prepend {α : Type} (a : α) (u : Nat → α) : Nat → α
  | 0 => a
  | i + 1 => u i

theorem Rounds.cons {f₁ : Frame} {w₁ : World} (h : L.Round s f w v f₁ w₁) {items : List Value}
    {frames : Nat → Frame} {worlds : Nat → World} (hf : frames 0 = f₁) (hw : worlds 0 = w₁)
    (hrounds : L.Rounds s items frames worlds w') :
    L.Rounds s (v :: items) (prepend f frames) (prepend w worlds) w' where
  round j u hu := by
    cases j with
    | zero =>
      cases hu
      subst hf hw
      exact h
    | succ j => exact hrounds.round j u hu
  last := hrounds.last

/-- A loop that succeeds has come through rounds. -/
theorem exists_rounds {n : Nat} (h : L.run s f n w = .ok f' w') :
    ∃ items frames worlds, frames 0 = f ∧ worlds 0 = w ∧ frames items.length = f' ∧
      L.Rounds s items frames worlds w' := by
  induction n generalizing f w with
  | zero =>
    rw [run, iterate] at h
    cases h
  | succ n ih =>
    rcases of_run_succ h with ⟨v, hanswer, rfl⟩ | ⟨v, f₁, w₁, hround, hrun⟩
    · refine ⟨[], fun _ => f', fun _ => w, rfl, rfl, rfl, fun j u hu => ?_, v, hanswer⟩
      cases hu
    · obtain ⟨items, frames, worlds, hf, hw, hlast, hrounds⟩ := ih hrun
      exact ⟨v :: items, _, _, rfl, rfl, hlast, .cons hround hf hw hrounds⟩

section

variable {items : List Value} {frames : Nat → Frame} {worlds : Nat → World}

theorem Rounds.round_of_lt (h : L.Rounds s items frames worlds w') {j : Nat}
    (hj : j < items.length) :
    L.Round s (frames j) (worlds j) items[j] (frames (j + 1)) (worlds (j + 1)) :=
  h.round j items[j] (List.getElem?_eq_getElem hj)

/-- A loop that has come through some of its rounds ends as it does from there. -/
theorem Rounds.settles_iff (h : L.Rounds s items frames worlds w') {e : Ending Frame} {j : Nat}
    (hj : j ≤ items.length) :
    Settles (L.run s (frames 0)) (worlds 0) e ↔ Settles (L.run s (frames j)) (worlds j) e := by
  induction j with
  | zero => exact Iff.rfl
  | succ j ih => exact (ih (Nat.le_of_succ_le hj)).trans (h.round_of_lt hj).settles_iff

theorem Rounds.settles (h : L.Rounds s items frames worlds w') :
    Settles (L.run s (frames 0)) (worlds 0) (.success (frames items.length) w') := by
  obtain ⟨v, hanswer⟩ := h.last
  exact (h.settles_iff (Nat.le_refl _)).2 hanswer.settles

end

section Unique

variable {v₁ v₂ : Value} {w₁ w₂ : World} {f₁ f₂ : Frame}

theorem Answers.unique {more₁ more₂ : Bool} (h₁ : L.Answers s f w more₁ v₁ w₁)
    (h₂ : L.Answers s f w more₂ v₂ w₂) : more₁ = more₂ ∧ v₁ = v₂ ∧ w₁ = w₂ := by
  obtain ⟨flag₁, hflag₁, hends₁⟩ := h₁.ends
  obtain ⟨flag₂, hflag₂, hends₂⟩ := h₂.ends
  cases hends₁.unique hends₂
  cases hflag₁.symm.trans hflag₂
  exact ⟨rfl, rfl, rfl⟩

theorem Round.unique (h₁ : L.Round s f w v₁ f₁ w₁) (h₂ : L.Round s f w v₂ f₂ w₂) :
    v₁ = v₂ ∧ f₁ = f₂ ∧ w₁ = w₂ := by
  obtain ⟨u₁, g₁, x₁, hanswer₁, htakes₁, hbody₁⟩ := h₁
  obtain ⟨u₂, g₂, x₂, hanswer₂, htakes₂, hbody₂⟩ := h₂
  obtain ⟨-, rfl, rfl⟩ := hanswer₁.unique hanswer₂
  have hstore₁ := Machine.storeItem_eq_ok.2 htakes₁
  cases hstore₁.symm.trans (Machine.storeItem_eq_ok.2 htakes₂)
  rw [← Code.ends_stmts] at hbody₁ hbody₂
  cases hbody₁.unique hbody₂
  exact ⟨rfl, rfl, rfl⟩

variable {items₁ items₂ : List Value} {frames₁ frames₂ : Nat → Frame}
  {worlds₁ worlds₂ : Nat → World}

/-- Rounds from one start go through the same states, as long as there are any. -/
theorem Rounds.agree (h₁ : L.Rounds s items₁ frames₁ worlds₁ w₁)
    (h₂ : L.Rounds s items₂ frames₂ worlds₂ w₂) (hf : frames₁ 0 = frames₂ 0)
    (hw : worlds₁ 0 = worlds₂ 0) {j : Nat} (hj₁ : j ≤ items₁.length) (hj₂ : j ≤ items₂.length) :
    frames₁ j = frames₂ j ∧ worlds₁ j = worlds₂ j := by
  induction j with
  | zero => exact ⟨hf, hw⟩
  | succ j ih =>
    obtain ⟨hfj, hwj⟩ := ih (Nat.le_of_succ_le hj₁) (Nat.le_of_succ_le hj₂)
    have hround := h₁.round_of_lt hj₁
    rw [hfj, hwj] at hround
    exact (hround.unique (h₂.round_of_lt hj₂)).2

theorem Rounds.length_le (h₁ : L.Rounds s items₁ frames₁ worlds₁ w₁)
    (h₂ : L.Rounds s items₂ frames₂ worlds₂ w₂) (hf : frames₁ 0 = frames₂ 0)
    (hw : worlds₁ 0 = worlds₂ 0) : items₁.length ≤ items₂.length := by
  by_contra hlt
  rw [Nat.not_le] at hlt
  obtain ⟨hfc, hwc⟩ := h₁.agree h₂ hf hw (Nat.le_of_lt hlt) (Nat.le_refl _)
  obtain ⟨u, f', x, hmore, -⟩ := h₁.round_of_lt hlt
  obtain ⟨v, hnone⟩ := h₂.last
  rw [hfc, hwc] at hmore
  cases (hmore.unique hnone).1

/-- The items of a loop are determined. -/
theorem Rounds.unique (h₁ : L.Rounds s items₁ frames₁ worlds₁ w₁)
    (h₂ : L.Rounds s items₂ frames₂ worlds₂ w₂) (hf : frames₁ 0 = frames₂ 0)
    (hw : worlds₁ 0 = worlds₂ 0) : items₁ = items₂ := by
  have hlength : items₁.length = items₂.length :=
    Nat.le_antisymm (h₁.length_le h₂ hf hw) (h₂.length_le h₁ hf.symm hw.symm)
  refine List.ext_getElem hlength fun j hj₁ hj₂ => ?_
  obtain ⟨hfj, hwj⟩ := h₁.agree h₂ hf hw (Nat.le_of_lt hj₁) (Nat.le_of_lt hj₂)
  have hround := h₁.round_of_lt hj₁
  rw [hfj, hwj] at hround
  exact (hround.unique (h₂.round_of_lt hj₂)).1

end Unique

/-- A loop statement whose source is an object is the loop over its iterator. -/
theorem settles_loop_iff {i : Instance} (hobject : w'.heap.get? L.object = some i)
    (hcls : i.cls = L.cls) (hmethod : L.cls.iterator? = some L.method) {source : Expr}
    (hsource : Settles (evalExpr s · f source) w (.success v w'))
    (hv : v.resolved = .object L.object) {e : Ending Frame} :
    Settles (execStmt s · f (.loop L.item source L.body)) w e ↔ Settles (L.run s f) w' e := by
  have hends : (Code.expr f source).Ends s w (.success v w') :=
    (Code.ends_ask (.expr f source)).2 hsource
  refine (Code.ends_code (.stmt f (.loop L.item source L.body))).symm.trans ?_
  refine hends.bind_iff.trans ?_
  simp only [hv]
  have hheap : Code.heap.Ends s w' (.success w'.heap w') := ⟨0, rfl⟩
  refine hheap.bind_iff.trans ?_
  simp only [hobject, hcls, hmethod]
  exact Code.ends_ask (.iterate L.cls L.method L.object L.item L.body f)

end IteratorLoop

/-- Take an object of a class with an iterator method. A loop over it succeeds just if there are
rounds from its state to its end: in each of them the iterator method, invoked on the object without
arguments, gives two values, a flag that is true and an item, then the loop variable takes the item
and the body runs; and after the last one the flag is false, and the frame is left as it was. How
many rounds there are, and with which items, is determined. A loop statement whose source gives the
object is this loop. -/
theorem iterate_rounds {s : Setup} {f : Frame} {w : World} {o : ObjectId} {i : Instance}
    {m : Method} (hobject : w.heap.get? o = some i) (hmethod : i.cls.iterator? = some m)
    (item : Option String) (body : List Stmt) :
    (∀ f' w', Settles (iterate s · i.cls m o item body f) w (.success f' w') ↔
      ∃ items frames worlds, frames 0 = f ∧ worlds 0 = w ∧ frames items.length = f' ∧
        IteratorLoop.Rounds ⟨i.cls, m, o, item, body⟩ s items frames worlds w') ∧
    (∀ items₁ frames₁ worlds₁ w₁ items₂ frames₂ worlds₂ w₂,
      IteratorLoop.Rounds ⟨i.cls, m, o, item, body⟩ s items₁ frames₁ worlds₁ w₁ →
      IteratorLoop.Rounds ⟨i.cls, m, o, item, body⟩ s items₂ frames₂ worlds₂ w₂ →
      frames₁ 0 = frames₂ 0 → worlds₁ 0 = worlds₂ 0 → items₁ = items₂) ∧
    ∀ source v w₀, Settles (evalExpr s · f source) w₀ (.success v w) → v.resolved = .object o →
      ∀ e, Settles (execStmt s · f (.loop item source body)) w₀ e ↔
        Settles (iterate s · i.cls m o item body f) w e := by
  refine ⟨fun f' w' => ⟨?_, ?_⟩, ?_, ?_⟩
  · rintro ⟨n, hn⟩
    exact IteratorLoop.exists_rounds hn
  · rintro ⟨items, frames, worlds, rfl, rfl, rfl, hrounds⟩
    exact hrounds.settles
  · intro items₁ frames₁ worlds₁ w₁ items₂ frames₂ worlds₂ w₂ h₁ h₂ hf hw
    exact h₁.unique h₂ hf hw
  · intro source v w₀ hsource hv e
    exact IteratorLoop.settles_loop_iff (L := ⟨i.cls, m, o, item, body⟩) hobject rfl hmethod
      hsource hv

namespace Torch

/-- Gives the state of the torch, as long as it is lit, and puts it out. -/
def nextMethod : Method :=
  { name := "getNext"
    isShared := false
    isPrivate := false
    isVariadic := false
    params := []
    returns := [⟨"boolean", "more"⟩, ⟨"boolean", "state"⟩]
    locals := []
    body := .statements
      [.assign "more" (.var "lit"), .assign "state" (.var "lit"),
        .assign "lit" (.boolean false)] }

def torch : Class := ⟨"Torch", [], [⟨⟨"boolean", "lit"⟩, none, none⟩], [], [nextMethod]⟩

/-- A world with one torch, which is lit. -/
def world : World := ⟨⟨#[⟨torch, ⟨[("lit", .boolean true)]⟩⟩]⟩, #[], []⟩

def frame : Frame := ⟨torch, none, ⟨[("seen", .boolean false)]⟩, []⟩

def body : List Stmt := [.assign "seen" (.var "x")]

end Torch

open Torch in
theorem iterate_rounds_torch :
    (∃ i, world.heap.get? 0 = some i ∧ i.cls.iterator? = some nextMethod) ∧
    ∃ f' w', f'.locals.get? "seen" = some (.boolean true) ∧
      ∃ items frames worlds, frames 0 = frame ∧ worlds 0 = world ∧ frames items.length = f' ∧
        IteratorLoop.Rounds ⟨torch, nextMethod, 0, some "x", body⟩ ⟨⟨[torch]⟩, false⟩ items frames
          worlds w' := by
  obtain ⟨f', w', hseen, hrun⟩ : ∃ f' w', f'.locals.get? "seen" = some (.boolean true) ∧
      iterate ⟨⟨[torch]⟩, false⟩ 8 torch nextMethod 0 (some "x") body frame world = .ok f' w' :=
    ⟨_, _, rfl, rfl⟩
  have hobject : world.heap.get? 0 = some ⟨torch, ⟨[("lit", .boolean true)]⟩⟩ := rfl
  refine ⟨⟨_, hobject, rfl⟩, f', w', hseen, ?_⟩
  exact ((iterate_rounds hobject rfl (some "x") body).1 f' w').1 ⟨8, hrun⟩

end Offside
