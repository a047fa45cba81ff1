import Offside.Proofs.Execution.Passage
import Offside.Proofs.Execution.Scope

/-!
Return variables. A method that ends gives the values of its return variables, and reads them from
its locals; but an assignment goes to a member of the current object if there is one of the name. So
an assigned return variable is returned, except where a member takes its place: there the method
fails although its body ran to its end.
-/
namespace Offside

namespace Heap

/-- The objects of a heap are in the other one too, and have the same members. -/
def Keeps (h h' : Heap) : Prop :=
  ∀ id i, h.get? id = some i →
    ∃ j, h'.get? id = some j ∧ ∀ name, j.members.has name = true ↔ i.members.has name = true

namespace Keeps

theorem refl (h : Heap) : h.Keeps h := fun _ i hi => ⟨i, hi, fun _ => .rfl⟩

theorem trans {h h' h'' : Heap} (h₁ : h.Keeps h') (h₂ : h'.Keeps h'') : h.Keeps h'' := by
  intro id i hi
  obtain ⟨j, hj, hmembers⟩ := h₁ id i hi
  obtain ⟨k, hk, hmembers'⟩ := h₂ id j hj
  exact ⟨k, hk, fun name => (hmembers' name).trans (hmembers name)⟩

theorem setMember {h : Heap} {id : ObjectId} {name : String}
    (hmember : (h.member? id name).isSome = true) (v : Value) :
    h.Keeps (h.setMember id name v) := by
  intro other i hi
  rw [get?_setMember]
  split
  · rename_i heq
    subst heq
    have hhas : i.members.has name = true := by
      rw [member?, hi] at hmember
      exact hmember
    refine ⟨{ i with members := i.members.set name v }, by rw [hi]; rfl, fun n => ?_⟩
    rw [Bindings.has_set]
    exact ⟨fun hn => hn.elim (fun heq => heq ▸ hhas) id, .inr⟩
  · exact ⟨i, hi, fun _ => .rfl⟩

theorem alloc (h : Heap) (i : Instance) : h.Keeps (h.alloc i).2 := by
  intro id j hj
  have hne : id ≠ h.size := Nat.ne_of_lt (lt_size_of_get? hj)
  rw [get?_alloc, if_neg hne]
  exact ⟨j, hj, fun _ => .rfl⟩

theorem member?_iff {h h' : Heap} (hk : h.Keeps h') {id : ObjectId} {i : Instance}
    (hi : h.get? id = some i) (name : String) :
    (h'.member? id name).isSome = true ↔ (h.member? id name).isSome = true := by
  obtain ⟨j, hj, hmembers⟩ := hk id i hi
  rw [member?, member?, hi, hj]
  exact hmembers name

end Keeps

end Heap

/-- The object that a slot belongs to. -/
def Slot.owner? : Slot → Option ObjectId
  | member id => some id
  | localVariable => none

namespace Frame

variable {f f' f'' : Frame} {h h' h'' : Heap} {name : String}

theorem owner?_eq_some_iff {id : ObjectId} :
    f.owner? h name = some id ↔ f.this = some id ∧ (h.member? id name).isSome = true :=
  Option.filter_eq_some_iff

theorem owner?_of_keeps (hk : h.Keeps h') (hthis : f'.this = f.this) {id : ObjectId}
    (ho : f.owner? h name = some id) : f'.owner? h' name = some id := by
  obtain ⟨hid, hmember⟩ := owner?_eq_some_iff.1 ho
  obtain ⟨v, hv⟩ := Option.isSome_iff_exists.1 hmember
  obtain ⟨i, hi, -⟩ := Option.bind_eq_some_iff.1 hv
  exact owner?_eq_some_iff.2 ⟨hthis.trans hid, (hk.member?_iff hi name).2 hmember⟩

/-- The current object, if there is one, is in the heap. -/
def Live (f : Frame) (h : Heap) : Prop := ∀ id ∈ f.this, ∃ i, h.get? id = some i

theorem Live.owner?_eq_none (hf : f.Live h) (hk : h.Keeps h') (hthis : f'.this = f.this)
    (hfree : f.owner? h name = none) : f'.owner? h' name = none := by
  refine Option.eq_none_iff_forall_ne_some.2 fun id ho => ?_
  obtain ⟨hid, hmember⟩ := owner?_eq_some_iff.1 ho
  rw [hthis] at hid
  obtain ⟨i, hi⟩ := hf id hid
  rw [owner?_eq_some_iff.2 ⟨hid, (hk.member?_iff hi name).1 hmember⟩] at hfree
  cases hfree

/-- Statements lead from the first frame to the second: the current object stays, variables stay,
and none appears under the name of a member. -/
structure Continues (f : Frame) (h : Heap) (f' : Frame) (h' : Heap) : Prop where
  heap : h.Keeps h'
  this : f'.this = f.this
  grows : f.Grows f'
  owned : ∀ {name id}, f.owner? h name = some id → f'.locals.has name = true →
    f.locals.has name = true

namespace Continues

theorem of_keeps (f : Frame) (hk : h.Keeps h') : f.Continues h f h' :=
  ⟨hk, rfl, .refl f, fun _ hn => hn⟩

theorem trans (h₁ : f.Continues h f' h') (h₂ : f'.Continues h' f'' h'') :
    f.Continues h f'' h'' where
  heap := h₁.heap.trans h₂.heap
  this := h₂.this.trans h₁.this
  grows := h₁.grows.trans h₂.grows
  owned ho hn := h₁.owned ho (h₂.owned (owner?_of_keeps h₁.heap h₁.this ho) hn)

theorem live (hf : f.Continues h f' h') (hlive : f.Live h) : f'.Live h' := by
  intro id hid
  obtain ⟨i, hi⟩ := hlive id (hf.this ▸ hid)
  obtain ⟨j, hj, -⟩ := hf.heap id i hi
  exact ⟨j, hj⟩

theorem write {slot : Slot} (hs : f.owner? h name = slot.owner?) (v : Value) :
    f.Continues h (f.write h name v slot).1 (f.write h name v slot).2 := by
  cases slot with
  | member id => exact of_keeps f (.setMember (owner?_eq_some_iff.1 hs).2 v)
  | localVariable =>
    refine ⟨.refl h, rfl, f.grows_write h name v .localVariable, fun {n id} ho hn => ?_⟩
    rcases (Bindings.has_set f.locals name n v).1 hn with rfl | hn
    · cases hs.symm.trans ho
    · exact hn

end Continues

theorem owner?_slot? {slot : Slot} (hs : f.slot? h name = some slot) :
    f.owner? h name = slot.owner? := by
  unfold slot? at hs
  split at hs
  · cases hs
    assumption
  · split at hs <;> cases hs
    assumption

theorem owner?_itemSlot {slot : Slot} (hs : f.itemSlot h name = slot) :
    f.owner? h name = slot.owner? := by
  unfold itemSlot at hs
  split at hs <;> cases hs <;> assumption

/-- A method fails for want of a return variable only if it is no local. -/
theorem results_ne_of_has {m : Method} (hn : f.locals.has name = true) :
    f.results m ≠ .error (.unassignedReturn m.name name) := by
  intro herror
  obtain ⟨d, -, hd⟩ := exists_of_mapM_error herror
  split at hd
  · cases hd
  · rename_i hnone
    cases hd
    rw [Bindings.has, hnone] at hn
    cases hn

theorem mapM_locals_of_find? (f : Frame) (method : String) {returns : List Declaration}
    {d : Declaration} (hd : returns.find? (fun d => !f.locals.has d.name) = some d) :
    returns.mapM (fun d =>
      match f.locals.get? d.name with
      | some v => .ok v
      | none => .error (.unassignedReturn method d.name)) =
        (.error (.unassignedReturn method d.name) : Except Fault (List Value)) := by
  induction returns with
  | nil => cases hd
  | cons a returns ih =>
    rw [List.mapM_cons]
    rw [List.find?_cons, Bindings.has] at hd
    cases hget : f.locals.get? a.name with
    | none =>
      rw [hget] at hd
      cases hd
      rfl
    | some v =>
      rw [hget] at hd
      rw [ih hd]
      rfl

/-- A method without a value for some return variable fails, and names the first. -/
theorem exists_results_error {m : Method} (hmem : name ∈ m.returns.map (·.name))
    (hn : f.locals.has name = false) :
    ∃ missing, f.results m = .error (.unassignedReturn m.name missing) ∧
      (m.returns.head?.map (·.name) = some name → missing = name) := by
  obtain ⟨d, hd, rfl⟩ := List.mem_map.1 hmem
  have hsome : (m.returns.find? fun d => !f.locals.has d.name).isSome = true :=
    List.find?_isSome.2 ⟨d, hd, by rw [hn]; rfl⟩
  obtain ⟨first, hfirst⟩ := Option.isSome_iff_exists.1 hsome
  refine ⟨first.name, f.mapM_locals_of_find? m.name hfirst, fun hhead => ?_⟩
  obtain ⟨d', hd', hname⟩ := Option.map_eq_some_iff.1 hhead
  obtain ⟨rest, hreturns⟩ := List.head?_eq_some_iff.1 hd'
  rw [hreturns, List.find?_cons, hname, hn] at hfirst
  cases hfirst
  exact hname

end Frame

/-- What a body does to its variables and to the members of objects. -/
def variablePassage : Passage where
  world w w' := w.heap.Keeps w'.heap
  frame w f w' f' := f.Continues w.heap f' w'.heap
  refl w := .refl w.heap
  trans h h' := h.trans h'
  world_of_frame h := h.heap
  frame_of_world f h := .of_keeps f h
  frame_trans h h' := h.trans h'
  store v hs := .write (Frame.owner?_slot? hs) v
  storeItem v hs := .write (Frame.owner?_itemSlot hs) v
  alloc w i := .alloc w.heap i
  entered w _ _ _ _ _ := .refl w.heap
  printed w _ _ _ _ _ _ := .refl w.heap
  constructed w _ _ _ _ := .refl w.heap

/-- An assignment writes to the slot of its name, and fails if there is none. -/
theorem Machine.store_eq (f : Frame) (name : String) (v : Value) (w : World) :
    store f name v w =
      match f.slot? w.heap name with
      | some slot =>
        .ok (f.write w.heap name v slot).1 { w with heap := (f.write w.heap name v slot).2 }
      | none => .error (.fault (.undefinedVariable name)) w := by
  have hrun : store f name v w =
      (match f.slot? w.heap name with
      | some slot => write f name v slot
      | none => fail (.undefinedVariable name) : Machine Frame) w := rfl
  rw [hrun]
  cases f.slot? w.heap name <;> rfl

theorem Machine.exists_slot_of_store {f f' : Frame} {name : String} {v : Value} {w w' : World}
    (h : store f name v w = .ok f' w') :
    ∃ slot, f.slot? w.heap name = some slot ∧ f' = (f.write w.heap name v slot).1 := by
  rw [store_eq] at h
  split at h
  · rename_i slot hslot
    cases h
    exact ⟨slot, hslot, rfl⟩
  · cases h

section

variable {s : Setup} {n : Nat} {w w' : World} {r : String} {e : Expr}

/-- An assignment makes its target a local, if the current object has no such member. -/
theorem has_of_assign {f f' : Frame} (hlive : f.Live w.heap) (hfree : f.owner? w.heap r = none)
    (h : execStmt s n f (.assign r e) w = .ok f' w') : f'.locals.has r = true := by
  cases n with
  | zero => cases h
  | succ n =>
    rw [execStmt_assign] at h
    obtain ⟨v, w₁, hvalue, hstore⟩ := Machine.exists_of_bind h
    have hkeeps : w.heap.Keeps w₁.heap := variablePassage.sound n (.expr f e) hvalue
    obtain ⟨slot, hslot, rfl⟩ := Machine.exists_slot_of_store hstore
    have howner := Frame.owner?_slot? hslot
    rw [hlive.owner?_eq_none hkeeps rfl hfree] at howner
    cases slot with
    | member id => cases howner
    | localVariable => exact (Bindings.has_set f.locals r r v).2 (.inl rfl)

/-- So does a body that has the assignment among its statements. -/
theorem has_of_mem_assign {f f' : Frame} {body : List Stmt} (hlive : f.Live w.heap)
    (hfree : f.owner? w.heap r = none) (hassign : .assign r e ∈ body)
    (h : execBlock s n f body w = .ok f' w') : f'.locals.has r = true := by
  obtain ⟨before, after, rfl⟩ := List.append_of_mem hassign
  rw [execBlock_append] at h
  obtain ⟨f₁, w₁, hbefore, h⟩ := Machine.exists_of_bind h
  rw [execBlock_cons] at h
  obtain ⟨f₂, w₂, hstmt, hafter⟩ := Machine.exists_of_bind h
  have h₁ : f.Continues w.heap f₁ w₁.heap := variablePassage.frame_of_execBlock hbefore
  have h₂ : f₂.Continues w₂.heap f' w'.heap := variablePassage.frame_of_execBlock hafter
  have hfree₁ := hlive.owner?_eq_none h₁.heap h₁.this hfree
  exact h₂.grows r (has_of_assign (h₁.live hlive) hfree₁ hstmt)

end

/-- A member of the current object takes the place of a variable: the object has a member of the
name, and the method declares no parameter or local of the name. -/
def Method.Displaced (m : Method) (h : Heap) (this : Option ObjectId) (name : String) : Prop :=
  (∃ id ∈ this, (h.member? id name).isSome = true) ∧
    name ∉ (m.params ++ m.locals).map (·.name)

section

variable {s : Setup} {n : Nat} {route : Route} {cls : Class} {m : Method}
  {this : Option ObjectId} {args : List Value} {w w' : World} {body : List Stmt} {f : Frame}
  {r : String} {e : Expr}

/-- A method whose body runs to its end gives its results, or fails for want of one. -/
theorem invoke_of_execBlock (hbody : m.body = .statements body)
    (hcount : m.params.length = args.length)
    (hrun : execBlock s n (.ofMethod cls m this args) body
      { w with journal := .invoked route cls m args.length :: w.journal } = .ok f w') :
    invoke s (n + 1) route cls m this args w = Machine.ofExcept (f.results m) w' := by
  have hentered : Machine.record (.invoked route cls m args.length) w =
    .ok ⟨⟩ { w with journal := .invoked route cls m args.length :: w.journal } := rfl
  rw [invoke, Machine.bind_ok hentered, hbody]
  simp only [if_pos hcount]
  exact Machine.bind_ok hrun

/-- Take a method that has an assignment to one of its return variables among its statements, and a
call of it, on an object or on none, whose body runs to its end. The call does not fail for want of
this variable unless a member of the object takes the variable's place. If one does, the call fails
for want of a return variable, and of this one if it is declared first. -/
theorem invoke_of_assigned (hbody : m.body = .statements body)
    (hcount : m.params.length = args.length) (hreturn : r ∈ m.returns.map (·.name))
    (hassign : .assign r e ∈ body) (hthis : ∀ id ∈ this, ∃ i, w.heap.get? id = some i)
    (hrun : execBlock s n (.ofMethod cls m this args) body
      { w with journal := .invoked route cls m args.length :: w.journal } = .ok f w') :
    (¬ m.Displaced w.heap this r →
      ∀ w'', invoke s (n + 1) route cls m this args w ≠
        .error (.fault (.unassignedReturn m.name r)) w'') ∧
    (m.Displaced w.heap this r →
      ∃ missing, invoke s (n + 1) route cls m this args w =
          .error (.fault (.unassignedReturn m.name missing)) w' ∧
        (m.returns.head?.map (·.name) = some r → missing = r)) := by
  rw [invoke_of_execBlock hbody hcount hrun]
  have hpassed := variablePassage.frame_of_execBlock hrun
  have hends : (Frame.ofMethod cls m this args).Continues w.heap f w'.heap := hpassed
  constructor
  · intro hplace w'' herror
    have hhas : f.locals.has r = true := by
      by_cases hdeclared : r ∈ (m.params ++ m.locals).map (·.name)
      · exact hends.grows r (Frame.has_bind m.locals hcount r hdeclared)
      · have hfree : (Frame.ofMethod cls m this args).owner? w.heap r = none := by
          refine Option.eq_none_iff_forall_ne_some.2 fun id ho => hplace ⟨?_, hdeclared⟩
          exact ⟨id, Frame.owner?_eq_some_iff.1 ho⟩
        refine has_of_mem_assign ?_ ?_ hassign hrun
        · exact hthis
        · exact hfree
    cases hresults : f.results m with
    | ok vs =>
      rw [hresults] at herror
      cases herror
    | error fault =>
      rw [hresults] at herror
      cases herror
      exact Frame.results_ne_of_has hhas hresults
  · rintro ⟨⟨id, hid, hmember⟩, hdeclared⟩
    have howner : (Frame.ofMethod cls m this args).owner? w.heap r = some id :=
      Frame.owner?_eq_some_iff.2 ⟨hid, hmember⟩
    have hlost : f.locals.has r = false := by
      refine Bool.eq_false_iff.2 fun hn => hdeclared ?_
      exact Frame.mem_of_has_bind (hends.owned howner hn)
    obtain ⟨missing, hresults, hfirst⟩ := Frame.exists_results_error hreturn hlost
    rw [hresults]
    exact ⟨missing, rfl, hfirst⟩

end

namespace Meter

/-- Returns its total, after setting it. -/
def readMethod : Method :=
  { name := "read"
    isShared := false
    isPrivate := false
    isVariadic := false
    params := []
    returns := [⟨"number", "total"⟩]
    locals := []
    body := .statements [.assign "total" (.number 5)] }

def meter : Class := ⟨"Meter", [], [⟨⟨"number", "total"⟩, none, none⟩], [], [readMethod]⟩

/-- Reads a new meter and writes what it says. -/
def startMethod : Method :=
  { name := "start"
    isShared := true
    isPrivate := false
    isVariadic := false
    params := []
    returns := []
    locals := [⟨"Meter", "m"⟩, ⟨"number", "x"⟩]
    body := .statements
      [.assign "m" (.construct "Meter" []), .assign "x" (.call (some "m") "read" []),
        .call [] ⟨some "console", "write", [.var "x"]⟩] }

def meters : Program := ⟨[meter, ⟨"Main", [], [], [], [startMethod]⟩], []⟩

/-- A world with one meter. -/
def world : World := ⟨⟨#[⟨meter, ⟨[("total", .number 0)]⟩⟩]⟩, #[], []⟩

def entered : World :=
  { world with journal := .invoked .entry meter readMethod 0 :: world.journal }

theorem not_displaced_shared : ¬ readMethod.Displaced world.heap none "total" := by
  rintro ⟨⟨id, hid, -⟩, -⟩
  cases hid

theorem displaced_object : readMethod.Displaced world.heap (some 0) "total" :=
  ⟨⟨0, rfl, rfl⟩, by decide⟩

end Meter

open Meter in
/-- The same method returns its total if it runs on no object, and fails on a meter. -/
theorem invoke_of_assigned_meter :
    (∀ w, invoke ⟨⟨[meter]⟩, false⟩ 9 .entry meter readMethod none [] world ≠
      .error (.fault (.unassignedReturn "read" "total")) w) ∧
    ∃ w, invoke ⟨⟨[meter]⟩, false⟩ 9 .entry meter readMethod (some 0) [] world =
      .error (.fault (.unassignedReturn "read" "total")) w := by
  obtain ⟨f₁, w₁, hshared⟩ : ∃ f w, execBlock ⟨⟨[meter]⟩, false⟩ 8
    (.ofMethod meter readMethod none []) [.assign "total" (.number 5)] entered = .ok f w :=
      ⟨_, _, rfl⟩
  obtain ⟨f₂, w₂, hobject⟩ : ∃ f w, execBlock ⟨⟨[meter]⟩, false⟩ 8
    (.ofMethod meter readMethod (some 0) []) [.assign "total" (.number 5)] entered = .ok f w :=
      ⟨_, _, rfl⟩
  constructor
  · refine (invoke_of_assigned rfl rfl (by decide) List.mem_cons_self ?_ hshared).1 ?_
    · exact fun id hid => by cases hid
    · exact not_displaced_shared
  · have hlive : ∀ id ∈ some 0, ∃ i, world.heap.get? id = some i := by
      intro id hid
      cases hid
      exact ⟨_, rfl⟩
    obtain ⟨missing, hinvoke, hfirst⟩ :=
      (invoke_of_assigned rfl rfl (by decide) List.mem_cons_self hlive hobject).2 displaced_object
    rw [hfirst rfl] at hinvoke
    exact ⟨w₂, hinvoke⟩

open Meter in
/-- The body assigns the return variable and runs to its end, and yet the method fails for want of
it; and so does a program that reads a meter. -/
theorem assigned_return_lost :
    readMethod.returns = [⟨"number", "total"⟩] ∧
    readMethod.body = .statements [.assign "total" (.number 5)] ∧
    (∃ f w, execBlock ⟨⟨[meter]⟩, false⟩ 8 (.ofMethod meter readMethod (some 0) [])
      [.assign "total" (.number 5)] entered = .ok f w) ∧
    (∃ w, invoke ⟨⟨[meter]⟩, false⟩ 9 .entry meter readMethod (some 0) [] world =
      .error (.fault (.unassignedReturn "read" "total")) w) ∧
    meters.outcome false 12 = .failed (.unassignedReturn "read" "total") :=
  ⟨rfl, rfl, ⟨_, _, rfl⟩, ⟨_, rfl⟩, rfl⟩

end Offside
