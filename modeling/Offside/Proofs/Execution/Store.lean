import Mathlib.Data.List.Induction
import Offside.Execution.Evaluate

/-!
What the stores of a run hold after they change: bindings after one name is bound, the heap after a
member is written or an object is made, the locals of a frame at its start and the members of a new
object. A heap extends another if it has the same objects, of the same classes, and perhaps more.
-/
namespace Offside

/-- A value that is no object and refers to none. -/
def Value.Plain : Value → Prop
  | .object _ | .bound _ => False
  | _ => True

theorem Value.plain_default (typeName : String) : (Value.default typeName).Plain := by
  unfold Value.default
  split <;> trivial

theorem Value.Plain.object? {v : Value} (h : v.Plain) : v.object? = none := by
  cases v <;> first | rfl | exact h.elim

theorem LogicOp.plain_apply {op : LogicOp} {h : Heap} {a b v : Value}
    (hv : op.apply h a b = .ok v) : v.Plain := by
  unfold LogicOp.apply at hv
  split at hv <;> cases hv
  trivial

theorem CompareOp.plain_apply {op : CompareOp} {h : Heap} {a b v : Value}
    (hv : op.apply h a b = .ok v) : v.Plain := by
  unfold CompareOp.apply at hv
  split at hv <;> cases hv
  trivial

theorem ArithOp.plain_apply {op : ArithOp} {h : Heap} {a b v : Value}
    (hv : op.apply h a b = .ok v) : v.Plain := by
  unfold ArithOp.apply at hv
  split at hv <;> cases hv <;> trivial

namespace Bindings

theorem get?_empty (name : String) : empty.get? name = none := rfl

theorem has_set (b : Bindings) (name n : String) (v : Value) :
    (b.set name v).has n = true ↔ n = name ∨ b.has n = true := by
  unfold has
  rw [get?_set]
  split <;> simp [*]

end Bindings

namespace Heap

def size (h : Heap) : Nat := h.instances.size

theorem get?_eq_none_iff {h : Heap} {id : ObjectId} : h.get? id = none ↔ h.size ≤ id :=
  Array.getElem?_eq_none_iff

theorem lt_size_of_get? {h : Heap} {id : ObjectId} {i : Instance} (hi : h.get? id = some i) :
    id < h.size := by
  by_contra hge
  rw [get?_eq_none_iff.2 (Nat.le_of_not_lt hge)] at hi
  cases hi

theorem get?_setMember (h : Heap) (id : ObjectId) (name : String) (v : Value) (other : ObjectId) :
    (h.setMember id name v).get? other =
      if other = id then (h.get? id).map fun i => { i with members := i.members.set name v }
      else h.get? other := by
  unfold setMember get?
  rw [Array.getElem?_modify]
  by_cases heq : other = id
  · simp [heq]
  · simp [heq, Ne.symm heq]

theorem size_setMember (h : Heap) (id : ObjectId) (name : String) (v : Value) :
    (h.setMember id name v).size = h.size :=
  Array.size_modify

theorem member?_setMember {h : Heap} {id : ObjectId} {name : String} {v w : Value}
    {other : ObjectId} {n : String} (hw : (h.setMember id name v).member? other n = some w) :
    other = id ∧ n = name ∧ w = v ∨ h.member? other n = some w := by
  obtain ⟨i, hi, hw⟩ := Option.bind_eq_some_iff.1 hw
  rw [get?_setMember] at hi
  split at hi
  · rename_i heq
    obtain ⟨j, hj, rfl⟩ := Option.map_eq_some_iff.1 hi
    rw [Bindings.get?_set] at hw
    split at hw
    · exact .inl ⟨heq, ‹_›, (Option.some.inj hw).symm⟩
    · exact .inr (Option.bind_eq_some_iff.2 ⟨j, heq ▸ hj, hw⟩)
  · exact .inr (Option.bind_eq_some_iff.2 ⟨i, hi, hw⟩)

theorem get?_alloc (h : Heap) (i : Instance) (id : ObjectId) :
    (h.alloc i).2.get? id = if id = h.size then some i else h.get? id :=
  Array.getElem?_push

theorem size_alloc (h : Heap) (i : Instance) : (h.alloc i).2.size = h.size + 1 :=
  Array.size_push i

theorem member?_alloc {h : Heap} {i : Instance} {id : ObjectId} {name : String} {v : Value}
    (hv : (h.alloc i).2.member? id name = some v) :
    id = h.size ∧ i.members.get? name = some v ∨ h.member? id name = some v := by
  obtain ⟨j, hj, hv⟩ := Option.bind_eq_some_iff.1 hv
  rw [get?_alloc] at hj
  split at hj
  · cases hj
    exact .inl ⟨‹_›, hv⟩
  · exact .inr (Option.bind_eq_some_iff.2 ⟨j, hj, hv⟩)

/-- The objects of a heap are in the other one too, and of the same classes. -/
def Extends (h h' : Heap) : Prop :=
  ∀ id i, h.get? id = some i → ∃ j, h'.get? id = some j ∧ j.cls = i.cls

namespace Extends

theorem refl (h : Heap) : Extends h h := fun _ i hi => ⟨i, hi, rfl⟩

theorem trans {h h' h'' : Heap} (h₁ : Extends h h') (h₂ : Extends h' h'') : Extends h h'' := by
  intro id i hi
  obtain ⟨j, hj, hcls⟩ := h₁ id i hi
  obtain ⟨k, hk, hcls'⟩ := h₂ id j hj
  exact ⟨k, hk, hcls'.trans hcls⟩

theorem setMember (h : Heap) (id : ObjectId) (name : String) (v : Value) :
    Extends h (h.setMember id name v) := by
  intro other i hi
  rw [get?_setMember]
  split
  · rename_i heq
    subst heq
    exact ⟨{ i with members := i.members.set name v }, by rw [hi]; rfl, rfl⟩
  · exact ⟨i, hi, rfl⟩

theorem alloc (h : Heap) (i : Instance) : Extends h (h.alloc i).2 := by
  intro id j hj
  have hne : id ≠ h.size := Nat.ne_of_lt (lt_size_of_get? hj)
  rw [get?_alloc, if_neg hne]
  exact ⟨j, hj, rfl⟩

end Extends

end Heap

namespace Bindings

/-- Every value that is bound has the property. -/
def All (P : String → Value → Prop) (b : Bindings) : Prop :=
  ∀ name v, b.get? name = some v → P name v

variable {P : String → Value → Prop} {b : Bindings}

theorem All.empty : Bindings.empty.All P := by
  intro name v hv
  cases hv

theorem All.set (h : b.All P) {name : String} {v : Value} (hv : P name v) :
    (b.set name v).All P := by
  intro n w hw
  rw [get?_set] at hw
  split at hw
  · cases hw
    rename_i heq
    exact heq ▸ hv
  · exact h n w hw

end Bindings

theorem exists_of_mem_mapM_ok {ε α β : Type} {g : α → Except ε β} {l : List α} {bs : List β}
    (h : l.mapM g = .ok bs) : ∀ b ∈ bs, ∃ a ∈ l, g a = .ok b := by
  induction l generalizing bs with
  | nil =>
    rw [List.mapM_nil] at h
    cases h
    simp
  | cons a l ih =>
    rw [List.mapM_cons] at h
    cases ha : g a with
    | error e =>
      rw [ha] at h
      cases h
    | ok b =>
      rw [ha] at h
      cases hl : l.mapM g with
      | error e =>
        rw [hl] at h
        cases h
      | ok rest =>
        rw [hl] at h
        cases h
        intro c hc
        rcases List.mem_cons.1 hc with rfl | hc
        · exact ⟨a, List.mem_cons_self, ha⟩
        · obtain ⟨a', ha', hg⟩ := ih hl c hc
          exact ⟨a', List.mem_cons_of_mem a ha', hg⟩

namespace Frame

/-- The locals at the start of a body hold arguments and defaults. -/
theorem all_bind (params locals : List Declaration) (args : List Value) :
    (bind params args locals).All fun _ v => v ∈ args ∨ v.Plain := by
  refine List.foldlRecOn locals _ ?_ ?_
  · refine List.foldlRecOn (params.zip args) _ .empty ?_
    intro b hb p hp
    exact hb.set (.inl (List.of_mem_zip hp).2)
  · intro b hb d _
    split
    · exact hb
    · exact hb.set (.inr (Value.plain_default _))

/-- A body starts with no variables but its own. -/
theorem mem_of_has_bind {params locals : List Declaration} {args : List Value} {name : String}
    (hn : (bind params args locals).has name = true) :
    name ∈ (params ++ locals).map (·.name) := by
  have hall : (bind params args locals).All fun n _ => n ∈ (params ++ locals).map (·.name) := by
    refine List.foldlRecOn locals _ ?_ ?_
    · refine List.foldlRecOn (params.zip args) _ .empty fun b hb p hp => hb.set ?_
      exact List.mem_map_of_mem (List.mem_append_left _ (List.of_mem_zip hp).1)
    · intro b hb d hd
      split
      · exact hb
      · exact hb.set (List.mem_map_of_mem (List.mem_append_right _ hd))
  obtain ⟨v, hv⟩ := Option.isSome_iff_exists.1 hn
  exact hall name v hv

/-- Declaring variables gives each its default, unless the name has a value already. -/
theorem get?_declare (locals : List Declaration) (b : Bindings) (name : String) :
    (locals.foldl (fun b d => if b.has d.name then b else b.set d.name (.default d.typeName))
      b).get? name =
      (b.get? name).or ((locals.find? (·.name == name)).map fun d => .default d.typeName) := by
  induction locals generalizing b with
  | nil => simp
  | cons d locals ih =>
    rw [List.foldl_cons, ih, List.find?_cons]
    by_cases hname : d.name = name
    · subst hname
      cases hget : b.get? d.name <;> simp [Bindings.has, hget, Bindings.get?_set]
    · rw [beq_false_of_ne hname]
      split
      · rfl
      · rw [Bindings.get?_set, if_neg (Ne.symm hname)]

theorem get?_bindAll_of_ne {pairs : List (Declaration × Value)} {name : String}
    (h : ∀ x ∈ pairs, x.1.name ≠ name) (b : Bindings) :
    (pairs.foldl (fun b x => b.set x.1.name x.2) b).get? name = b.get? name := by
  induction pairs generalizing b with
  | nil => rfl
  | cons x pairs ih =>
    rw [List.foldl_cons, ih (fun y hy => h y (List.mem_cons_of_mem x hy)), Bindings.get?_set,
      if_neg (Ne.symm (h x List.mem_cons_self))]

/-- Each parameter's name is bound to its own argument, unless a later parameter has the name. -/
theorem get?_bindAll {params : List Declaration} {args : List Value} {i : Nat} {p : Declaration}
    {v : Value} (hp : params[i]? = some p) (hv : args[i]? = some v)
    (hlast : ∀ j q, i < j → params[j]? = some q → q.name ≠ p.name) (b : Bindings) :
    ((params.zip args).foldl (fun b x => b.set x.1.name x.2) b).get? p.name = some v := by
  induction params generalizing args i b with
  | nil => cases hp
  | cons q params ih =>
    cases args with
    | nil => cases hv
    | cons u args =>
      rw [List.zip_cons_cons, List.foldl_cons]
      cases i with
      | zero =>
        cases hp
        cases hv
        rw [get?_bindAll_of_ne, Bindings.get?_set, if_pos rfl]
        intro x hx
        obtain ⟨j, hj⟩ := List.getElem?_of_mem (List.of_mem_zip hx).1
        exact hlast (j + 1) x.1 (Nat.succ_pos j) hj
      | succ i => exact ih hp hv (fun j q hj hq => hlast (j + 1) q (Nat.succ_lt_succ hj) hq) _

/-- A member of a new object has the value of a variable of its name, or a default. -/
theorem all_newMembers (f : Frame) (h : Heap) (members : List Member) :
    (f.newMembers h members).All fun name v => f.load? h name = some v ∨ v.Plain := by
  refine List.foldlRecOn members _ .empty ?_
  intro b hb m _
  refine hb.set ?_
  cases hload : f.load? h m.declaration.name with
  | none => exact .inr (Value.plain_default _)
  | some v => exact .inl rfl

/-- A new object has the members that its class declares. -/
theorem has_newMembers (f : Frame) (h : Heap) (members : List Member) (name : String) :
    (f.newMembers h members).has name = true ↔ ∃ m ∈ members, m.declaration.name = name := by
  unfold newMembers
  induction members using List.reverseRecOn with
  | nil => simp [Bindings.has, Bindings.get?_empty]
  | append_singleton members m ih =>
    rw [List.foldl_append, List.foldl_cons, List.foldl_nil, Bindings.has_set, ih]
    constructor
    · rintro (rfl | ⟨m', hm', hname⟩)
      · exact ⟨m, by simp, rfl⟩
      · exact ⟨m', by simp [hm'], hname⟩
    · rintro ⟨m', hm', hname⟩
      rcases List.mem_append.1 hm' with hm' | hm'
      · exact .inr ⟨m', hm', hname⟩
      · rw [List.mem_singleton.1 hm'] at hname
        exact .inl hname.symm

/-- The results of a method are values of its locals. -/
theorem get?_of_mem_results {f : Frame} {m : Method} {vs : List Value} (h : f.results m = .ok vs) :
    ∀ v ∈ vs, ∃ name, f.locals.get? name = some v := by
  intro v hv
  obtain ⟨d, -, hd⟩ := exists_of_mem_mapM_ok h v hv
  split at hd <;> cases hd
  exact ⟨d.name, ‹_›⟩

theorem owner?_of_slot? {f : Frame} {h : Heap} {name : String} {id : ObjectId}
    (hs : f.slot? h name = some (.member id)) : f.owner? h name = some id := by
  unfold slot? at hs
  split at hs
  · cases hs
    assumption
  · split at hs <;> cases hs

theorem owner?_of_itemSlot {f : Frame} {h : Heap} {name : String} {id : ObjectId}
    (hs : f.itemSlot h name = .member id) : f.owner? h name = some id := by
  unfold itemSlot at hs
  split at hs <;> cases hs
  assumption

end Frame

end Offside
