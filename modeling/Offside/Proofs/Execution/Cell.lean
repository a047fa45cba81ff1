import Offside.Proofs.Execution.ReturnVariable

/-!
Variables as cells. A name stands for a local, a member of the current object, or both: it is read
as a local first and written as a member first. A value that was written is read back unless the
name stands for both, and nothing else changes: no other variable, no other member of the current
object, no other object. Assignments and loops write in this way and differ in what they do with a
name that stands for nothing yet.
-/
namespace Offside

namespace Heap

variable {h : Heap} {id : ObjectId} {name : String}

theorem member?_setMember_self (hm : (h.member? id name).isSome = true) (v : Value) :
    (h.setMember id name v).member? id name = some v := by
  obtain ⟨u, hu⟩ := Option.isSome_iff_exists.1 hm
  obtain ⟨i, hi, -⟩ := Option.bind_eq_some_iff.1 hu
  simp [member?, get?_setMember, hi, Bindings.get?_set]

theorem member?_setMember_of_ne {n : String} (hn : n ≠ name) (v : Value) (other : ObjectId) :
    (h.setMember id name v).member? other n = h.member? other n := by
  unfold member?
  rw [get?_setMember]
  split
  · rename_i hother
    subst hother
    cases h.get? other with
    | none => rfl
    | some i => simp [Bindings.get?_set, hn]
  · rfl

end Heap

namespace Frame

variable {f f' : Frame} {h : Heap} {w w' : World} {name : String} {v : Value}

/-- The current object has a member of this name. -/
def IsMember (f : Frame) (h : Heap) (name : String) : Prop :=
  ∃ id, f.this = some id ∧ (h.member? id name).isSome = true

theorem owner?_eq_none_iff : f.owner? h name = none ↔ ¬ f.IsMember h name := by
  rw [Option.eq_none_iff_forall_ne_some]
  constructor
  · rintro hnone ⟨id, hid⟩
    exact hnone id (owner?_eq_some_iff.2 hid)
  · intro hfree id hid
    exact hfree ⟨id, owner?_eq_some_iff.1 hid⟩

/-- Where an assignment goes: to a member if there is one, else to a local or return variable. -/
theorem slot?_eq_none_iff : f.slot? h name = none ↔
    ¬ f.IsMember h name ∧ f.locals.has name = false ∧ name ∉ f.returns := by
  rw [← owner?_eq_none_iff]
  unfold slot?
  cases f.owner? h name with
  | some id => simp
  | none => simp

/-- A written member is read unless a local hides it. -/
theorem load?_setMember {id : ObjectId} (hid : f.this = some id)
    (hm : (h.member? id name).isSome = true) (v : Value) (n : String) :
    f.load? (h.setMember id name v) n =
      if n = name then (f.locals.get? name).or (some v) else f.load? h n := by
  unfold load?
  rw [hid, Option.bind_some, Option.bind_some]
  split
  · rename_i hn
    rw [hn, Heap.member?_setMember_self hm]
  · rename_i hn
    rw [Heap.member?_setMember_of_ne hn]

/-- A written local is read. -/
theorem load?_setLocal (f : Frame) (h : Heap) (name : String) (v : Value) (n : String) :
    load? { f with locals := f.locals.set name v } h n =
      if n = name then some v else f.load? h n := by
  unfold load?
  rw [Bindings.get?_set]
  split <;> rfl

/-- What there is after a value was written under a name. -/
structure Stored (f : Frame) (w : World) (name : String) (v : Value) (f' : Frame) (w' : World) :
    Prop where
  /-- The value is read back, unless the name is both a member and a local. -/
  visible : ¬ (f.IsMember w.heap name ∧ f.locals.has name = true) →
    f'.load? w'.heap name = some v
  /-- Then the local still hides the member. -/
  hidden : f.IsMember w.heap name → f.locals.has name = true →
    f'.load? w'.heap name = f.locals.get? name
  /-- A member is written in the current object alone. -/
  member : ∀ id, f.this = some id → (w.heap.member? id name).isSome = true →
    f' = f ∧ w'.heap.member? id name = some v
  /-- Any other name is written in the locals alone. -/
  localVariable : ¬ f.IsMember w.heap name → w' = w ∧ f'.locals.get? name = some v
  load_other : ∀ n, n ≠ name → f'.load? w'.heap n = f.load? w.heap n
  local_other : ∀ n, n ≠ name → f'.locals.get? n = f.locals.get? n
  member_other : ∀ id n, f.this = some id → n ≠ name →
    w'.heap.member? id n = w.heap.member? id n
  object_other : ∀ id, f.this ≠ some id → w'.heap.get? id = w.heap.get? id
  object_cls : ∀ id, (w'.heap.get? id).map (·.cls) = (w.heap.get? id).map (·.cls)
  frame_rest : f'.cls = f.cls ∧ f'.this = f.this ∧ f'.returns = f.returns
  world_rest : w'.console = w.console ∧ w'.journal = w.journal

theorem stored_member {id : ObjectId} (hid : f.this = some id)
    (hm : (w.heap.member? id name).isSome = true) (v : Value) :
    f.Stored w name v f { w with heap := w.heap.setMember id name v } where
  visible hfree := by
    have hlocal : f.locals.get? name = none :=
      Option.not_isSome_iff_eq_none.1 fun hlocal => hfree ⟨⟨id, hid, hm⟩, hlocal⟩
    rw [load?_setMember hid hm, if_pos rfl, hlocal]
    rfl
  hidden _ hlocal := by
    obtain ⟨u, hu⟩ := Option.isSome_iff_exists.1 hlocal
    rw [load?_setMember hid hm, if_pos rfl, hu]
    rfl
  member other hother _ := by
    cases hid.symm.trans hother
    exact ⟨rfl, Heap.member?_setMember_self hm v⟩
  localVariable hfree := absurd ⟨id, hid, hm⟩ hfree
  load_other n hn := by rw [load?_setMember hid hm, if_neg hn]
  local_other _ _ := rfl
  member_other other n _ hn := Heap.member?_setMember_of_ne hn v other
  object_other other hother := by
    have hne : other ≠ id := fun heq => hother (heq ▸ hid)
    rw [Heap.get?_setMember, if_neg hne]
  object_cls other := by
    rw [Heap.get?_setMember]
    split
    · rename_i heq
      rw [heq, Option.map_map]
      rfl
    · rfl
  frame_rest := ⟨rfl, rfl, rfl⟩
  world_rest := ⟨rfl, rfl⟩

theorem stored_local (hfree : ¬ f.IsMember w.heap name) (v : Value) :
    f.Stored w name v { f with locals := f.locals.set name v } w where
  visible _ := by rw [load?_setLocal, if_pos rfl]
  hidden hmember := absurd hmember hfree
  member id hid hm := absurd ⟨id, hid, hm⟩ hfree
  localVariable _ := ⟨rfl, by rw [Bindings.get?_set, if_pos rfl]⟩
  load_other n hn := by rw [load?_setLocal, if_neg hn]
  local_other n hn := by rw [Bindings.get?_set, if_neg hn]
  member_other _ _ _ _ := rfl
  object_other _ _ := rfl
  object_cls _ := rfl
  frame_rest := ⟨rfl, rfl, rfl⟩
  world_rest := ⟨rfl, rfl⟩

/-- A value is written to a member of the current object if there is one of the name, and else to a
local. -/
theorem stored_write {slot : Slot} (hs : f.owner? w.heap name = slot.owner?) (v : Value) :
    f.Stored w name v (f.write w.heap name v slot).1
      { w with heap := (f.write w.heap name v slot).2 } := by
  cases slot with
  | member id =>
    obtain ⟨hid, hm⟩ := owner?_eq_some_iff.1 hs
    exact stored_member hid hm v
  | localVariable => exact stored_local (owner?_eq_none_iff.1 hs) v

end Frame

/-- An assignment fails, and then leaves everything as it was, if and only if its name is no member
of the current object, no local and no return variable. A value that is assigned, and an item that a
loop stores under its variable, is read back unless the name is both a member and a local, and no
other cell changes. -/
theorem store_cells (f : Frame) (w : World) (name : String) (v : Value) :
    ((∃ e w', Machine.store f name v w = .error e w') ↔
      ¬ f.IsMember w.heap name ∧ f.locals.has name = false ∧ name ∉ f.returns) ∧
    (∀ e w', Machine.store f name v w = .error e w' →
      e = .fault (.undefinedVariable name) ∧ w' = w) ∧
    (∀ f' w', Machine.store f name v w = .ok f' w' → f.Stored w name v f' w') ∧
    ∃ f' w', Machine.storeItem f v (some name) w = .ok f' w' ∧ f.Stored w name v f' w' := by
  rw [Machine.store_eq]
  refine ⟨?_, ?_, ?_, ?_⟩
  · rw [← Frame.slot?_eq_none_iff]
    cases f.slot? w.heap name <;> simp
  · intro e w' herror
    split at herror <;> cases herror
    exact ⟨rfl, rfl⟩
  · intro f' w' hok
    split at hok <;> cases hok
    exact Frame.stored_write (Frame.owner?_slot? ‹_›) v
  · exact ⟨_, _, rfl, Frame.stored_write (Frame.owner?_itemSlot rfl) v⟩

namespace Cell

/-- An object with two members, and a local under the name of the first. -/
def frame : Frame := ⟨consoleClass, some 0, ⟨[("x", .boolean true)]⟩, ["r"]⟩

def world : World := ⟨⟨#[⟨consoleClass, ⟨[("x", .unbound), ("y", .unbound)]⟩⟩]⟩, #[], []⟩

/-- The world with a character in a member. -/
def changed (name : String) : World :=
  { world with heap := world.heap.setMember 0 name (.character 'a') }

theorem isMember_x : frame.IsMember world.heap "x" := ⟨0, rfl, rfl⟩

end Cell

open Cell in
theorem store_cells_hidden :
    Machine.store frame "x" (.character 'a') world = .ok frame (changed "x") ∧
    frame.load? (changed "x").heap "x" = some (.boolean true) ∧
    (changed "x").heap.member? 0 "x" = some (.character 'a') ∧
    frame.load? (changed "y").heap "y" = some (.character 'a') ∧
    frame.load? (changed "y").heap "x" = some (.boolean true) ∧
    (∃ e w', Machine.store frame "z" .unbound world = .error e w') := by
  have hhidden := (store_cells frame world "x" (.character 'a')).2.2.1 frame (changed "x") rfl
  have hvisible := (store_cells frame world "y" (.character 'a')).2.2.1 frame (changed "y") rfl
  have hfree : ¬ frame.IsMember world.heap "z" := Frame.owner?_eq_none_iff.1 rfl
  refine ⟨rfl, hhidden.hidden isMember_x rfl, (hhidden.member 0 rfl rfl).2, ?_, ?_, ?_⟩
  · exact hvisible.visible fun hboth => Bool.false_ne_true hboth.2
  · exact hvisible.load_other "x" (by decide)
  · exact (store_cells frame world "z" .unbound).1.2 ⟨hfree, rfl, by decide⟩

end Offside
