import Offside.Proofs.Execution.Invariant

/-!
What code can touch. Code knows the objects that its variables and its current object name, and
those that it reaches from them through members. All other objects that were there before it ran
are as they were, and code hands on only objects that it could reach or that it made.
-/
namespace Offside

/-- The objects that members lead to from the roots. -/
inductive Heap.Reachable (h : Heap) (roots : ObjectId → Prop) : ObjectId → Prop where
  | root {id : ObjectId} : roots id → Reachable h roots id
  | member {owner id : ObjectId} {name : String} {v : Value} : Reachable h roots owner →
      h.member? owner name = some v → v.object? = some id → Reachable h roots id

/-- The objects that a list of values names. -/
def Names (vs : List Value) (id : ObjectId) : Prop := ∃ v ∈ vs, v.object? = some id

/-- The current object of a frame and the objects that its variables name. -/
def Frame.Names (f : Frame) (id : ObjectId) : Prop :=
  f.this = some id ∨ ∃ name v, f.locals.get? name = some v ∧ v.object? = some id

/-- The receiver of a call and the objects that its arguments name. -/
def CallNames (this : Option ObjectId) (args : List Value) (id : ObjectId) : Prop :=
  this = some id ∨ Names args id

/-- A run between two heaps that knew the roots kept to what they reach: it left all else as it was
and hands on only what it could reach or made itself. -/
structure Heap.Isolated (h h' : Heap) (roots handed : ObjectId → Prop) : Prop where
  kept : ∀ id < h.size, ¬ h.Reachable roots id → h'.get? id = h.get? id
  handed : ∀ id, handed id → h.Reachable roots id ∨ h.size ≤ id ∧ id < h'.size

namespace Isolation

/-- An object that code with these roots in the first heap can come to know. -/
def Known (h : Heap) (roots : ObjectId → Prop) (w : World) (id : ObjectId) : Prop :=
  h.Reachable roots id ∨ h.size ≤ id ∧ id < w.heap.size

variable {h : Heap} {roots : ObjectId → Prop} {w w' : World}

theorem Known.mono {id : ObjectId} (ho : Known h roots w id) (hl : w.heap.size ≤ w'.heap.size) :
    Known h roots w' id :=
  ho.imp_right fun hnew => ⟨hnew.1, Nat.lt_of_lt_of_le hnew.2 hl⟩

/-- The members of known objects name known objects, and unknown objects are as they were. -/
structure Confined (h : Heap) (roots : ObjectId → Prop) (w : World) : Prop where
  size_le : h.size ≤ w.heap.size
  closed : ∀ {owner name v id}, Known h roots w owner → w.heap.member? owner name = some v →
    v.object? = some id → Known h roots w id
  kept : ∀ id < h.size, ¬ h.Reachable roots id → w.heap.get? id = h.get? id

theorem Confined.start (w : World) (roots : ObjectId → Prop) : Confined w.heap roots w where
  size_le := Nat.le_refl _
  closed := by
    intro owner name v id hknown hmember hid
    rcases hknown with hreach | ⟨hge, hlt⟩
    · exact .inl (hreach.member hmember hid)
    · exact absurd hlt (Nat.not_lt.2 hge)
  kept _ _ _ := rfl

theorem Confined.setMember (hw : Confined h roots w) {id : ObjectId} {name : String} {v : Value}
    (hknown : Known h roots w id) (hv : ∀ id, v.object? = some id → Known h roots w id) :
    Confined h roots { w with heap := w.heap.setMember id name v } := by
  have hsize : (w.heap.setMember id name v).size = w.heap.size := w.heap.size_setMember id name v
  refine ⟨hsize ▸ hw.size_le, fun {owner n u target} hown hmember htarget => ?_,
    fun other hlt hother => ?_⟩
  · refine Known.mono ?_ (Nat.le_of_eq hsize.symm)
    rcases Heap.member?_setMember hmember with ⟨-, -, rfl⟩ | hold
    · exact hv target htarget
    · exact hw.closed (hown.mono (Nat.le_of_eq hsize)) hold htarget
  · -- The object that is written is known, so it is not the unknown one.
    have hne : other ≠ id := by
      rintro rfl
      rcases hknown with hreach | ⟨hge, -⟩
      · exact hother hreach
      · exact absurd hlt (Nat.not_lt.2 hge)
    rw [Heap.get?_setMember, if_neg hne]
    exact hw.kept other hlt hother

theorem Confined.alloc (hw : Confined h roots w) {i : Instance}
    (hi : i.members.All fun _ v => ∀ id, v.object? = some id → Known h roots w id) :
    Confined h roots { w with heap := (w.heap.alloc i).2 } := by
  have hsize : (w.heap.alloc i).2.size = w.heap.size + 1 := w.heap.size_alloc i
  have hle : w.heap.size ≤ (w.heap.alloc i).2.size := by omega
  refine ⟨Nat.le_trans hw.size_le hle, fun {owner n u target} hown hmember htarget => ?_,
    fun other hlt hother => ?_⟩
  · refine Known.mono ?_ hle
    rcases Heap.member?_alloc hmember with ⟨-, hnew⟩ | hold
    · exact hi n u hnew target htarget
    · -- Its owner has members, so it was there before and was known then.
      obtain ⟨j, hj, -⟩ := Option.bind_eq_some_iff.1 hold
      have howner : Known h roots w owner :=
        hown.imp_right fun hnew => ⟨hnew.1, Heap.lt_size_of_get? hj⟩
      exact hw.closed howner hold htarget
  · have hne : other ≠ w.heap.size := Nat.ne_of_lt (Nat.lt_of_lt_of_le hlt hw.size_le)
    rw [Heap.get?_alloc, if_neg hne]
    exact hw.kept other hlt hother

/-- Code that starts with known objects only comes to know known objects only. -/
def confinement (s : Setup) (h : Heap) (roots : ObjectId → Prop) : Invariant s where
  world := Confined h roots
  later w w' := w.heap.size ≤ w'.heap.size
  value w v := ∀ id, v.object? = some id → Known h roots w id
  owner w _ this := ∀ id, this = some id → Known h roots w id
  event _ := True
  refl _ := Nat.le_refl _
  trans := Nat.le_trans
  value_later hl hv id hid := (hv id hid).mono hl
  owner_later hl ho id hid := (ho id hid).mono hl
  plain hv id hid := by
    rw [hv.object?] at hid
    cases hid
  member hw ho hmember id hid := hw.closed (ho _ rfl) hmember hid
  self ho id hid := ho id hid
  receiver hw hv hid _ id heq := Option.some.inj heq ▸ hv _ hid
  shared _ id hid := by cases hid
  legit _ := trivial
  record hw _ := ⟨⟨hw.size_le, hw.closed, hw.kept⟩, Nat.le_refl _⟩
  print _ hw := ⟨⟨hw.size_le, hw.closed, hw.kept⟩, Nat.le_refl _⟩
  setMember hw ho _ hv :=
    ⟨hw.setMember (ho _ rfl) hv, Nat.le_of_eq (Heap.size_setMember _ _ _ _).symm⟩
  alloc {w cls members} hw _ hmembers _ := by
    have hlt : w.heap.size < (w.heap.alloc ⟨cls, members⟩).2.size := by
      rw [Heap.size_alloc]
      omega
    refine ⟨hw.alloc hmembers, Nat.le_of_lt hlt, fun id hid => ?_⟩
    cases hid
    exact .inr ⟨hw.size_le, hlt⟩

/-- What a computation that keeps to known objects leaves and hands on. -/
theorem isolated_of_keeps {s : Setup} {α : Type} {x : Machine α} {a : α}
    {Q : α → World → Prop} (hx : (confinement s w.heap roots).Keeps w x Q) (hrun : x w = .ok a w')
    {handed : ObjectId → Prop} (hq : Q a w' → ∀ id, handed id → Known w.heap roots w' id) :
    w.heap.Isolated w'.heap roots handed := by
  have hconfined : Confined w.heap roots w' := Machine.final_ok hrun ▸ hx.world
  exact ⟨hconfined.kept, hq (hx.result hrun)⟩

theorem frame_start (s : Setup) (w : World) (f : Frame) :
    (confinement s w.heap f.Names).frame w f where
  owner _ hid := .inl (.root (.inl hid))
  locals name v hv _ hid := .inl (.root (.inr ⟨name, v, hv, hid⟩))

theorem known_of_names {s : Setup} {f : Frame} (hf : (confinement s h roots).frame w f) :
    ∀ id, f.Names id → Known h roots w id := by
  rintro id (hthis | ⟨name, v, hv, hid⟩)
  · exact hf.owner id hthis
  · exact hf.locals name v hv id hid

end Isolation

open Isolation in
/-- Running a block, evaluating an expression and invoking a method keep to the objects that can be
reached from what they start with. -/
theorem execution_isolated (s : Setup) (n : Nat) (w w' : World) :
    (∀ f body f', execBlock s n f body w = .ok f' w' →
      w.heap.Isolated w'.heap f.Names f'.Names) ∧
    (∀ f e v, evalExpr s n f e w = .ok v w' → w.heap.Isolated w'.heap f.Names (Names [v])) ∧
    (∀ route cls m this args vs, invoke s n route cls m this args w = .ok vs w' →
      w.heap.Isolated w'.heap (CallNames this args) (Names vs)) := by
  refine ⟨fun f body f' hrun => ?_, fun f e v hrun => ?_,
    fun route cls m this args vs hrun => ?_⟩
  · have hsafe := Invariant.Safe.stmts (J := confinement s w.heap f.Names) (.start w _)
      (frame_start s w f) body
    have hkeeps := hsafe.keeps (Invariant.sound _ n)
    rw [Code.run_stmts] at hkeeps
    exact isolated_of_keeps hkeeps hrun known_of_names
  · have hkeeps := (confinement s w.heap f.Names).sound n (.expr f e) w (.start w _)
      (frame_start s w f)
    refine isolated_of_keeps hkeeps hrun fun hv id hid => ?_
    obtain ⟨u, hu, hid⟩ := hid
    exact hv id (List.mem_singleton.1 hu ▸ hid)
  · have hkeeps := (confinement s w.heap (CallNames this args)).sound n
      (.invoke route cls m this args) w (.start w _)
      ⟨fun id hid => .inl (.root (.inl hid)),
        fun v hv id hid => .inl (.root (.inr ⟨v, hv, hid⟩)), trivial⟩
    refine isolated_of_keeps hkeeps hrun fun hvs id hid => ?_
    obtain ⟨v, hv, hid⟩ := hid
    exact hvs v hv id hid

namespace Isolation

/-- Puts a new cell behind the current one. -/
def grow : Method :=
  { name := "grow"
    isShared := false
    isPrivate := false
    isVariadic := false
    params := []
    returns := [⟨"Cell", "fresh"⟩]
    locals := []
    body := .statements [.assign "next" (.construct "Cell" []), .assign "fresh" (.var "next")] }

/-- A class of list cells. -/
def cell : Class := ⟨"Cell", [], [⟨⟨"Cell", "next"⟩, none, none⟩], [], [grow]⟩

/-- Three cells: the first leads to the second, and the third to the first. -/
def cells : World :=
  ⟨⟨#[⟨cell, ⟨[("next", .object 1)]⟩⟩, ⟨cell, ⟨[("next", .unbound)]⟩⟩,
    ⟨cell, ⟨[("next", .object 0)]⟩⟩]⟩, #[], []⟩

/-- The second cell leads nowhere. -/
theorem eq_one_of_reachable {roots : ObjectId → Prop} (hroots : ∀ id, roots id → id = 1)
    {id : ObjectId} (h : cells.heap.Reachable roots id) : id = 1 := by
  induction h with
  | root hid => exact hroots _ hid
  | @member owner id name v _ hmember hid howner =>
    subst howner
    have hlookup : List.lookup name [("next", Value.unbound)] = some v := hmember
    rw [List.lookup_cons] at hlookup
    split at hlookup <;> cases hlookup
    cases hid

def second : Frame := ⟨cell, some 1, .empty, ["fresh"]⟩

theorem eq_one_of_names {id : ObjectId} (h : second.Names id) : id = 1 := by
  rcases h with hthis | ⟨name, v, hv, -⟩
  · exact (Option.some.inj hthis).symm
  · cases hv

theorem eq_one_of_callNames {id : ObjectId} (h : CallNames (some 1) [] id) : id = 1 := by
  rcases h with hthis | ⟨v, hv, -⟩
  · exact (Option.some.inj hthis).symm
  · cases hv

end Isolation

open Isolation in
theorem execution_isolated_grow :
    (∃ f' w', execBlock ⟨⟨[cell]⟩, false⟩ 9 second [.call ["fresh"] ⟨none, "grow", []⟩] cells =
        .ok f' w' ∧ w'.heap.get? 2 = cells.heap.get? 2) ∧
    (∃ v w', evalExpr ⟨⟨[cell]⟩, false⟩ 9 second (.construct "Cell" []) cells = .ok v w' ∧
        w'.heap.get? 2 = cells.heap.get? 2) ∧
    ∃ vs w', invoke ⟨⟨[cell]⟩, false⟩ 9 (.call .own cell) cell grow (some 1) [] cells =
        .ok vs w' ∧ w'.heap.get? 2 = cells.heap.get? 2 := by
  have hframe : ¬ cells.heap.Reachable second.Names 2 := fun h =>
    absurd (eq_one_of_reachable (fun _ => eq_one_of_names) h) (by decide)
  have hcall : ¬ cells.heap.Reachable (CallNames (some 1) []) 2 := fun h =>
    absurd (eq_one_of_reachable (fun _ => eq_one_of_callNames) h) (by decide)
  obtain ⟨f', w₁, hblock⟩ : ∃ f' w', execBlock ⟨⟨[cell]⟩, false⟩ 9 second
    [.call ["fresh"] ⟨none, "grow", []⟩] cells = .ok f' w' := ⟨_, _, rfl⟩
  obtain ⟨v, w₂, hexpr⟩ : ∃ v w', evalExpr ⟨⟨[cell]⟩, false⟩ 9 second (.construct "Cell" []) cells =
    .ok v w' := ⟨_, _, rfl⟩
  obtain ⟨vs, w₃, hinvoke⟩ : ∃ vs w', invoke ⟨⟨[cell]⟩, false⟩ 9 (.call .own cell) cell grow
    (some 1) [] cells = .ok vs w' := ⟨_, _, rfl⟩
  refine ⟨⟨f', w₁, hblock, ?_⟩, ⟨v, w₂, hexpr, ?_⟩, ⟨vs, w₃, hinvoke, ?_⟩⟩
  · exact ((execution_isolated _ _ _ _).1 _ _ _ hblock).kept 2 (by decide) hframe
  · exact ((execution_isolated _ _ _ _).2.1 _ _ _ hexpr).kept 2 (by decide) hframe
  · exact ((execution_isolated _ _ _ _).2.2 _ _ _ _ _ _ hinvoke).kept 2 (by decide) hcall

end Offside
