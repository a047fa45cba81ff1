import Offside.Proofs.Execution.Moment

/-!
How a run represents its objects. At every moment of every run, all objects that values name were
made before, each has the members that its class declares and no others, and the class of a frame
is the class of its current object. Bound references never come up, so every value stands for
itself.
-/
namespace Offside

/-- The value stands for itself and names no object that was not made. -/
structure Value.Valid (h : Heap) (v : Value) : Prop where
  not_bound : ∀ target, v ≠ .bound target
  resolved : v.resolved = v
  made : ∀ id, v.object? = some id → ∃ i, h.get? id = some i

/-- The object is of a class that the context has under its name, with the members of this class. -/
structure Instance.Valid (ctx : Context) (h : Heap) (i : Instance) : Prop where
  known : ctx.find? i.cls.name = some i.cls
  keys : ∀ name, i.members.has name = true ↔ ∃ m ∈ i.cls.members, m.declaration.name = name
  values : i.members.All fun _ v => v.Valid h

/-- The frame is of a class that the context has, which is the class of its current object. -/
structure Frame.Valid (ctx : Context) (h : Heap) (f : Frame) : Prop where
  known : ctx.find? f.cls.name = some f.cls
  this : ∀ id, f.this = some id → ∃ i, h.get? id = some i ∧ i.cls = f.cls
  locals : f.locals.All fun _ v => v.Valid h

def Datum.Valid (ctx : Context) (h : Heap) : Datum → Prop
  | frame f => f.Valid ctx h
  | value v => v.Valid h

/-- All objects are valid, and so is all that is in hand. -/
structure Setup.Represents (s : Setup) (w : World) (ds : List Datum) : Prop where
  objects : ∀ id i, w.heap.get? id = some i → i.Valid s.context w.heap
  data : ∀ d ∈ ds, d.Valid s.context w.heap

namespace Value

variable {h h' : Heap} {v : Value}

theorem Valid.mono (hv : v.Valid h) (hh : h.Extends h') : v.Valid h' where
  not_bound := hv.not_bound
  resolved := hv.resolved
  made id hid := by
    obtain ⟨i, hi⟩ := hv.made id hid
    obtain ⟨j, hj, -⟩ := hh id i hi
    exact ⟨j, hj⟩

theorem Valid.of_plain (hv : v.Plain) : v.Valid h := by
  refine ⟨?_, ?_, fun id hid => ?_⟩
  · rintro target rfl
    exact hv
  · cases v <;> first | rfl | exact hv.elim
  · rw [hv.object?] at hid
    cases hid

theorem Valid.of_object {id : ObjectId} {i : Instance} (hi : h.get? id = some i) :
    (object id).Valid h := by
  refine ⟨fun target => by simp, rfl, fun id' hid => ?_⟩
  cases hid
  exact ⟨i, hi⟩

end Value

namespace Instance

variable {ctx : Context} {h h' : Heap} {i : Instance}

theorem Valid.mono (hi : i.Valid ctx h) (hh : h.Extends h') : i.Valid ctx h' :=
  ⟨hi.known, hi.keys, fun name v hv => (hi.values name v hv).mono hh⟩

theorem Valid.set (hi : i.Valid ctx h) {name : String} {v : Value} (hv : v.Valid h)
    (hname : i.members.has name = true) :
    Valid ctx h { i with members := i.members.set name v } := by
  refine ⟨hi.known, fun n => ?_, hi.values.set hv⟩
  rw [Bindings.has_set, ← hi.keys n]
  constructor
  · rintro (rfl | hn)
    · exact hname
    · exact hn
  · exact .inr

end Instance

namespace Context

/-- Names find their classes. -/
def Distinct (ctx : Context) : Prop := ∀ c ∈ ctx.classes, ctx.find? c.name = some c

theorem find?_of_duplicate?_eq_none {classes : List Class} {seen : List String}
    (h : duplicate? seen classes = none) :
    ∀ c ∈ classes, c.name ∉ seen ∧ classes.find? (·.name == c.name) = some c := by
  induction classes generalizing seen with
  | nil => simp
  | cons d rest ih =>
    unfold duplicate? at h
    split at h
    · cases h
    · rename_i hseen
      intro c hc
      rcases List.mem_cons.1 hc with rfl | hc
      · exact ⟨by simpa using hseen, by simp⟩
      · obtain ⟨hnot, hfind⟩ := ih h c hc
        rw [List.mem_cons, not_or] at hnot
        exact ⟨hnot.2, by rw [List.find?_cons, beq_false_of_ne (Ne.symm hnot.1), hfind]⟩

theorem distinct_of_ofProgram {p : Program} {ctx : Context} (h : ofProgram p = .ok ctx) :
    ctx.Distinct := by
  unfold ofProgram at h
  simp only at h
  split at h <;> cases h
  rename_i hnone
  exact fun c hc => (find?_of_duplicate?_eq_none hnone c hc).2

end Context

/-- The objects of a run are valid, and so are the values and frames. -/
def representation (s : Setup) (hs : s.context.Distinct) : Invariant s where
  world w := ∀ id i, w.heap.get? id = some i → i.Valid s.context w.heap
  later w w' := w.heap.Extends w'.heap
  value w v := v.Valid w.heap
  owner w cls this := s.context.find? cls.name = some cls ∧
    ∀ id, this = some id → ∃ i, w.heap.get? id = some i ∧ i.cls = cls
  event _ := True
  refl w := .refl w.heap
  trans := .trans
  value_later hl hv := hv.mono hl
  owner_later hl ho := by
    refine ⟨ho.1, fun id hid => ?_⟩
    obtain ⟨i, hi, hcls⟩ := ho.2 id hid
    obtain ⟨j, hj, hcls'⟩ := hl id i hi
    exact ⟨j, hj, hcls'.trans hcls⟩
  plain := .of_plain
  member hw ho hmember := by
    obtain ⟨i, hi, hv⟩ := Option.bind_eq_some_iff.1 hmember
    exact (hw _ i hi).values _ _ hv
  self ho := by
    obtain ⟨i, hi, -⟩ := ho.2 _ rfl
    exact .of_object hi
  receiver hw _ _ hi := by
    refine ⟨(hw _ _ hi).known, fun id hid => ?_⟩
    cases hid
    exact ⟨_, hi, rfl⟩
  shared hcls := ⟨hs _ hcls, fun id hid => by cases hid⟩
  legit _ := trivial
  record hw _ := ⟨hw, .refl _⟩
  print _ hw := ⟨hw, .refl _⟩
  setMember {w cls id name v} hw _ hmember hv := by
    have hext := Heap.Extends.setMember w.heap id name v
    refine ⟨fun other i hi => ?_, hext⟩
    rw [Heap.get?_setMember] at hi
    split at hi
    · obtain ⟨j, hj, rfl⟩ := Option.map_eq_some_iff.1 hi
      have hname : j.members.has name = true := by
        rw [Heap.member?, hj] at hmember
        exact hmember
      exact ((hw id j hj).set hv hname).mono hext
    · exact (hw other i hi).mono hext
  alloc {w cls members} hw hcls hmembers hkeys := by
    have hext := Heap.Extends.alloc w.heap ⟨cls, members⟩
    have hget := Heap.get?_alloc w.heap ⟨cls, members⟩
    have hnew : Instance.Valid s.context w.heap ⟨cls, members⟩ := ⟨hs cls hcls, hkeys, hmembers⟩
    refine ⟨fun id i hi => ?_, hext, hs cls hcls, fun id hid => ?_⟩
    · rw [hget] at hi
      split at hi
      · cases hi
        exact hnew.mono hext
      · exact (hw id i hi).mono hext
    · cases hid
      exact ⟨⟨cls, members⟩, by rw [hget, if_pos rfl], rfl⟩

namespace Validity

theorem start_valid {s : Setup} (hs : s.context.Distinct) : (representation s hs).world .start := by
  intro id i hi
  cases hi

end Validity

open Validity in
/-- Every moment of every run represents its objects, an object has one class at all moments, and
the end of the run is a moment. -/
theorem moments_represented {p : Program} {constructionCall : Bool} {s : Setup}
    (hs : Setup.ofProgram p constructionCall = .ok s) (budget : Nat) :
    (∀ ds w, s.Moment budget ds w → s.Represents w ds) ∧
    (∀ ds w ds' w', s.Moment budget ds w → s.Moment budget ds' w' →
      ∀ id i i', w.heap.get? id = some i → w'.heap.get? id = some i' → i'.cls = i.cls) ∧
    ∃ ds, s.Moment budget ds (s.start budget).2 := by
  have hdistinct := Context.distinct_of_ofProgram (Setup.of_ofProgram hs).1
  have hstart := start_valid hdistinct
  refine ⟨fun ds w hmoment => ?_, fun ds w ds' w' hmoment hmoment' id i i' hi hi' => ?_,
    s.exists_moment_end budget⟩
  · obtain ⟨hobjects, hdata⟩ := hmoment.good hstart
    refine ⟨hobjects, fun d hd => ?_⟩
    have hgood := hdata d hd
    cases d with
    | frame f => exact ⟨hgood.owner.1, hgood.owner.2, hgood.locals⟩
    | value v => exact hgood
  · -- Both moments come before the end of the run, where the object is still of its class.
    obtain ⟨j, hj, hcls⟩ := hmoment.later_end hstart id i hi
    obtain ⟨j', hj', hcls'⟩ := hmoment'.later_end hstart id i' hi'
    cases hj.symm.trans hj'
    exact hcls'.symm.trans hcls

namespace Validity

def link : Class := ⟨"Link", [], [⟨⟨"Link", "next"⟩, none, none⟩], [], []⟩

/-- Makes two links, the second of which leads to the first. -/
def startMethod : Method :=
  { name := "start"
    isShared := true
    isPrivate := false
    isVariadic := false
    params := []
    returns := []
    locals := [⟨"Link", "next"⟩]
    body := .statements
      [.assign "next" (.construct "Link" []), .assign "next" (.construct "Link" [])] }

def chain : Program := ⟨[link, ⟨"Main", [], [], [], [startMethod]⟩], []⟩

def chainSetup : Setup := ⟨⟨chain.classes ++ [consoleClass]⟩, false⟩

end Validity

open Validity in
theorem moments_represented_chain :
    ∃ i, (chainSetup.start 9).2.heap.get? 1 = some i ∧
      (∀ name, i.members.has name = true ↔ ∃ m ∈ i.cls.members, m.declaration.name = name) ∧
      i.members.All fun _ v => v.Valid (chainSetup.start 9).2.heap := by
  obtain ⟨hrepresents, -, ds, hmoment⟩ := moments_represented (s := chainSetup)
    (rfl : Setup.ofProgram chain false = .ok chainSetup) 9
  have hend := hrepresents ds _ hmoment
  obtain ⟨i, hi⟩ : ∃ i, (chainSetup.start 9).2.heap.get? 1 = some i := ⟨_, rfl⟩
  exact ⟨i, hi, (hend.objects 1 i hi).keys, (hend.objects 1 i hi).values⟩

end Offside
