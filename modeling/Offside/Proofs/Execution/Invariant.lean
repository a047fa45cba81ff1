import Offside.Proofs.Execution.Code

/-!
What every evaluation keeps. An `Invariant` says which worlds, values, frames and events are good,
and that the few effects that change the world keep them so. Then the code of every task is safe
(`Invariant.safe_code`): it asks for good things only, as long as it gets good answers. So all tasks
keep the invariant (`Invariant.sound`), with one induction over the budget for every invariant.
-/
namespace Offside

/-- The events that can be recorded: a body is entered in one of five ways, and each way picks its
method or constructor. -/
def Event.Legit (s : Setup) : Event → Prop
  | .invoked .entry cls m n => s.context.entry? = some (cls, m) ∧ n = 0
  | .invoked (.call standing caller) cls m n => (standing = .own → cls = caller) ∧
      ∃ name args, cls.resolve standing name args = .ok m ∧ args.length = n
  | .invoked (.iterator _) cls m n => cls.iterator? = some m ∧ n = 0
  | .invoked (.construction _) cls m n => s.constructionCall = true ∧
      ∃ args, cls.constructionMethod? args = some m ∧ args.length = n
  | .constructed _ cls c n => ∃ args, cls.constructor? args = some c ∧ args.length = n

/-- What code has in hand. -/
inductive Datum where
  | frame (f : Frame)
  | value (v : Value)

/-- What a task has in hand when it begins. -/
def Task.data : Task → List Datum
  | expr f _ | call f _ | construct f _ _ | stmt f _ => [.frame f]
  | invoke _ cls m this args => .frame (.ofMethod cls m this args) :: args.map .value
  | runConstructor f cls id args =>
    .frame f :: .value (.object id) :: args.map .value ++
      (cls.constructor? args).toList.map fun c => .frame (.ofConstructor cls c id args)
  | iterate _ _ id _ _ f => [.frame f, .value (.object id)]
  | repeatWhile _ _ _ v f => [.frame f, .value v]

/-- What the answer of a task puts into the hands of the one who asked. -/
def Task.given : (t : Task) → t.Answer → List Datum
  | expr .., v | construct .., v => [.value v]
  | call .., vs | invoke .., vs => vs.map .value
  | runConstructor .., _ => []
  | stmt .., f | iterate .., f | repeatWhile .., f => [.frame f]

def Effect.given : (x : Effect) → x.Answer → List Datum
  | heap, _ | record _, _ | writeLine _, _ => []
  | allocate _, id => [.value (.object id)]
  | write .., f => [.frame f]

/-- A property of worlds, with the values and owners that are good in them, which no operation of
the machine breaks. -/
structure Invariant (s : Setup) where
  world : World → Prop
  /-- The second world comes after the first. -/
  later : World → World → Prop
  value : World → Value → Prop
  /-- Code of the class may run with this current object. -/
  owner : World → Class → Option ObjectId → Prop
  event : Event → Prop
  refl : ∀ w, later w w
  trans : ∀ {w w' w''}, later w w' → later w' w'' → later w w''
  value_later : ∀ {w w' v}, later w w' → value w v → value w' v
  owner_later : ∀ {w w' cls this}, later w w' → owner w cls this → owner w' cls this
  plain : ∀ {w} {v : Value}, v.Plain → value w v
  member : ∀ {w cls id name v}, world w → owner w cls (some id) →
    w.heap.member? id name = some v → value w v
  self : ∀ {w cls id}, owner w cls (some id) → value w (.object id)
  receiver : ∀ {w v id i}, world w → value w v → v.object? = some id → w.heap.get? id = some i →
    owner w i.cls (some id)
  shared : ∀ {w cls}, cls ∈ s.context.classes → owner w cls none
  legit : ∀ {e : Event}, e.Legit s → event e
  record : ∀ {w e}, world w → event e →
    world { w with journal := e :: w.journal } ∧ later w { w with journal := e :: w.journal }
  print : ∀ {w} (lines : Array String), world w →
    world { w with console := lines } ∧ later w { w with console := lines }
  setMember : ∀ {w cls id name v}, world w → owner w cls (some id) →
    (w.heap.member? id name).isSome → value w v →
    world { w with heap := w.heap.setMember id name v } ∧
      later w { w with heap := w.heap.setMember id name v }
  alloc : ∀ {w cls members}, world w → cls ∈ s.context.classes →
    members.All (fun _ v => value w v) →
    (∀ name, members.has name = true ↔ ∃ m ∈ cls.members, m.declaration.name = name) →
    world { w with heap := (w.heap.alloc ⟨cls, members⟩).2 } ∧
      later w { w with heap := (w.heap.alloc ⟨cls, members⟩).2 } ∧
      owner { w with heap := (w.heap.alloc ⟨cls, members⟩).2 } cls (some w.heap.size)

namespace Invariant

variable {s : Setup} (J : Invariant s)

/-- Every value in a frame is good, and its class may run with its object. -/
structure frame (w : World) (f : Frame) : Prop where
  owner : J.owner w f.cls f.this
  locals : f.locals.All fun _ v => J.value w v

def values (w : World) (vs : List Value) : Prop := ∀ v ∈ vs, J.value w v

def datum (w : World) : Datum → Prop
  | .frame f => J.frame w f
  | .value v => J.value w v

/-- A task may begin in this world. -/
def task (w : World) : Task → Prop
  | .expr f _ | .call f _ | .construct f _ _ | .stmt f _ => J.frame w f
  | .invoke route cls m this args => J.owner w cls this ∧ J.values w args ∧
      J.event (.invoked route cls m args.length)
  | .runConstructor f cls id args => J.frame w f ∧ J.owner w cls (some id) ∧ J.values w args
  | .iterate cls m id _ _ f => J.frame w f ∧ J.owner w cls (some id) ∧
      ∀ caller, J.event (.invoked (.iterator caller) cls m 0)
  | .repeatWhile _ _ _ v f => J.frame w f ∧ J.value w v

def answer (w : World) : (t : Task) → t.Answer → Prop
  | .expr .., v | .construct .., v => J.value w v
  | .call .., vs | .invoke .., vs => J.values w vs
  | .runConstructor .., _ => True
  | .stmt .., f | .iterate .., f | .repeatWhile .., f => J.frame w f

/-- The code asks for good things only, if it starts in this good world and every answer it gets is
good; and if it is done, its result is as said. -/
def Safe {α : Type} : World → Code α → (α → World → Prop) → Prop
  | w, .done a, Q => J.world w ∧ Q a w
  | w, .halt _, _ => J.world w
  | w, .effect x k, Q => J.world w ∧ J.later w (x.apply w).2 ∧
      (∀ d ∈ x.given (x.apply w).1, J.datum (x.apply w).2 d) ∧
      Safe (x.apply w).2 (k (x.apply w).1) Q
  | w, .task t k, Q => J.world w ∧ J.task w t ∧
      ∀ a w', J.world w' → J.later w w' → J.answer w' t a → Safe w' (k a) Q

/-- The computation leads to a good and later world; if it succeeds, its result is as said. -/
structure Keeps {α : Type} (w : World) (x : Machine α) (Q : α → World → Prop) : Prop where
  world : J.world (x.final w)
  later : J.later w (x.final w)
  result : ∀ {a w'}, x w = .ok a w' → Q a w'

/-- All tasks keep the invariant when they have this budget. -/
def Sound (n : Nat) : Prop :=
  ∀ (t : Task) (w : World), J.world w → J.task w t →
    J.Keeps w (t.run s n) fun a w' => J.answer w' t a

variable {J} {α β γ : Type} {w w' : World} {c : Code α} {k : α → Code β}
  {Q : α → World → Prop} {R : β → World → Prop} {f : Frame} {v : Value}

theorem frame.mono (hf : J.frame w f) (hl : J.later w w') : J.frame w' f :=
  ⟨J.owner_later hl hf.owner, fun name v hv => J.value_later hl (hf.locals name v hv)⟩

theorem values.mono {vs : List Value} (hv : J.values w vs) (hl : J.later w w') : J.values w' vs :=
  fun v hmem => J.value_later hl (hv v hmem)

theorem datum.mono {d : Datum} (hd : J.datum w d) (hl : J.later w w') : J.datum w' d := by
  cases d with
  | frame f => exact frame.mono hd hl
  | value v => exact J.value_later hl hd

theorem frame.load (hw : J.world w) (hf : J.frame w f) {name : String}
    (h : f.load? w.heap name = some v) : J.value w v := by
  rcases Option.or_eq_some_iff.1 h with hlocal | ⟨-, hmember⟩
  · exact hf.locals name v hlocal
  · obtain ⟨id, hthis, hmember⟩ := Option.bind_eq_some_iff.1 hmember
    exact J.member hw (hthis ▸ hf.owner) hmember

theorem frame.setLocal (hf : J.frame w f) (name : String) (hv : J.value w v) :
    J.frame w { f with locals := f.locals.set name v } :=
  ⟨hf.owner, hf.locals.set hv⟩

theorem frame.ofMethod {cls : Class} {m : Method} {this : Option ObjectId} {args : List Value}
    (ho : J.owner w cls this) (ha : J.values w args) : J.frame w (.ofMethod cls m this args) := by
  refine ⟨ho, fun name v hv => ?_⟩
  rcases Frame.all_bind m.params m.locals args name v hv with hmem | hplain
  · exact ha v hmem
  · exact J.plain hplain

theorem frame.ofConstructor {cls : Class} {c : Constructor} {id : ObjectId} {args : List Value}
    (ho : J.owner w cls (some id)) (ha : J.values w args) :
    J.frame w (.ofConstructor cls c id args) := by
  refine ⟨ho, fun name v hv => ?_⟩
  rcases Frame.all_bind c.params c.locals args name v hv with hmem | hplain
  · exact ha v hmem
  · exact J.plain hplain

theorem frame.newMembers (hw : J.world w) (hf : J.frame w f) (members : List Member) :
    (f.newMembers w.heap members).All fun _ v => J.value w v := by
  intro name v hv
  rcases Frame.all_newMembers f w.heap members name v hv with hload | hplain
  · exact hf.load hw hload
  · exact J.plain hplain

theorem frame.results (hf : J.frame w f) {m : Method} {vs : List Value}
    (h : f.results m = .ok vs) : J.values w vs := by
  intro v hv
  obtain ⟨name, hlocal⟩ := Frame.get?_of_mem_results h v hv
  exact hf.locals name v hlocal

theorem frame.receiver (hw : J.world w) (hf : J.frame w f) {r : Option String} {cls : Class}
    {this : Option ObjectId} {standing : Standing}
    (h : f.receiver s.context w.heap r = .ok (cls, this, standing)) :
    J.owner w cls this ∧ (standing = .own → cls = f.cls) := by
  unfold Frame.receiver at h
  split at h
  · cases h
    exact ⟨hf.owner, fun _ => rfl⟩
  · split at h
    · rename_i v hload
      split at h <;> cases h
      rename_i hobject
      obtain ⟨id, hid, hobject⟩ := Option.bind_eq_some_iff.1 hobject
      obtain ⟨i, hi, hpair⟩ := Option.map_eq_some_iff.1 hobject
      cases hpair
      exact ⟨J.receiver hw (hf.load hw hload) hid hi, fun h => by cases h⟩
    · split at h <;> cases h
      rename_i hfind
      exact ⟨J.shared (List.mem_of_find?_eq_some hfind), fun h => by cases h⟩

theorem datum_of_values {vs : List Value} (hv : J.values w vs) :
    ∀ d ∈ vs.map .value, J.datum w d := by
  intro d hd
  obtain ⟨v, hmem, rfl⟩ := List.mem_map.1 hd
  exact hv v hmem

theorem datum_of_task {t : Task} (ht : J.task w t) : ∀ d ∈ t.data, J.datum w d := by
  cases t with
  | expr | call | construct | stmt => exact List.forall_mem_singleton.2 ht
  | invoke =>
    exact List.forall_mem_cons.2 ⟨frame.ofMethod ht.1 ht.2.1, datum_of_values ht.2.1⟩
  | runConstructor f cls id args =>
    refine List.forall_mem_cons.2 ⟨ht.1, List.forall_mem_cons.2 ⟨J.self ht.2.1, ?_⟩⟩
    refine List.forall_mem_append.2 ⟨datum_of_values ht.2.2, fun d hd => ?_⟩
    obtain ⟨c, -, rfl⟩ := List.mem_map.1 hd
    exact frame.ofConstructor ht.2.1 ht.2.2
  | iterate => exact List.forall_mem_cons.2 ⟨ht.1, List.forall_mem_singleton.2 (J.self ht.2.1)⟩
  | repeatWhile => exact List.forall_mem_cons.2 ⟨ht.1, List.forall_mem_singleton.2 ht.2⟩

theorem datum_of_answer {t : Task} {a : t.Answer} (ha : J.answer w t a) :
    ∀ d ∈ t.given a, J.datum w d := by
  cases t with
  | expr | construct | stmt | iterate | repeatWhile => exact List.forall_mem_singleton.2 ha
  | call | invoke => exact datum_of_values ha
  | runConstructor => exact fun _ hd => absurd hd List.not_mem_nil

namespace Safe

theorem world (hc : J.Safe w c Q) : J.world w := by
  cases c with
  | done | effect | task => exact hc.1
  | halt => exact hc

theorem pure (hw : J.world w) {a : α} (hq : Q a w) : J.Safe w (Pure.pure a) Q := ⟨hw, hq⟩

theorem fail (hw : J.world w) (e : Fault) : J.Safe w (.fail e) Q := hw

theorem ofExcept (hw : J.world w) {e : Except Fault α} (h : ∀ a, e = .ok a → Q a w) :
    J.Safe w (.ofExcept e) Q := by
  cases e with
  | ok a => exact ⟨hw, h a rfl⟩
  | error f => exact hw

theorem bind (hc : J.Safe w c Q)
    (hk : ∀ a w', J.world w' → J.later w w' → Q a w' → J.Safe w' (k a) R) :
    J.Safe w (c >>= k) R := by
  induction c generalizing w with
  | done a => exact hk a w hc.1 (J.refl w) hc.2
  | halt e => exact hc
  | effect x k' ih =>
    obtain ⟨hw, hl, hd, hnext⟩ := hc
    exact ⟨hw, hl, hd, ih _ hnext fun a w' hw' hl' hq => hk a w' hw' (J.trans hl hl') hq⟩
  | task t k' ih =>
    obtain ⟨hw, ht, hnext⟩ := hc
    refine ⟨hw, ht, fun a w₁ hw₁ hl₁ ha => ih a (hnext a w₁ hw₁ hl₁ ha) ?_⟩
    exact fun b w' hw' hl' hq => hk b w' hw' (J.trans hl₁ hl') hq

/-- What holds of each item's result, and stays so, holds of all results in the end. -/
theorem mapM {g : γ → Code α} {P : World → α → Prop}
    (hmono : ∀ {w w' a}, J.later w w' → P w a → P w' a) (items : List γ) (hw : J.world w)
    (h : ∀ w', J.world w' → J.later w w' → ∀ c ∈ items, J.Safe w' (g c) fun a w'' => P w'' a) :
    J.Safe w (items.mapM g) fun as w' => ∀ a ∈ as, P w' a := by
  induction items generalizing w with
  | nil =>
    rw [List.mapM_nil]
    exact pure hw (by simp)
  | cons c items ih =>
    rw [List.mapM_cons]
    refine (h w hw (J.refl w) c List.mem_cons_self).bind fun a w₁ hw₁ hl₁ ha => ?_
    refine (ih hw₁ fun w' hw' hl c hc =>
      h w' hw' (J.trans hl₁ hl) c (List.mem_cons_of_mem _ hc)).bind fun as w₂ hw₂ hl₂ has => ?_
    refine pure hw₂ fun b hb => ?_
    rcases List.mem_cons.1 hb with rfl | hb
    · exact hmono hl₂ ha
    · exact has b hb

/-- What each item keeps, the whole run over the items keeps. -/
theorem foldlM {g : α → γ → Code α} {P : α → World → Prop} (items : List γ) {a : α}
    (hw : J.world w) (ha : P a w)
    (h : ∀ a w', J.world w' → J.later w w' → P a w' → ∀ c ∈ items, J.Safe w' (g a c) P) :
    J.Safe w (items.foldlM g a) P := by
  induction items generalizing w a with
  | nil =>
    rw [List.foldlM_nil]
    exact pure hw ha
  | cons c items ih =>
    rw [List.foldlM_cons]
    refine (h a w hw (J.refl w) ha c List.mem_cons_self).bind fun b w₁ hw₁ hl₁ hb => ?_
    exact ih hw₁ hb fun a w' hw' hl ha c hc =>
      h a w' hw' (J.trans hl₁ hl) ha c (List.mem_cons_of_mem _ hc)

theorem ask {t : Task} (hw : J.world w) (ht : J.task w t) :
    J.Safe w (.ask t) fun a w' => J.answer w' t a :=
  ⟨hw, ht, fun _ _ hw' _ ha => ⟨hw', ha⟩⟩

theorem bind_heap (hw : J.world w) {k : Heap → Code β} (h : J.Safe w (k w.heap) R) :
    J.Safe w (.heap >>= k) R :=
  ⟨hw, J.refl w, fun _ hd => absurd hd List.not_mem_nil, h⟩

theorem bind_ofExcept (hw : J.world w) {e : Except Fault α}
    (h : ∀ a, e = .ok a → J.Safe w (k a) R) : J.Safe w (.ofExcept e >>= k) R := by
  cases e with
  | ok a => exact h a rfl
  | error f => exact hw

theorem record (hw : J.world w) {e : Event} (he : J.event e) :
    J.Safe w (.record e) fun _ _ => True :=
  ⟨hw, (J.record hw he).2, fun _ hd => absurd hd List.not_mem_nil, (J.record hw he).1, trivial⟩

theorem writeLine (hw : J.world w) (vs : List Value) :
    J.Safe w (.writeLine vs) fun _ _ => True :=
  ⟨hw, (J.print _ hw).2, fun _ hd => absurd hd List.not_mem_nil, (J.print _ hw).1, trivial⟩

theorem allocate (hw : J.world w) (hf : J.frame w f) {cls : Class}
    (hcls : cls ∈ s.context.classes) :
    J.Safe w (.allocate ⟨cls, f.newMembers w.heap cls.members⟩) fun id w' =>
      J.owner w' cls (some id) := by
  obtain ⟨hworld, hlater, howner⟩ := J.alloc hw hcls (hf.newMembers hw cls.members)
    (f.has_newMembers w.heap cls.members)
  exact ⟨hw, hlater, List.forall_mem_singleton.2 (J.self howner), hworld, howner⟩

theorem write (hw : J.world w) (hf : J.frame w f) {name : String} (hv : J.value w v) {slot : Slot}
    (hslot : ∀ id, slot = .member id → f.owner? w.heap name = some id) :
    J.Safe w (.write f name v slot) fun f' w' => J.frame w' f' := by
  cases slot with
  | localVariable =>
    have hf' := hf.setLocal name hv
    exact ⟨hw, J.refl w, List.forall_mem_singleton.2 hf', hw, hf'⟩
  | member id =>
    obtain ⟨hthis, hmember⟩ := Option.filter_eq_some_iff.1 (hslot id rfl)
    obtain ⟨hworld, hlater⟩ := J.setMember hw (hthis ▸ hf.owner) hmember hv
    have hf' := hf.mono hlater
    exact ⟨hw, hlater, List.forall_mem_singleton.2 hf', hworld, hf'⟩

theorem store (hw : J.world w) (hf : J.frame w f) (name : String) (hv : J.value w v) :
    J.Safe w (.store f name v) fun f' w' => J.frame w' f' := by
  refine bind_heap hw ?_
  split
  · rename_i slot hslot
    refine write hw hf hv fun id hid => ?_
    exact Frame.owner?_of_slot? (hid ▸ hslot)
  · exact fail hw _

theorem storeItem (hw : J.world w) (hf : J.frame w f) (hv : J.value w v) (item : Option String) :
    J.Safe w (.storeItem f v item) fun f' w' => J.frame w' f' := by
  cases item with
  | none => exact pure hw hf
  | some name => exact bind_heap hw <| write hw hf hv fun id hid => Frame.owner?_of_itemSlot hid

theorem condition (hw : J.world w) (v : Value) : J.Safe w (.condition v) fun _ _ => True := by
  unfold Code.condition
  split
  · exact pure hw trivial
  · exact bind_heap hw (fail hw _)

theorem expr (hw : J.world w) (hf : J.frame w f) (e : Expr) :
    J.Safe w (.expr f e) fun v w' => J.value w' v :=
  ask hw hf

theorem exprs (hw : J.world w) (hf : J.frame w f) (es : List Expr) :
    J.Safe w (.exprs f es) fun vs w' => J.values w' vs :=
  mapM (P := J.value) J.value_later es hw fun _ hw' hl e _ => expr hw' (hf.mono hl) e

theorem stmts (hw : J.world w) (hf : J.frame w f) (body : List Stmt) :
    J.Safe w (.stmts f body) fun f' w' => J.frame w' f' :=
  foldlM body hw hf fun _ _ hw' _ hf' _ _ => ask hw' hf'

theorem call (hw : J.world w) (hf : J.frame w f) (c : Call) :
    J.Safe w (.call f c) fun vs w' => J.values w' vs :=
  ask hw hf

theorem invoke {route : Route} {cls : Class} {m : Method} {this : Option ObjectId}
    {args : List Value} (hw : J.world w) (ho : J.owner w cls this) (ha : J.values w args)
    (he : J.event (.invoked route cls m args.length)) :
    J.Safe w (.invoke route cls m this args) fun vs w' => J.values w' vs :=
  ask hw ⟨ho, ha, he⟩

theorem operation (hw : J.world w) (hf : J.frame w f) (l r : Expr)
    {op : Heap → Value → Value → Except Fault Value}
    (hop : ∀ h a b v, op h a b = .ok v → v.Plain) :
    J.Safe w (.operation f l r op) fun v w' => J.value w' v := by
  refine (expr hw hf l).bind fun a w₁ hw₁ hl₁ _ => ?_
  refine (expr hw₁ (hf.mono hl₁) r).bind fun b w₂ hw₂ _ _ => ?_
  exact bind_heap hw₂ <| ofExcept hw₂ fun v hv => J.plain (hop _ a b v hv)

theorem ofExpr (hw : J.world w) (hf : J.frame w f) (e : Expr) :
    J.Safe w (.ofExpr f e) fun v w' => J.value w' v := by
  cases e with
  | boolean | number | string | character => exact pure hw (J.plain trivial)
  | var name =>
    refine bind_heap hw ?_
    split
    · exact pure hw (hf.load hw ‹_›)
    · exact fail hw _
  | logic op l r => exact operation hw hf l r fun _ _ _ _ => LogicOp.plain_apply
  | compare op l r => exact operation hw hf l r fun _ _ _ _ => CompareOp.plain_apply
  | arith op l r => exact operation hw hf l r fun _ _ _ _ => ArithOp.plain_apply
  | call receiver method args =>
    refine (call hw hf _).bind fun vs w' hw' hl hvs => ?_
    split
    · exact pure hw' (hvs _ List.mem_cons_self)
    · exact fail hw' _
  | construct cls args => exact ask hw hf

theorem ofCall (hw : J.world w) (hf : J.frame w f) (c : Call) :
    J.Safe w (.ofCall s f c) fun vs w' => J.values w' vs := by
  refine (exprs hw hf c.args).bind fun args w₁ hw₁ hl₁ hargs => ?_
  refine bind_heap hw₁ <| bind_ofExcept hw₁ fun r hr => ?_
  obtain ⟨cls, this, standing⟩ := r
  obtain ⟨howner, hown⟩ := (hf.mono hl₁).receiver hw₁ hr
  refine bind_ofExcept hw₁ fun m hm => ?_
  have he : (Event.invoked (.call standing f.cls) cls m args.length).Legit s :=
    ⟨hown, c.method, args, hm, rfl⟩
  exact invoke hw₁ howner hargs (J.legit he)

theorem ofInvoke {route : Route} {cls : Class} {m : Method} {this : Option ObjectId}
    {args : List Value} (hw : J.world w) (ho : J.owner w cls this) (ha : J.values w args)
    (he : J.event (.invoked route cls m args.length)) :
    J.Safe w (.ofInvoke route cls m this args) fun vs w' => J.values w' vs := by
  refine (record hw he).bind fun _ w₁ hw₁ hl₁ _ => ?_
  split
  · exact (writeLine hw₁ args).bind fun _ w₂ hw₂ _ _ => pure hw₂ (by simp [values])
  · split
    · have hf := frame.ofMethod (m := m) (J.owner_later hl₁ ho) (ha.mono hl₁)
      refine (stmts hw₁ hf _).bind fun f' w₂ hw₂ _ hf' => ?_
      exact ofExcept hw₂ fun vs hvs => hf'.results hvs
    · exact fail hw₁ _

theorem ofRunConstructor {cls : Class} {id : ObjectId} {args : List Value}
    (hw : J.world w) (ho : J.owner w cls (some id)) (ha : J.values w args) :
    J.Safe w (.ofRunConstructor f cls id args) fun _ _ => True := by
  unfold Code.ofRunConstructor
  split
  · exact pure hw trivial
  · split
    · exact fail hw _
    · rename_i c hc
      have he : (Event.constructed f.cls cls c args.length).Legit s := ⟨args, hc, rfl⟩
      refine (record hw (J.legit he)).bind fun _ w₁ hw₁ hl₁ _ => ?_
      have hf := frame.ofConstructor (c := c) (J.owner_later hl₁ ho) (ha.mono hl₁)
      exact (stmts hw₁ hf _).bind fun _ w₂ hw₂ _ _ => pure hw₂ trivial

theorem ofConstruct (hw : J.world w) (hf : J.frame w f) (name : String) (args : List Expr) :
    J.Safe w (.ofConstruct s f name args) fun v w' => J.value w' v := by
  unfold Code.ofConstruct
  split
  · exact fail hw _
  · rename_i cls hfind
    -- The members are read before the object is made, and the arguments after it.
    refine bind_heap hw ?_
    refine (allocate hw hf (List.mem_of_find?_eq_some hfind)).bind fun id w₁ hw₁ hl₁ ho => ?_
    refine (exprs hw₁ (hf.mono hl₁) args).bind fun vs w₂ hw₂ hl₂ hvs => ?_
    have ho₂ := J.owner_later hl₂ ho
    refine Safe.bind (ask hw₂ ⟨hf.mono (J.trans hl₁ hl₂), ho₂, hvs⟩) fun _ w₃ hw₃ hl₃ _ => ?_
    have ho₃ := J.owner_later hl₃ ho₂
    split
    · rename_i hcall
      split
      · rename_i m hm
        have he : (Event.invoked (.construction f.cls) cls m vs.length).Legit s :=
          ⟨hcall, vs, hm, rfl⟩
        refine (invoke hw₃ ho₃ (hvs.mono hl₃) (J.legit he)).bind fun _ w₄ hw₄ hl₄ _ => ?_
        exact pure hw₄ (J.self (J.owner_later hl₄ ho₃))
      · exact pure hw₃ (J.self ho₃)
    · exact pure hw₃ (J.self ho₃)

theorem ofStmt (hw : J.world w) (hf : J.frame w f) (st : Stmt) :
    J.Safe w (.ofStmt f st) fun f' w' => J.frame w' f' := by
  cases st with
  | assign target value =>
    exact (expr hw hf value).bind fun v w₁ hw₁ hl₁ hv => store hw₁ (hf.mono hl₁) target hv
  | call targets c =>
    refine (call hw hf c).bind fun vs w₁ hw₁ hl₁ hvs => ?_
    split
    · exact fail hw₁ _
    · refine foldlM (P := fun f' w' => J.frame w' f') _ hw₁ (hf.mono hl₁) ?_
      rintro f' w' hw' hl hf' ⟨target, v⟩ hmem
      exact store hw' hf' target (J.value_later hl (hvs v (List.of_mem_zip hmem).2))
  | loop item source body =>
    refine (expr hw hf source).bind fun v w₁ hw₁ hl₁ hv => ?_
    have hf₁ := hf.mono hl₁
    split
    · exact ask hw₁ ⟨hf₁, hv⟩
    · rename_i id hresolved
      refine bind_heap hw₁ ?_
      split
      · exact fail hw₁ _
      · rename_i i hi
        split
        · exact fail hw₁ _
        · -- The frames after the body are not tied to this one, so every caller must be allowed.
          rename_i m hm
          have hobject : v.object? = some id := by rw [Value.object?, hresolved]
          have he : ∀ caller, (Event.invoked (.iterator caller) i.cls m 0).Legit s :=
            fun _ => ⟨hm, rfl⟩
          exact ask hw₁ ⟨hf₁, J.receiver hw₁ hv hobject hi, fun caller => J.legit (he caller)⟩
    · exact bind_heap hw₁ (fail hw₁ _)
  | branch condition thenBody elseBody =>
    refine (expr hw hf condition).bind fun v w₁ hw₁ hl₁ _ => ?_
    refine (Safe.condition hw₁ v).bind fun b w₂ hw₂ hl₂ _ => ?_
    have hf₂ := hf.mono (J.trans hl₁ hl₂)
    split
    · exact stmts hw₂ hf₂ thenBody
    · exact stmts hw₂ hf₂ (elseBody.getD [])

theorem ofIterate {cls : Class} {m : Method} {id : ObjectId} {item : Option String}
    {body : List Stmt} (hw : J.world w) (hf : J.frame w f) (ho : J.owner w cls (some id))
    (he : ∀ caller, J.event (.invoked (.iterator caller) cls m 0)) :
    J.Safe w (.ofIterate cls m id item body f) fun f' w' => J.frame w' f' := by
  refine (invoke hw ho (by simp [values]) (he f.cls)).bind fun vs w₁ hw₁ hl₁ hvs => ?_
  split
  · rename_i flag value
    split
    · exact pure hw₁ (hf.mono hl₁)
    · refine (storeItem hw₁ (hf.mono hl₁) (hvs value (by simp)) item).bind
        fun f₂ w₂ hw₂ hl₂ hf₂ => ?_
      refine (stmts hw₂ hf₂ body).bind fun f₃ w₃ hw₃ hl₃ hf₃ => ?_
      have ho₃ := J.owner_later (J.trans hl₁ (J.trans hl₂ hl₃)) ho
      exact ask hw₃ ⟨hf₃, ho₃, he⟩
    · exact bind_heap hw₁ (fail hw₁ _)
  · exact fail hw₁ _

theorem ofRepeatWhile {source : Expr} {item : Option String} {body : List Stmt}
    (hw : J.world w) (hf : J.frame w f) (hv : J.value w v) :
    J.Safe w (.ofRepeatWhile source item body v f) fun f' w' => J.frame w' f' := by
  refine (condition hw v).bind fun b w₁ hw₁ hl₁ _ => ?_
  split
  · refine (storeItem hw₁ (hf.mono hl₁) (J.value_later hl₁ hv) item).bind
      fun f₂ w₂ hw₂ hl₂ hf₂ => ?_
    refine (stmts hw₂ hf₂ body).bind fun f₃ w₃ hw₃ hl₃ hf₃ => ?_
    refine (expr hw₃ hf₃ source).bind fun v₄ w₄ hw₄ hl₄ hv₄ => ?_
    exact ask hw₄ ⟨hf₃.mono hl₄, hv₄⟩
  · exact pure hw₁ (hf.mono hl₁)

end Safe

theorem safe_code (J : Invariant s) {t : Task} (hw : J.world w) (ht : J.task w t) :
    J.Safe w (t.code s) fun a w' => J.answer w' t a := by
  cases t with
  | expr f e => exact .ofExpr hw ht e
  | call f c => exact .ofCall hw ht c
  | invoke => exact .ofInvoke hw ht.1 ht.2.1 ht.2.2
  | construct f name args => exact .ofConstruct hw ht name args
  | runConstructor => exact .ofRunConstructor hw ht.2.1 ht.2.2
  | stmt f st => exact .ofStmt hw ht st
  | iterate => exact .ofIterate hw ht.1 ht.2.1 ht.2.2
  | repeatWhile => exact .ofRepeatWhile hw ht.1 ht.2

namespace Keeps

variable {x : Machine α}

theorem of_ok {a : α} (h : x w = .ok a w') (hw : J.world w') (hl : J.later w w') (hq : Q a w') :
    J.Keeps w x Q := by
  refine ⟨Machine.final_ok h ▸ hw, Machine.final_ok h ▸ hl, ?_⟩
  intro b w'' hb
  cases h.symm.trans hb
  exact hq

theorem throw (hw : J.world w) (e : Halt) : J.Keeps w (throw e : Machine α) Q :=
  ⟨hw, J.refl w, fun h => by cases h⟩

theorem bind {k : α → Machine β} (hx : J.Keeps w x Q)
    (hk : ∀ a w', J.world w' → J.later w w' → Q a w' → J.Keeps w' (k a) R) :
    J.Keeps w (x >>= k) R := by
  cases hrun : x w with
  | ok a w' =>
    have hw := hx.world
    have hl := hx.later
    rw [Machine.final_ok hrun] at hw hl
    have hnext := hk a w' hw hl (hx.result hrun)
    have hfinal : (x >>= k).final w = (k a).final w' := by
      rw [Machine.final, Machine.final, Machine.bind_ok hrun]
    refine ⟨hfinal ▸ hnext.world, hfinal ▸ J.trans hl hnext.later, fun h => ?_⟩
    rw [Machine.bind_ok hrun] at h
    exact hnext.result h
  | error e w' =>
    have hfinal : (x >>= k).final w = x.final w := by
      rw [Machine.final_error hrun, Machine.final_error (Machine.bind_error hrun)]
    refine ⟨hfinal ▸ hx.world, hfinal ▸ hx.later, fun h => ?_⟩
    rw [Machine.bind_error hrun] at h
    cases h

end Keeps

/-- Safe code keeps the invariant, if the tasks that it asks for do. -/
theorem Safe.keeps {n : Nat} (hn : J.Sound n) (hc : J.Safe w c Q) :
    J.Keeps w (c.run (Task.run s n)) Q := by
  induction c generalizing w with
  | done a => exact .of_ok rfl hc.1 (J.refl w) hc.2
  | halt e => exact .throw hc e
  | effect x k ih =>
    obtain ⟨hw, hl, -, hnext⟩ := hc
    have hstep : J.Keeps w (modifyGet x.apply) fun a w' =>
        a = (x.apply w).1 ∧ w' = (x.apply w).2 := .of_ok rfl hnext.world hl ⟨rfl, rfl⟩
    refine hstep.bind fun a w' _ _ h => ?_
    obtain ⟨rfl, rfl⟩ := h
    exact ih _ hnext
  | task t k ih =>
    obtain ⟨hw, ht, hnext⟩ := hc
    exact (hn t w hw ht).bind fun a w' hw' hl ha => ih a (hnext a w' hw' hl ha)

/-- Every evaluation keeps every invariant, with any budget. -/
theorem sound (J : Invariant s) (n : Nat) : J.Sound n := by
  induction n with
  | zero =>
    intro t w hw _
    rw [t.run_zero]
    exact .throw hw _
  | succ n ih =>
    intro t w hw ht
    rw [t.run_succ]
    exact (J.safe_code hw ht).keeps ih

end Invariant

end Offside
