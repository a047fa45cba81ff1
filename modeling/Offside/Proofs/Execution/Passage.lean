import Offside.Execution.Run
import Offside.Proofs.Execution.Code

/-!
How the world passes from the start of an evaluation to its end. A `Passage` relates the world
before to the world after, and for statements the frames as well; each effect that an evaluation can
have must keep to it. Then it relates the two ends of every evaluation that succeeds
(`Passage.sound`), so of every block of statements and of every run that finishes.
-/
namespace Offside

theorem Machine.exists_of_bind {α β : Type} {x : Machine α} {k : α → Machine β} {w w' : World}
    {b : β} (h : (x >>= k) w = .ok b w') : ∃ a w₁, x w = .ok a w₁ ∧ k a w₁ = .ok b w' := by
  cases hx : x w with
  | ok a w₁ => exact ⟨a, w₁, rfl, (bind_ok hx).symm.trans h⟩
  | error e w₁ => cases (bind_error hx).symm.trans h

structure Passage where
  world : World → World → Prop
  /-- The same for code that changes a frame. -/
  frame : World → Frame → World → Frame → Prop
  refl : ∀ w, world w w
  trans : ∀ {w w' w''}, world w w' → world w' w'' → world w w''
  world_of_frame : ∀ {w f w' f'}, frame w f w' f' → world w w'
  frame_of_world : ∀ {w w'} (f : Frame), world w w' → frame w f w' f
  frame_trans : ∀ {w f w' f' w'' f''}, frame w f w' f' → frame w' f' w'' f'' → frame w f w'' f''
  store : ∀ {w} {f : Frame} {name slot} (v : Value), f.slot? w.heap name = some slot →
    frame w f { w with heap := (f.write w.heap name v slot).2 } (f.write w.heap name v slot).1
  storeItem : ∀ {w} {f : Frame} {name slot} (v : Value), f.itemSlot w.heap name = slot →
    frame w f { w with heap := (f.write w.heap name v slot).2 } (f.write w.heap name v slot).1
  alloc : ∀ w i, world w { w with heap := (w.heap.alloc i).2 }
  entered : ∀ w route cls (m : Method) n, m.hasStatements = true →
    world w { w with journal := .invoked route cls m n :: w.journal }
  printed : ∀ w route cls (m : Method) n line, m.hasStatements = false →
    world w ⟨w.heap, w.console.push line, .invoked route cls m n :: w.journal⟩
  constructed : ∀ w caller cls c n,
    world w { w with journal := .constructed caller cls c n :: w.journal }

namespace Passage

variable (P : Passage) {α β γ : Type}

/-- A task passes from one world to another with this answer. -/
def passes (w : World) : (t : Task) → t.Answer → World → Prop
  | .stmt f _, f', w' | .iterate _ _ _ _ _ f, f', w' | .repeatWhile _ _ _ _ f, f', w' =>
    P.frame w f w' f'
  | .expr .., _, w' | .call .., _, w' | .invoke .., _, w' | .construct .., _, w'
  | .runConstructor .., _, w' => P.world w w'

/-- If the code starts in this world and is done, its result and its world are as said. -/
def Leads : World → Code α → (α → World → Prop) → Prop
  | w, .done a, Q => Q a w
  | _, .halt _, _ => True
  | w, .effect x k, Q => Leads (x.apply w).2 (k (x.apply w).1) Q
  | w, .task t k, Q => ∀ a w', P.passes w t a w' → Leads w' (k a) Q

/-- The code keeps to the passage. -/
abbrev Crosses (w : World) (c : Code α) : Prop := P.Leads w c fun _ w' => P.world w w'

/-- The code keeps to the passage, and changes the frame. -/
abbrev Carries (w : World) (f : Frame) (c : Code Frame) : Prop :=
  P.Leads w c fun f' w' => P.frame w f w' f'

variable {P} {w : World} {f : Frame} {c : Code α} {k : α → Code β} {Q Q' : α → World → Prop}
  {R : β → World → Prop}

namespace Leads

theorem fail {e : Fault} : P.Leads w (.fail e) Q := trivial

theorem bind (hc : P.Leads w c Q) (hk : ∀ a w', Q a w' → P.Leads w' (k a) R) :
    P.Leads w (c >>= k) R := by
  induction c generalizing w with
  | done a => exact hk a w hc
  | halt e => trivial
  | effect x k' ih => exact ih _ hc
  | task t k' ih => exact fun a w₁ ha => ih a (hc a w₁ ha)

theorem mono (hc : P.Leads w c Q) (h : ∀ a w', Q a w' → Q' a w') : P.Leads w c Q' := by
  rw [← bind_pure c]
  exact hc.bind fun a w' hq => h a w' hq

theorem ask {t : Task} : P.Leads w (.ask t) (P.passes w t) := fun _ _ h => h

theorem bind_heap {k : Heap → Code β} (h : P.Leads w (k w.heap) R) :
    P.Leads w (.heap >>= k) R := h

theorem bind_ofExcept {e : Except Fault α} (h : ∀ a, e = .ok a → P.Leads w (k a) R) :
    P.Leads w (.ofExcept e >>= k) R := by
  cases e with
  | ok a => exact h a rfl
  | error e => trivial

/-- What leads from one end to the other, one task after the other, is what the machine does. -/
theorem of_run {s : Setup} {n : Nat}
    (hn : ∀ (t : Task) {w w' a}, t.run s n w = .ok a w' → P.passes w t a w')
    (hc : P.Leads w c Q) {a : α} {w' : World} (h : c.run (Task.run s n) w = .ok a w') :
    Q a w' := by
  induction c generalizing w with
  | done b =>
    cases h
    exact hc
  | halt e => cases h
  | effect x k ih => exact ih _ hc h
  | task t k ih =>
    obtain ⟨b, w₁, ht, hk⟩ := Machine.exists_of_bind h
    exact ih b (hc b w₁ (hn t ht)) hk

end Leads

namespace Crosses

theorem pure (a : α) : P.Crosses w (Pure.pure a) := P.refl w

theorem bind (hc : P.Crosses w c) (hk : ∀ a w', P.Crosses w' (k a)) : P.Crosses w (c >>= k) :=
  Leads.bind hc fun a w' hw => (hk a w').mono fun _ _ => P.trans hw

theorem ofExcept (e : Except Fault α) : P.Crosses w (.ofExcept e) := by
  cases e with
  | ok a => exact pure a
  | error e => exact Leads.fail

theorem mapM {g : γ → Code α} (h : ∀ x w, P.Crosses w (g x)) (items : List γ) :
    P.Crosses w (items.mapM g) := by
  induction items generalizing w with
  | nil =>
    rw [List.mapM_nil]
    exact pure _
  | cons x items ih =>
    rw [List.mapM_cons]
    exact (h x w).bind fun a w₁ => ih.bind fun as w₂ => pure _

end Crosses

namespace Carries

theorem pure (w : World) (f : Frame) : P.Carries w f (Pure.pure f) :=
  P.frame_of_world f (P.refl w)

/-- Code that leaves the frame alone comes first. -/
theorem of_crosses {k : α → Code Frame} (hc : P.Crosses w c)
    (hk : ∀ a w', P.Carries w' f (k a)) : P.Carries w f (c >>= k) :=
  Leads.bind hc fun a w' hw => (hk a w').mono fun _ _ => P.frame_trans (P.frame_of_world f hw)

theorem bind {c : Code Frame} {k : Frame → Code Frame} (hc : P.Carries w f c)
    (hk : ∀ f' w', P.Carries w' f' (k f')) : P.Carries w f (c >>= k) :=
  Leads.bind hc fun f' w' hf => (hk f' w').mono fun _ _ => P.frame_trans hf

theorem foldlM {g : Frame → γ → Code Frame} (h : ∀ x w f, P.Carries w f (g f x))
    (items : List γ) : P.Carries w f (items.foldlM g f) := by
  induction items generalizing w f with
  | nil =>
    rw [List.foldlM_nil]
    exact pure w f
  | cons x items ih =>
    rw [List.foldlM_cons]
    exact (h x w f).bind fun f' w' => ih

theorem crosses {c : Code Frame} (hc : P.Carries w f c) : P.Crosses w c :=
  Leads.mono hc fun _ _ => P.world_of_frame

theorem stmts (w : World) (f : Frame) (body : List Stmt) : P.Carries w f (.stmts f body) :=
  foldlM (fun _ _ _ => Leads.ask) body

theorem store (w : World) (f : Frame) (name : String) (v : Value) :
    P.Carries w f (.store f name v) := by
  refine Leads.bind_heap ?_
  split
  · rename_i slot hslot
    exact P.store v hslot
  · exact Leads.fail

theorem storeItem (w : World) (f : Frame) (v : Value) (item : Option String) :
    P.Carries w f (.storeItem f v item) := by
  cases item with
  | none => exact pure w f
  | some name => exact P.storeItem v rfl

end Carries

theorem crosses_exprs (f : Frame) (es : List Expr) : P.Crosses w (.exprs f es) :=
  Crosses.mapM (fun _ _ => Leads.ask) es

theorem crosses_condition (v : Value) : P.Crosses w (.condition v) := by
  unfold Code.condition
  split
  · exact Crosses.pure _
  · exact Leads.bind_heap Leads.fail

theorem crosses_operation (l r : Expr) (op : Heap → Value → Value → Except Fault Value) :
    P.Crosses w (.operation f l r op) := by
  have hexpr : ∀ e w, P.Crosses w (.expr f e) := fun _ _ => Leads.ask
  refine (hexpr l w).bind fun a w₁ => (hexpr r w₁).bind fun b w₂ => ?_
  exact Leads.bind_heap (Crosses.ofExcept _)

theorem crosses_ofExpr (e : Expr) : P.Crosses w (.ofExpr f e) := by
  cases e with
  | boolean | number | string | character => exact Crosses.pure _
  | var name =>
    refine Leads.bind_heap ?_
    split
    · exact Crosses.pure _
    · exact Leads.fail
  | logic op l r | compare op l r | arith op l r => exact crosses_operation l r op.apply
  | call receiver method args =>
    have hcall : P.Crosses w (.call f ⟨receiver, method, args⟩) := Leads.ask
    refine hcall.bind fun vs w' => ?_
    split
    · exact Crosses.pure _
    · exact Leads.fail
  | construct cls args => exact Leads.ask

theorem crosses_ofCall (s : Setup) (c : Call) : P.Crosses w (.ofCall s f c) := by
  refine (crosses_exprs f c.args).bind fun args w' => ?_
  refine Leads.bind_heap (Leads.bind_ofExcept ?_)
  rintro ⟨cls, this, standing⟩ -
  exact Leads.bind_ofExcept fun m _ => Leads.ask

theorem crosses_ofInvoke (route : Route) (cls : Class) (m : Method) (this : Option ObjectId)
    (args : List Value) : P.Crosses w (.ofInvoke route cls m this args) := by
  unfold Code.ofInvoke
  split
  · rename_i hbody
    exact P.printed w route cls m args.length _ (by rw [Method.hasStatements, hbody])
  · rename_i body hbody
    have hrecord : P.Crosses w (.record (.invoked route cls m args.length)) :=
      P.entered w route cls m args.length (by rw [Method.hasStatements, hbody])
    refine hrecord.bind fun _ w' => ?_
    split
    · exact (Carries.stmts w' _ body).crosses.bind fun _ _ => Crosses.ofExcept _
    · exact Leads.fail

theorem crosses_ofConstruct (s : Setup) (name : String) (es : List Expr) :
    P.Crosses w (.ofConstruct s f name es) := by
  unfold Code.ofConstruct
  split
  · exact Leads.fail
  · rename_i cls _
    refine Leads.bind_heap ?_
    have halloc : P.Crosses w (.allocate ⟨cls, f.newMembers w.heap cls.members⟩) :=
      P.alloc w _
    refine halloc.bind fun id w₁ => (crosses_exprs f es).bind fun args w₂ => ?_
    have hconstructor : P.Crosses w₂ (.runConstructor f cls id args) := Leads.ask
    refine hconstructor.bind fun _ w₃ => ?_
    split
    · split
      · rename_i m _
        have hinvoke : P.Crosses w₃ (.invoke (.construction f.cls) cls m (some id) args) :=
          Leads.ask
        exact hinvoke.bind fun _ _ => Crosses.pure _
      · exact Crosses.pure _
    · exact Crosses.pure _

theorem crosses_ofRunConstructor (cls : Class) (id : ObjectId) (args : List Value) :
    P.Crosses w (.ofRunConstructor f cls id args) := by
  unfold Code.ofRunConstructor
  split
  · exact Crosses.pure _
  · split
    · exact Leads.fail
    · rename_i c _
      have hrecord : P.Crosses w (.record (.constructed f.cls cls c args.length)) :=
        P.constructed w f.cls cls c args.length
      refine hrecord.bind fun _ w' => ?_
      exact (Carries.stmts w' _ c.body).crosses.bind fun _ _ => Crosses.pure _

theorem carries_ofStmt (st : Stmt) : P.Carries w f (.ofStmt f st) := by
  have hexpr : ∀ e, P.Crosses w (.expr f e) := fun _ => Leads.ask
  cases st with
  | assign target value => exact Carries.of_crosses (hexpr value) fun v w' => .store w' f target v
  | call targets c =>
    have hcall : P.Crosses w (.call f c) := Leads.ask
    refine Carries.of_crosses hcall fun vs w' => ?_
    split
    · exact Leads.fail
    · exact Carries.foldlM (fun _ _ _ => .store ..) _
  | loop item source body =>
    refine Carries.of_crosses (hexpr source) fun v w' => ?_
    split
    · exact Leads.ask
    · refine Leads.bind_heap ?_
      split
      · exact Leads.fail
      · split
        · exact Leads.fail
        · exact Leads.ask
    · exact Leads.bind_heap Leads.fail
  | branch condition thenBody elseBody =>
    refine Carries.of_crosses (hexpr condition) fun v w₁ => ?_
    refine Carries.of_crosses (crosses_condition v) fun b w₂ => ?_
    split
    · exact .stmts w₂ f thenBody
    · exact .stmts w₂ f (elseBody.getD [])

theorem carries_ofIterate (cls : Class) (m : Method) (id : ObjectId) (item : Option String)
    (body : List Stmt) : P.Carries w f (.ofIterate cls m id item body f) := by
  have hinvoke : P.Crosses w (.invoke (.iterator f.cls) cls m (some id) []) := Leads.ask
  refine Carries.of_crosses hinvoke fun vs w' => ?_
  split
  · rename_i flag value
    split
    · exact .pure w' f
    · refine (Carries.storeItem w' f value item).bind fun f₁ w₁ => ?_
      exact (Carries.stmts w₁ f₁ body).bind fun f₂ w₂ => Leads.ask
    · exact Leads.bind_heap Leads.fail
  · exact Leads.fail

theorem carries_ofRepeatWhile (source : Expr) (item : Option String) (body : List Stmt)
    (v : Value) : P.Carries w f (.ofRepeatWhile source item body v f) := by
  refine Carries.of_crosses (crosses_condition v) fun b w' => ?_
  split
  · refine (Carries.storeItem w' f v item).bind fun f₁ w₁ => ?_
    refine (Carries.stmts w₁ f₁ body).bind fun f₂ w₂ => ?_
    have hexpr : P.Crosses w₂ (.expr f₂ source) := Leads.ask
    exact Carries.of_crosses hexpr fun _ _ => Leads.ask
  · exact .pure w' f

theorem leads_code (s : Setup) (w : World) (t : Task) : P.Leads w (t.code s) (P.passes w t) := by
  cases t with
  | expr f e => exact crosses_ofExpr e
  | call f c => exact crosses_ofCall s c
  | invoke route cls m this args => exact crosses_ofInvoke route cls m this args
  | construct f name args => exact crosses_ofConstruct s name args
  | runConstructor f cls id args => exact crosses_ofRunConstructor cls id args
  | stmt f st => exact carries_ofStmt st
  | iterate cls m id item body f => exact carries_ofIterate cls m id item body
  | repeatWhile source item body v f => exact carries_ofRepeatWhile source item body v

/-- A passage relates the two ends of every evaluation that succeeds, with any budget. -/
theorem sound {s : Setup} (P : Passage) (n : Nat) (t : Task) {w w' : World} {a : t.Answer}
    (h : t.run s n w = .ok a w') : P.passes w t a w' := by
  induction n generalizing t w w' with
  | zero =>
    rw [t.run_zero] at h
    cases h
  | succ n ih =>
    rw [t.run_succ] at h
    exact (leads_code s w t).of_run (fun t => ih t) h

theorem frame_of_execBlock {s : Setup} (P : Passage) {n : Nat} {body : List Stmt} {f f' : Frame}
    {w w' : World} (h : execBlock s n f body w = .ok f' w') : P.frame w f w' f' := by
  rw [← Code.run_stmts] at h
  exact (Carries.stmts w f body).of_run (P.sound n) h

theorem world_of_start {s : Setup} (P : Passage) {budget : Nat} {lines : List String} {w : World}
    (h : s.start budget = (.finished lines, w)) : P.world .start w := by
  have hmain : s.main budget .start = .ok ⟨⟩ w := by
    unfold Setup.start EStateM.run at h
    split at h <;> cases h
    assumption
  cases hentry : s.context.entry? with
  | none =>
    rw [Setup.main, hentry] at hmain
    cases hmain
  | some entry =>
    obtain ⟨cls, m⟩ := entry
    rw [Setup.main, hentry] at hmain
    obtain ⟨vs, w', hrun, hdone⟩ := Machine.exists_of_bind hmain
    cases hdone
    exact P.sound budget (.invoke .entry cls m none []) hrun

end Passage

end Offside
