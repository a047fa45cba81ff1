import Offside.Proofs.Execution.Loop
import Offside.Proofs.Execution.Termination

/-!
Which variables a block of statements can change. A footprint says which names may be written and
which may appear as loop variables; it covers a statement if it has all names that occur as targets
in it, at any depth. Whatever a statement evaluates, calls and constructs, the change that it makes
to its frame is one that a covering footprint admits (`Footprint.admitted`). So a block changes the
locals that it names as targets, and no others. Expressions, arguments, calls and constructions have
no targets, and give back the very frame that they got.
-/
namespace Offside

/-- The names that a statement itself writes: the target of an assignment, the targets of a call,
the variable of a loop. -/
def Stmt.targets : Stmt → List String
  | assign target _ => [target]
  | call targets _ => targets
  | loop item _ _ => item.toList
  | branch .. => []

/-- The name is a target somewhere in the statements. -/
def Targeted (body : List Stmt) (name : String) : Prop :=
  ∃ st ∈ body, ∃ d, st.Contains d ∧ name ∈ d.targets

theorem not_targeted_nil (name : String) : ¬ Targeted [] name := by
  rintro ⟨st, hst, -⟩
  cases hst

/-- The targets of a block are those of its statements by themselves and of all that stands below
them. -/
theorem targeted_cons {st : Stmt} {body : List Stmt} {name : String} :
    Targeted (st :: body) name ↔
      name ∈ st.targets ∨ Targeted st.children name ∨ Targeted body name := by
  constructor
  · rintro ⟨c, hc, d, hd, hname⟩
    rcases List.mem_cons.1 hc with rfl | hc
    · cases hd with
      | refl => exact .inl hname
      | inside hchild hd => exact .inr (.inl ⟨_, hchild, d, hd, hname⟩)
    · exact .inr (.inr ⟨c, hc, d, hd, hname⟩)
  · rintro (hname | ⟨c, hc, d, hd, hname⟩ | ⟨c, hc, d, hd, hname⟩)
    · exact ⟨st, List.mem_cons_self, st, .refl st, hname⟩
    · exact ⟨st, List.mem_cons_self, d, .inside hc hd, hname⟩
    · exact ⟨c, List.mem_cons_of_mem st hc, d, hd, hname⟩

/-- The name is the variable of a loop somewhere in the statements. -/
def LoopVariable (body : List Stmt) (name : String) : Prop :=
  ∃ st ∈ body, ∃ source inner, st.Contains (.loop (some name) source inner)

/-- The names that may be written, and those that may be written as loop variables. -/
structure Footprint where
  target : String → Prop
  item : String → Prop

namespace Footprint

variable (F : Footprint)

/-- The footprint has the names that the statement writes, at any depth. -/
def Covers (st : Stmt) : Prop :=
  ∀ d, st.Contains d → (∀ name ∈ d.targets, F.target name) ∧
    ∀ name source inner, d = .loop (some name) source inner → F.item name

/-- The footprint has what a loop with this variable and body writes. -/
structure CoversLoop (item : Option String) (body : List Stmt) : Prop where
  item : ∀ name, item = some name → F.target name ∧ F.item name
  body : ∀ st ∈ body, F.Covers st

/-- The second frame is the first one after changes to names of the footprint. -/
structure Admits (f f' : Frame) : Prop where
  cls : f'.cls = f.cls
  this : f'.this = f.this
  returns : f'.returns = f.returns
  grows : f.Grows f'
  kept : ∀ name, ¬ F.target name → f'.locals.get? name = f.locals.get? name
  created : ∀ name, f'.locals.has name = true → f.locals.has name = false →
    name ∈ f.returns ∨ F.item name
  exact : (∀ name, ¬ F.target name) → f' = f

variable {F} {f f' f'' : Frame} {s : Setup} {w w' : World}

theorem Covers.inside {st c : Stmt} (h : F.Covers st) (hc : c ∈ st.children) : F.Covers c :=
  fun d hd => h d (.inside hc hd)

theorem Covers.loop {item : Option String} {source : Expr} {body : List Stmt}
    (h : F.Covers (.loop item source body)) : F.CoversLoop item body where
  item name hname := by
    subst hname
    obtain ⟨htargets, hitem⟩ := h _ (.refl _)
    exact ⟨htargets name (by simp [Stmt.targets]), hitem name source body rfl⟩
  body st hst := h.inside hst

namespace Admits

theorem refl (f : Frame) : F.Admits f f where
  cls := rfl
  this := rfl
  returns := rfl
  grows := .refl f
  kept _ _ := rfl
  created name hnew hold := by
    rw [hnew] at hold
    cases hold
  exact _ := rfl

theorem trans (h : F.Admits f f') (h' : F.Admits f' f'') : F.Admits f f'' where
  cls := h'.cls.trans h.cls
  this := h'.this.trans h.this
  returns := h'.returns.trans h.returns
  grows := h.grows.trans h'.grows
  kept name hname := (h'.kept name hname).trans (h.kept name hname)
  created name hnew hold := by
    cases hmid : f'.locals.has name with
    | true => exact h.created name hmid hold
    | false =>
      have hcreated := h'.created name hnew hmid
      rw [h.returns] at hcreated
      exact hcreated
  exact hnone := (h'.exact hnone).trans (h.exact hnone)

/-- A name of the footprint is bound as a local. -/
theorem set {name : String} (hname : F.target name)
    (hnew : f.locals.has name = false → name ∈ f.returns ∨ F.item name) (v : Value) :
    F.Admits f { f with locals := f.locals.set name v } where
  cls := rfl
  this := rfl
  returns := rfl
  grows n hn := (f.locals.has_set name n v).2 (.inr hn)
  kept n hn := by
    have hne : n ≠ name := fun heq => hn (heq ▸ hname)
    rw [Bindings.get?_set, if_neg hne]
  created n hn hold := by
    rcases (f.locals.has_set name n v).1 hn with rfl | hhas
    · exact hnew hold
    · rw [hhas] at hold
      cases hold
  exact hnone := absurd hname (hnone name)

theorem store {name : String} {v : Value} (hname : F.target name)
    (h : Machine.store f name v w = .ok f' w') : F.Admits f f' := by
  obtain ⟨slot, hslot, rfl⟩ := Machine.exists_slot_of_store h
  cases slot with
  | member id => exact .refl f
  | localVariable =>
    refine .set hname (fun hnew => .inl ?_) v
    unfold Frame.slot? at hslot
    split at hslot
    · cases hslot
    · split at hslot
      · rename_i hknown
        simpa [hnew] using hknown
      · cases hslot

theorem storeItem {item : Option String} {v : Value}
    (hitem : ∀ name, item = some name → F.target name ∧ F.item name)
    (h : Machine.storeItem f v item w = .ok f' w') : F.Admits f f' := by
  cases Machine.storeItem_eq_ok.1 h with
  | nothing => exact .refl f
  | member => exact .refl f
  | @localVariable _ _ name =>
    obtain ⟨htarget, hname⟩ := hitem name rfl
    exact .set htarget (fun _ => .inr hname) v

/-- What each item admits, the whole run over the items does. -/
theorem foldlM {γ : Type} {g : Frame → γ → Machine Frame} (items : List γ)
    (hstep : ∀ x ∈ items, ∀ f w f' w', g f x w = .ok f' w' → F.Admits f f')
    (h : items.foldlM g f w = .ok f' w') : F.Admits f f' := by
  induction items generalizing f w with
  | nil =>
    cases h
    exact .refl _
  | cons x items ih =>
    rw [List.foldlM_cons] at h
    obtain ⟨f₁, w₁, hx, hrest⟩ := Machine.exists_of_bind h
    have hfirst := hstep x List.mem_cons_self f w f₁ w₁ hx
    exact hfirst.trans (ih (fun y hy => hstep y (List.mem_cons_of_mem x hy)) hrest)

end Admits

variable (F) in
/-- What a footprint says of the frame that a task gives. -/
def Admitted : (t : Task) → t.Answer → Prop
  | .stmt f st, f' => F.Covers st → F.Admits f f'
  | .iterate _ _ _ item body f, f' | .repeatWhile _ item body _ f, f' =>
    F.CoversLoop item body → F.Admits f f'
  | .expr .., _ | .call .., _ | .invoke .., _ | .construct .., _ | .runConstructor .., _ => True

section Step

variable {n : Nat} (hn : ∀ (t : Task) {w w' : World} {a : t.Answer},
  t.run s n w = .ok a w' → F.Admitted t a)

include hn

theorem admits_execBlock {body : List Stmt} (hbody : ∀ st ∈ body, F.Covers st)
    (h : execBlock s n f body w = .ok f' w') : F.Admits f f' := by
  rw [execBlock_eq_foldlM] at h
  refine .foldlM body (fun st hst f₁ w₁ f₂ w₂ hstmt => ?_) h
  exact hn (.stmt f₁ st) hstmt (hbody st hst)

theorem admits_execStmt {st : Stmt} (hst : F.Covers st)
    (h : execStmt s (n + 1) f st w = .ok f' w') : F.Admits f f' := by
  have htargets := (hst st (.refl st)).1
  cases st with
  | assign target value =>
    obtain ⟨v, w₁, -, hstore⟩ := exists_of_assign h
    exact .store (htargets target (by simp [Stmt.targets])) hstore
  | call targets c =>
    obtain ⟨vs, w₁, -, hstores⟩ := exists_of_callStmt h
    refine .foldlM _ (fun x hx f₁ w₁ f₂ w₂ hstore => ?_) hstores
    exact .store (htargets x.1 (List.of_mem_zip hx).1) hstore
  | loop item source body =>
    obtain ⟨v, w₁, -, hwhile | ⟨cls, m, id, hiterate⟩⟩ := exists_of_loop h
    · exact hn (.repeatWhile source item body v f) hwhile hst.loop
    · exact hn (.iterate cls m id item body f) hiterate hst.loop
  | branch condition thenBody elseBody =>
    obtain ⟨v, w₁, b, -, -, hblock⟩ := exists_of_branch h
    refine admits_execBlock hn (fun c hc => hst.inside ?_) hblock
    cases b with
    | true => exact List.mem_append_left _ hc
    | false => exact List.mem_append_right _ hc

theorem admits_iterate {cls : Class} {m : Method} {id : ObjectId} {item : Option String}
    {body : List Stmt} (hloop : F.CoversLoop item body)
    (h : iterate s (n + 1) cls m id item body f w = .ok f' w') : F.Admits f f' := by
  obtain ⟨flag, v, w₁, -, ⟨-, rfl, -⟩ | ⟨-, f₂, w₂, f₃, w₃, hstore, hblock, hrest⟩⟩ :=
    exists_of_iterate h
  · exact .refl f'
  · have hitem : F.Admits f f₂ := .storeItem hloop.item hstore
    have hround := hitem.trans (admits_execBlock hn hloop.body hblock)
    exact hround.trans (hn (.iterate cls m id item body f₃) hrest hloop)

theorem admits_repeatWhile {source : Expr} {item : Option String} {body : List Stmt} {v : Value}
    (hloop : F.CoversLoop item body)
    (h : repeatWhile s (n + 1) source item body v f w = .ok f' w') : F.Admits f f' := by
  obtain ⟨-, rfl, -⟩ | ⟨-, f₂, w₂, f₃, w₃, v', w₄, hstore, hblock, -, hrest⟩ :=
    exists_of_repeatWhile h
  · exact .refl f'
  · have hitem : F.Admits f f₂ := .storeItem hloop.item hstore
    have hround := hitem.trans (admits_execBlock hn hloop.body hblock)
    exact hround.trans (hn (.repeatWhile source item body v' f₃) hrest hloop)

end Step

/-- A footprint admits what every statement that it covers does to its frame, with any budget. -/
theorem admitted (n : Nat) (t : Task) {a : t.Answer} (h : t.run s n w = .ok a w') :
    F.Admitted t a := by
  induction n generalizing t w w' with
  | zero =>
    rw [t.run_zero] at h
    cases h
  | succ n ih =>
    cases t with
    | expr | call | invoke | construct | runConstructor => trivial
    | stmt f st => exact fun hst => admits_execStmt (fun t => ih t) hst h
    | iterate cls m id item body f => exact fun hloop => admits_iterate (fun t => ih t) hloop h
    | repeatWhile source item body v f =>
      exact fun hloop => admits_repeatWhile (fun t => ih t) hloop h

/-- The footprint of a block. -/
def ofBlock (body : List Stmt) : Footprint := ⟨Targeted body, LoopVariable body⟩

theorem covers_ofBlock {body : List Stmt} {st : Stmt} (hst : st ∈ body) :
    (ofBlock body).Covers st := by
  intro d hd
  refine ⟨fun name hname => ⟨st, hst, d, hd, hname⟩, fun name source inner heq => ?_⟩
  subst heq
  exact ⟨st, hst, source, inner, hd⟩

end Footprint

/-- A block of statements that succeeds keeps the class, the current object and the return variables
of its frame, and all its locals. A local keeps its value, or its absence, unless its name is the
target of an assignment or a call or the variable of a loop somewhere in the block; and a local that
is new is a return variable or the variable of a loop. An expression, a list of arguments, a call
and a construction, whatever is called and constructed in them and however they end, leave the frame
exactly as it was: each does what it does to the world, beside the frame. -/
theorem only_targets_change (s : Setup) (n : Nat) :
    (∀ (body : List Stmt) (f f' : Frame) (w w' : World),
      Routine.ofBlock s n body ⟨f, w⟩ = .ok ⟨⟩ ⟨f', w'⟩ →
      f'.cls = f.cls ∧ f'.this = f.this ∧ f'.returns = f.returns ∧
      (∀ name, f.locals.has name = true → f'.locals.has name = true) ∧
      (∀ name, ¬ Targeted body name → f'.locals.get? name = f.locals.get? name) ∧
      (∀ name, f'.locals.has name = true → f.locals.has name = false →
        name ∈ f.returns ∨ LoopVariable body name) ∧
      ((∀ name, ¬ Targeted body name) → f' = f)) ∧
    (∀ e a, ((Routine.ofExpr s n e).final a).frame = a.frame ∧
      Routine.ofExpr s n e a = Routine.lift (evalExpr s n a.frame e) a) ∧
    (∀ args a, ((Routine.ofArguments s n args).final a).frame = a.frame ∧
      Routine.ofArguments s n args a = Routine.lift (args.mapM (evalExpr s n a.frame)) a) ∧
    (∀ c a, ((Routine.ofCall s n c).final a).frame = a.frame ∧
      Routine.ofCall s n c a = Routine.lift (evalCall s n a.frame c) a) ∧
    ∀ name args a, ((Routine.ofConstruct s n name args).final a).frame = a.frame ∧
      Routine.ofConstruct s n name args a = Routine.lift (construct s n a.frame name args) a := by
  refine ⟨fun body f f' w w' h => ?_, fun e a => ?_, fun args a => ?_, fun c a => ?_,
    fun name args a => ?_⟩
  · have hadmits : (Footprint.ofBlock body).Admits f f' :=
      Footprint.admits_execBlock (fun t => Footprint.admitted n t)
        (fun _ => Footprint.covers_ofBlock) (execBlock_of_ofBlock h)
    exact ⟨hadmits.cls, hadmits.this, hadmits.returns, hadmits.grows, hadmits.kept,
      hadmits.created, hadmits.exact⟩
  · have hkeeps := Routine.ofExpr_keeps s n e
    exact ⟨hkeeps a, hkeeps.eq_lift a⟩
  · have hkeeps := Routine.ofArguments_keeps s n args
    refine ⟨hkeeps a, (hkeeps.eq_lift a).trans ?_⟩
    rw [Routine.valueFrom_ofArguments]
  · have hkeeps := Routine.ofCall_keeps s n c
    exact ⟨hkeeps a, hkeeps.eq_lift a⟩
  · have hkeeps := Routine.ofConstruct_keeps s n name args
    exact ⟨hkeeps a, hkeeps.eq_lift a⟩

namespace Switch

def keeper : Frame :=
  ⟨consoleClass, none, ⟨[("on", .boolean true), ("kept", .number 3)]⟩, ["result"]⟩

def report : List Stmt := [.loop none isOn turnOff, .assign "result" (.var "kept")]

end Switch

open Switch in
theorem only_targets_change_switch :
    (∃ f w, Routine.ofBlock ⟨⟨[]⟩, false⟩ 8 report ⟨keeper, .start⟩ = .ok ⟨⟩ ⟨f, w⟩ ∧
      f.locals.get? "kept" = some (.number 3)) ∧
    ((Routine.ofExpr ⟨⟨[]⟩, false⟩ 8 isOn).final ⟨keeper, .start⟩).frame = keeper := by
  obtain ⟨hblock, hexpr, -⟩ := only_targets_change ⟨⟨[]⟩, false⟩ 8
  obtain ⟨f, w, hrun⟩ : ∃ f w, Routine.ofBlock ⟨⟨[]⟩, false⟩ 8 report ⟨keeper, .start⟩ =
      .ok ⟨⟩ ⟨f, w⟩ := ⟨_, _, rfl⟩
  have hkept : ¬ Targeted report "kept" := by
    simp [report, targeted_cons, not_targeted_nil, Stmt.targets, Stmt.children, turnOff]
  obtain ⟨-, -, -, -, hsame, -⟩ := hblock _ _ _ _ _ hrun
  exact ⟨⟨f, w, hrun, hsame "kept" hkept⟩, (hexpr isOn _).1⟩

end Offside
