import Offside.Proofs.Execution.Moment

/-!
What tasks ask of each other. A contract says what a task requires, what its answer ensures, and
with which faults a run may end; it relies on an invariant for what is true of the world. Code meets
a contract if it asks only for tasks whose requirements hold, given that all answers are as ensured.
If the code of every task does (`Contract.kept`), all evaluations keep the contract, and a run ends
with no other fault (`Contract.admits_of_failed`).
-/
namespace Offside

structure Contract where
  requires : Task → Prop
  ensures : (t : Task) → t.Answer → Prop
  admits : Fault → Prop

namespace Contract

variable {s : Setup} {α β γ : Type} (C : Contract) (J : Invariant s)

/-- The code asks for tasks whose requirements hold, if it starts in this world and every answer is
as ensured; and if it is done, its result is as said. -/
def Meets : World → Code α → (α → Prop) → Prop
  | _, .done a, Q => Q a
  | _, .halt e, _ => ∀ f, e = .fault f → C.admits f
  | w, .effect x k, Q => Meets (x.apply w).2 (k (x.apply w).1) Q
  | w, .task t k, Q => C.requires t ∧ ∀ a w', J.world w' → J.later w w' → J.answer w' t a →
      C.ensures t a → Meets w' (k a) Q

/-- What a computation gives is as said, and it fails only in ways that are admitted. -/
structure Holds (w : World) (x : Machine α) (Q : α → Prop) : Prop where
  result : ∀ {a w'}, x w = .ok a w' → Q a
  fault : ∀ {f w'}, x w = .error (.fault f) w' → C.admits f

/-- All tasks keep the contract when they have this budget. -/
def Kept (n : Nat) : Prop :=
  ∀ (t : Task) (w : World), J.world w → J.task w t → C.requires t →
    C.Holds w (t.run s n) (C.ensures t)

variable {C J} {w w' : World} {c : Code α} {k : α → Code β} {Q Q' : α → Prop} {R : β → Prop}

namespace Holds

variable {x y : Machine α}

theorem of_eq (h : x w = y w') (hy : C.Holds w' y Q) : C.Holds w x Q where
  result hx := hy.result (h ▸ hx)
  fault hx := hy.fault (h ▸ hx)

theorem of_error {e : Halt} (h : x w = .error e w') (he : ∀ f, e = .fault f → C.admits f) :
    C.Holds w x Q where
  result hx := by cases h.symm.trans hx
  fault hx := by
    cases h.symm.trans hx
    exact he _ rfl

end Holds

namespace Meets

theorem pure {a : α} (hq : Q a) : C.Meets J w (Pure.pure a) Q := hq

theorem fail {f : Fault} (hf : C.admits f) : C.Meets J w (.fail f) Q := by
  intro f' heq
  cases heq
  exact hf

theorem bind (hc : C.Meets J w c Q) (hk : ∀ a w', Q a → C.Meets J w' (k a) R) :
    C.Meets J w (c >>= k) R := by
  induction c generalizing w with
  | done a => exact hk a w hc
  | halt e => exact hc
  | effect x k' ih => exact ih _ hc
  | task t k' ih => exact ⟨hc.1, fun a w₁ hw hl ha he => ih a (hc.2 a w₁ hw hl ha he)⟩

theorem mono (hc : C.Meets J w c Q) (h : ∀ a, Q a → Q' a) : C.Meets J w c Q' := by
  rw [← bind_pure c]
  exact hc.bind fun a _ hq => h a hq

theorem ask {t : Task} (ht : C.requires t) : C.Meets J w (.ask t) (C.ensures t) :=
  ⟨ht, fun _ _ _ _ _ he => he⟩

theorem ofExcept {e : Except Fault α} (hok : ∀ a, e = .ok a → Q a)
    (herror : ∀ f, e = .error f → C.admits f) : C.Meets J w (.ofExcept e) Q := by
  cases e with
  | ok a => exact hok a rfl
  | error f => exact fail (herror f rfl)

theorem bind_ofExcept {e : Except Fault α} (hok : ∀ a, e = .ok a → C.Meets J w (k a) R)
    (herror : ∀ f, e = .error f → C.admits f) : C.Meets J w (.ofExcept e >>= k) R := by
  cases e with
  | ok a => exact hok a rfl
  | error f => exact fail (herror f rfl)

theorem bind_heap {k : Heap → Code β} (h : C.Meets J w (k w.heap) R) :
    C.Meets J w (.heap >>= k) R := h

theorem record (e : Event) : C.Meets J w (.record e) fun _ => True := trivial

theorem writeLine (vs : List Value) : C.Meets J w (.writeLine vs) fun _ => True := trivial

theorem allocate (i : Instance) : C.Meets J w (.allocate i) fun _ => True := trivial

theorem mapM {g : γ → Code α} (items : List γ)
    (h : ∀ c ∈ items, ∀ w, C.Meets J w (g c) fun _ => True) :
    C.Meets J w (items.mapM g) fun _ => True := by
  induction items generalizing w with
  | nil =>
    rw [List.mapM_nil]
    exact pure trivial
  | cons c items ih =>
    rw [List.mapM_cons]
    refine (h c List.mem_cons_self w).bind fun a w₁ _ => ?_
    refine (ih fun c hc => h c (List.mem_cons_of_mem _ hc)).bind fun as w₂ _ => ?_
    exact pure trivial

/-- What each item keeps, the whole run over the items keeps. -/
theorem foldlM {g : α → γ → Code α} (items : List γ) {a : α} (ha : Q a)
    (h : ∀ c ∈ items, ∀ a w, Q a → C.Meets J w (g a c) Q) : C.Meets J w (items.foldlM g a) Q := by
  induction items generalizing w a with
  | nil =>
    rw [List.foldlM_nil]
    exact pure ha
  | cons c items ih =>
    rw [List.foldlM_cons]
    refine (h c List.mem_cons_self a w ha).bind fun b w₁ hb => ?_
    exact ih hb fun c hc => h c (List.mem_cons_of_mem _ hc)

/-- Code that meets a contract keeps it, if the tasks that it asks for do. -/
theorem holds {n : Nat} {P : α → World → Prop} (hn : C.Kept J n) (hsafe : J.Safe w c P)
    (hc : C.Meets J w c Q) : C.Holds w (c.run (Task.run s n)) Q := by
  induction c generalizing w with
  | done a =>
    refine ⟨fun h => ?_, fun h => ?_⟩ <;> cases h
    exact hc
  | halt e => exact .of_error rfl hc
  | effect x k ih =>
    have hstep : (Code.effect x k).run (Task.run s n) w =
        (k (x.apply w).1).run (Task.run s n) (x.apply w).2 := rfl
    exact .of_eq hstep (ih _ hsafe.2.2.2 hc)
  | task t k ih =>
    obtain ⟨hw, ht, hnext⟩ := hsafe
    have hkeeps := J.sound n t w hw ht
    have hholds := hn t w hw ht hc.1
    cases hrun : t.run s n w with
    | ok a w₁ =>
      have hw₁ := hkeeps.world
      have hl := hkeeps.later
      rw [Machine.final_ok hrun] at hw₁ hl
      have ha := hkeeps.result hrun
      exact .of_eq (Machine.bind_ok hrun)
        (ih a (hnext a w₁ hw₁ hl ha) (hc.2 a w₁ hw₁ hl ha (hholds.result hrun)))
    | error e w₁ =>
      refine .of_error (Machine.bind_error hrun) fun f hf => ?_
      exact hholds.fault (hf ▸ hrun)

end Meets

/-- If the code of every task meets the contract, all evaluations keep it, with any budget. -/
theorem kept (hcode : ∀ (t : Task) (w : World), J.world w → J.task w t → C.requires t →
    C.Meets J w (t.code s) (C.ensures t)) (n : Nat) : C.Kept J n := by
  induction n with
  | zero =>
    intro t w _ _ _
    rw [t.run_zero]
    exact .of_error rfl fun f hf => by cases hf
  | succ n ih =>
    intro t w hw ht hr
    rw [t.run_succ]
    exact (hcode t w hw ht hr).holds ih (J.safe_code hw ht)

/-- A run that fails, but not for want of an entry method, ends with an admitted fault. -/
theorem admits_of_failed {budget : Nat} {f : Fault} (hkept : C.Kept J budget)
    (hstart : J.world .start)
    (hentry : ∀ cls m, s.context.entry? = some (cls, m) →
      C.requires (.invoke .entry cls m none []))
    (h : (s.start budget).1 = .failed f) : f = .noEntryPoint ∨ C.admits f := by
  have hmain : ∃ w, s.main budget .start = .error (.fault f) w := by
    unfold Setup.start EStateM.run at h
    split at h <;> cases h
    exact ⟨_, ‹_›⟩
  obtain ⟨w, hmain⟩ := hmain
  cases hfind : s.context.entry? with
  | none =>
    rw [Setup.main, hfind] at hmain
    cases hmain
    exact .inl rfl
  | some entry =>
    obtain ⟨cls, m⟩ := entry
    rw [Setup.main, hfind] at hmain
    have hholds := hkept (.invoke .entry cls m none []) .start hstart (Setup.task_entry hfind)
      (hentry cls m hfind)
    cases hrun : (Task.invoke .entry cls m none []).run s budget .start with
    | ok vs w₁ => cases (Machine.bind_ok hrun).symm.trans hmain
    | error e w₁ =>
      cases (Machine.bind_error hrun).symm.trans hmain
      exact .inr (hholds.fault hrun)

end Contract

end Offside
