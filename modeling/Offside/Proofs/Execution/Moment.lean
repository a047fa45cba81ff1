import Offside.Execution.Run
import Offside.Proofs.Execution.Invariant

/-!
The moments of a run. The codes that are under way at one time stand one inside the other, each at
one of its requests. A moment is the world at such a time, with the frames and values that the codes
under way were given, made or got as answers so far. What an invariant calls good is good at every
moment (`Task.Visits.good`), and the end of the run is later than every moment of it
(`Task.Visits.later_final`).
-/
namespace Offside

/-- Code gets from one point to another, and gets these answers on its way. -/
inductive Code.Reaches (s : Setup) (n : Nat) {α : Type} :
    Code α → World → List Datum → Code α → World → Prop where
  | here {c : Code α} {w : World} : Reaches s n c w [] c w
  | effect {x : Effect} {k : x.Answer → Code α} {c : Code α} {w w' : World} {ds : List Datum} :
      Reaches s n (k (x.apply w).1) (x.apply w).2 ds c w' →
      Reaches s n (.effect x k) w (x.given (x.apply w).1 ++ ds) c w'
  | task {t : Task} {a : t.Answer} {k : t.Answer → Code α} {c : Code α} {w w₁ w' : World}
      {ds : List Datum} : t.run s n w = .ok a w₁ → Reaches s n (k a) w₁ ds c w' →
      Reaches s n (.task t k) w (t.given a ++ ds) c w'

/-- A task passes through this world, and these are the data of all tasks under way then. -/
inductive Task.Visits (s : Setup) : Nat → Task → World → List Datum → World → Prop where
  | begun {n : Nat} {t : Task} {w : World} : Visits s n t w t.data w
  | inside {n : Nat} {t : Task} {c : Code t.Answer} {w w' : World} {ds : List Datum} :
      (t.code s).Reaches s n w ds c w' → Visits s (n + 1) t w (t.data ++ ds) w'
  | nested {n : Nat} {t u : Task} {k : u.Answer → Code t.Answer} {w w' w'' : World}
      {ds ds' : List Datum} : (t.code s).Reaches s n w ds (.task u k) w' →
      Visits s n u w' ds' w'' → Visits s (n + 1) t w (t.data ++ ds ++ ds') w''
  | ended {n : Nat} {t : Task} {a : t.Answer} {w w' : World} {ds : List Datum} :
      (t.code s).Reaches s n w ds (.done a) w' →
      Visits s (n + 1) t w (t.data ++ ds ++ t.given a) w'

/-- The moments of a run from the start. -/
inductive Setup.Moment (s : Setup) (budget : Nat) : List Datum → World → Prop where
  | initial : Moment s budget [] .start
  | running {cls : Class} {m : Method} {ds : List Datum} {w : World} :
      s.context.entry? = some (cls, m) →
      (Task.invoke .entry cls m none []).Visits s budget .start ds w → Moment s budget ds w

variable {s : Setup} {n : Nat} {J : Invariant s} {α : Type} {c c' : Code α} {t : Task}
  {w w' : World} {ds : List Datum} {Q : α → World → Prop}

namespace Code

theorem final_effect (x : Effect) (k : x.Answer → Code α) (w : World) :
    ((effect x k).run (Task.run s n)).final w =
      ((k (x.apply w).1).run (Task.run s n)).final (x.apply w).2 := rfl

theorem final_task_ok {a : t.Answer} (h : t.run s n w = .ok a w') (k : t.Answer → Code α) :
    ((task t k).run (Task.run s n)).final w = ((k a).run (Task.run s n)).final w' := by
  rw [Machine.final, Machine.final, Code.run, Machine.bind_ok h]

theorem final_task_error {e : Halt} (h : t.run s n w = .error e w') (k : t.Answer → Code α) :
    ((task t k).run (Task.run s n)).final w = w' :=
  Machine.final_error (Machine.bind_error h)

/-- The end of the run does not depend on where one looks at it. -/
theorem Reaches.final_eq (h : c.Reaches s n w ds c' w') :
    (c.run (Task.run s n)).final w = (c'.run (Task.run s n)).final w' := by
  induction h with
  | here => rfl
  | effect _ ih => exact ih
  | task hrun _ ih => exact (final_task_ok hrun _).trans ih

/-- Safe code stays safe, and what it gets is good. -/
theorem Reaches.safe (h : c.Reaches s n w ds c' w') (hc : J.Safe w c Q) :
    J.Safe w' c' Q ∧ J.later w w' ∧ ∀ d ∈ ds, J.datum w' d := by
  induction h with
  | here => exact ⟨hc, J.refl _, fun _ hd => absurd hd List.not_mem_nil⟩
  | effect _ ih =>
    obtain ⟨-, hl, hgiven, hnext⟩ := hc
    obtain ⟨hsafe, hl', hrest⟩ := ih hnext
    refine ⟨hsafe, J.trans hl hl', List.forall_mem_append.2 ⟨?_, hrest⟩⟩
    exact fun d hd => (hgiven d hd).mono hl'
  | @task u a k c w w₁ w' ds hrun _ ih =>
    obtain ⟨hw, hu, hnext⟩ := hc
    have hkeeps := J.sound n u w hw hu
    have hw₁ := hkeeps.world
    have hl := hkeeps.later
    rw [Machine.final_ok hrun] at hw₁ hl
    have ha := hkeeps.result hrun
    obtain ⟨hsafe, hl', hrest⟩ := ih (hnext a w₁ hw₁ hl ha)
    refine ⟨hsafe, J.trans hl hl', List.forall_mem_append.2 ⟨?_, hrest⟩⟩
    exact fun d hd => (Invariant.datum_of_answer ha d hd).mono hl'

/-- The end of code is later than the end of a task that it asks for. -/
theorem later_final_task {k : t.Answer → Code α} (hc : J.Safe w (.task t k) Q) :
    J.later ((t.run s n).final w) (((task t k).run (Task.run s n)).final w) := by
  obtain ⟨hw, ht, hnext⟩ := hc
  have hkeeps := J.sound n t w hw ht
  cases hrun : t.run s n w with
  | ok a w₁ =>
    have hw₁ := hkeeps.world
    have hl := hkeeps.later
    rw [Machine.final_ok hrun] at hw₁ hl ⊢
    rw [final_task_ok hrun]
    exact ((hnext a w₁ hw₁ hl (hkeeps.result hrun)).keeps (J.sound n)).later
  | error e w₁ =>
    rw [Machine.final_error hrun, final_task_error hrun]
    exact J.refl w₁

/-- Code ends where it reaches its end, or where a task that it reaches fails. -/
theorem exists_reaches_final (s : Setup) (n : Nat) (c : Code α) (w : World) :
    (∃ ds c', c.Reaches s n w ds c' ((c.run (Task.run s n)).final w)) ∨
      ∃ ds t k w', c.Reaches s n w ds (.task t k) w' ∧
        (c.run (Task.run s n)).final w = (t.run s n).final w' := by
  induction c generalizing w with
  | done | halt => exact .inl ⟨[], _, .here⟩
  | effect x k ih =>
    rw [final_effect]
    rcases ih _ (x.apply w).2 with ⟨ds, c', h⟩ | ⟨ds, t, k', w', h, hfinal⟩
    · exact .inl ⟨_, c', .effect h⟩
    · exact .inr ⟨_, t, k', w', .effect h, hfinal⟩
  | task t k ih =>
    cases hrun : t.run s n w with
    | ok a w₁ =>
      rw [final_task_ok hrun]
      rcases ih a w₁ with ⟨ds, c', h⟩ | ⟨ds, u, k', w', h, hfinal⟩
      · exact .inl ⟨_, c', .task hrun h⟩
      · exact .inr ⟨_, u, k', w', .task hrun h, hfinal⟩
    | error e w₁ =>
      -- The code ends inside the task, so its end is not a point of the code itself.
      refine .inr ⟨[], t, k, w, .here, ?_⟩
      rw [final_task_error hrun, Machine.final_error hrun]

end Code

namespace Task

/-- At every moment of a task the world is good, and so is all that is in hand. -/
theorem Visits.good (h : t.Visits s n w ds w') (hw : J.world w) (ht : J.task w t) :
    J.world w' ∧ J.later w w' ∧ ∀ d ∈ ds, J.datum w' d := by
  induction h with
  | begun => exact ⟨hw, J.refl _, Invariant.datum_of_task ht⟩
  | inside hreach =>
    obtain ⟨hsafe, hl, hds⟩ := hreach.safe (J.safe_code hw ht)
    refine ⟨hsafe.world, hl, List.forall_mem_append.2 ⟨?_, hds⟩⟩
    exact fun d hd => (Invariant.datum_of_task ht d hd).mono hl
  | nested hreach _ ih =>
    obtain ⟨hsafe, hl, hds⟩ := hreach.safe (J.safe_code hw ht)
    obtain ⟨hw'', hl', hds'⟩ := ih hsafe.1 hsafe.2.1
    refine ⟨hw'', J.trans hl hl',
      List.forall_mem_append.2 ⟨List.forall_mem_append.2 ⟨?_, ?_⟩, hds'⟩⟩
    · exact fun d hd => (Invariant.datum_of_task ht d hd).mono (J.trans hl hl')
    · exact fun d hd => (hds d hd).mono hl'
  | ended hreach =>
    obtain ⟨hsafe, hl, hds⟩ := hreach.safe (J.safe_code hw ht)
    refine ⟨hsafe.1, hl, List.forall_mem_append.2 ⟨List.forall_mem_append.2 ⟨?_, hds⟩, ?_⟩⟩
    · exact fun d hd => (Invariant.datum_of_task ht d hd).mono hl
    · exact Invariant.datum_of_answer hsafe.2

theorem Visits.later_final (h : t.Visits s n w ds w') (hw : J.world w) (ht : J.task w t) :
    J.later w' ((t.run s n).final w) := by
  induction h with
  | begun => exact (J.sound _ _ _ hw ht).later
  | inside hreach | ended hreach =>
    rw [run_succ, hreach.final_eq]
    exact ((hreach.safe (J.safe_code hw ht)).1.keeps (J.sound _)).later
  | nested hreach _ ih =>
    rw [run_succ, hreach.final_eq]
    have hsafe := (hreach.safe (J.safe_code hw ht)).1
    exact J.trans (ih hsafe.1 hsafe.2.1) (Code.later_final_task hsafe)

/-- The end of a task is one of its moments. -/
theorem exists_visits_final (s : Setup) (n : Nat) (t : Task) (w : World) :
    ∃ ds, t.Visits s n w ds ((t.run s n).final w) := by
  induction n generalizing t w with
  | zero =>
    rw [run_zero]
    exact ⟨_, .begun⟩
  | succ n ih =>
    rw [run_succ]
    rcases Code.exists_reaches_final s n (t.code s) w with ⟨ds, c', h⟩ | ⟨ds, u, k, w', h, hfinal⟩
    · exact ⟨_, .inside h⟩
    · obtain ⟨ds', hu⟩ := ih u w'
      rw [hfinal]
      exact ⟨_, .nested h hu⟩

end Task

/-- The class that a run starts in, and its first entry method. -/
theorem Context.mem_of_entry {ctx : Context} {c : Class} {m : Method}
    (h : ctx.entry? = some (c, m)) :
    c ∈ ctx.classes ∧ c.methods.find? Method.isEntry = some m := by
  obtain ⟨c', hc', hm⟩ := List.exists_of_findSome?_eq_some h
  obtain ⟨m', hfind, hpair⟩ := Option.map_eq_some_iff.1 hm
  cases hpair
  exact ⟨hc', hfind⟩

namespace Setup

theorem of_ofProgram {p : Program} {constructionCall : Bool}
    (h : ofProgram p constructionCall = .ok s) :
    Context.ofProgram p = .ok s.context ∧ s.constructionCall = constructionCall := by
  unfold ofProgram at h
  cases hctx : Context.ofProgram p with
  | error f =>
    rw [hctx] at h
    cases h
  | ok ctx =>
    rw [hctx] at h
    cases h
    exact ⟨rfl, rfl⟩

theorem world_start (s : Setup) (budget : Nat) :
    (s.start budget).2 = (s.main budget).final .start := by
  unfold start Machine.final EStateM.run
  cases s.main budget .start with
  | ok => rfl
  | error e => cases e <;> rfl

theorem world_start_of_none (h : s.context.entry? = none) (budget : Nat) :
    (s.start budget).2 = .start := by
  rw [world_start, main, h]
  rfl

/-- A run that finds its entry method leaves the world as that method leaves it. -/
theorem world_start_of_entry {cls : Class} {m : Method} (h : s.context.entry? = some (cls, m))
    (budget : Nat) :
    (s.start budget).2 = ((Task.invoke .entry cls m none []).run s budget).final .start := by
  rw [world_start, main, h]
  cases hrun : (Task.invoke .entry cls m none []).run s budget .start with
  | ok vs w =>
    rw [Machine.final_ok hrun]
    exact Machine.final_ok (Machine.bind_ok hrun)
  | error e w =>
    rw [Machine.final_error hrun]
    exact Machine.final_error (Machine.bind_error hrun)

/-- The end of a run is one of its moments. -/
theorem exists_moment_end (s : Setup) (budget : Nat) :
    ∃ ds, s.Moment budget ds (s.start budget).2 := by
  cases h : s.context.entry? with
  | none =>
    rw [world_start_of_none h]
    exact ⟨[], .initial⟩
  | some entry =>
    obtain ⟨cls, m⟩ := entry
    rw [world_start_of_entry h]
    obtain ⟨ds, hvisits⟩ := Task.exists_visits_final s budget (.invoke .entry cls m none []) .start
    exact ⟨ds, .running h hvisits⟩

/-- The entry method may start in a good world. -/
theorem task_entry {cls : Class} {m : Method} (h : s.context.entry? = some (cls, m)) :
    J.task w (.invoke .entry cls m none []) := by
  have he : (Event.invoked .entry cls m 0).Legit s := ⟨h, rfl⟩
  exact ⟨J.shared (Context.mem_of_entry h).1, fun v hv => absurd hv List.not_mem_nil, J.legit he⟩

/-- At every moment of a run the world is good, and so is all that is in hand. -/
theorem Moment.good {budget : Nat} (h : s.Moment budget ds w) (hstart : J.world .start) :
    J.world w ∧ ∀ d ∈ ds, J.datum w d := by
  cases h with
  | initial => exact ⟨hstart, fun _ hd => absurd hd List.not_mem_nil⟩
  | running hentry hvisits =>
    obtain ⟨hw, -, hds⟩ := hvisits.good hstart (task_entry hentry)
    exact ⟨hw, hds⟩

theorem Moment.later_end {budget : Nat} (h : s.Moment budget ds w) (hstart : J.world .start) :
    J.later w (s.start budget).2 := by
  cases h with
  | initial =>
    cases hentry : s.context.entry? with
    | none =>
      rw [world_start_of_none hentry]
      exact J.refl _
    | some entry =>
      obtain ⟨cls, m⟩ := entry
      rw [world_start_of_entry hentry]
      exact (J.sound budget _ _ hstart (task_entry hentry)).later
  | running hentry hvisits =>
    rw [world_start_of_entry hentry]
    exact hvisits.later_final hstart (task_entry hentry)

end Setup

end Offside
