import Mathlib.Data.List.Induction
import Offside.Command.Options

/-!
The argument list in segments. An emit option takes the argument after it, whatever that is, and
every other argument stands by itself. Options are read one segment after the other, so what a
segment adds to the options that were read before it (`Gives.take`) settles what the whole list
gives: each setting follows its own rule and does not depend on the segments of the others. The
first segment that is bad behind those before it is the one that reading fails over.
-/
namespace Offside

/-- The name of a stage on the command line. -/
def Stage.name : Stage → String
  | tokens => "tokens"
  | outline => "ast"
  | run => "run"

theorem Stage.ofName?_eq_some_iff {name : String} {stage : Stage} :
    ofName? name = some stage ↔ name = stage.name := by
  constructor
  · intro h
    unfold ofName? at h
    split at h <;> cases h <;> rfl
  · rintro rfl
    cases stage <;> rfl

theorem Stage.name_injective {a b : Stage} (h : a.name = b.name) : a = b := by
  have ha : ofName? a.name = some a := ofName?_eq_some_iff.2 rfl
  rw [h, ofName?_eq_some_iff.2 rfl] at ha
  exact (Option.some.inj ha).symm

/-- An emit option with the argument after it, if there is one, or another argument by itself. -/
inductive Segment where
  | emit (option : String) (stage : Option String)
  | single (arg : String)
deriving DecidableEq

namespace Segment

def emitOptions : List String := ["--emit", "-e"]

def stageNames : List String := ["tokens", "ast", "run"]

/-- The options that stand by themselves. -/
def flags : List String := ["-v", "-vv", "--no-construction-call"]

/-- The segments of an argument list, from the left. -/
def cut : List String → List Segment
  | [] => []
  | [arg] => [if arg ∈ emitOptions then emit arg none else single arg]
  | arg :: next :: rest =>
    if arg ∈ emitOptions then emit arg (some next) :: cut rest
    else single arg :: cut (next :: rest)

/-- The arguments of a segment. -/
def words : Segment → List String
  | emit option stage => option :: stage.toList
  | single arg => [arg]

def isEmit : Segment → Bool
  | emit _ _ => true
  | single _ => false

/-- The name of a stage that a segment gives. -/
def stageName? : Segment → Option String
  | emit _ stage => stage
  | single _ => none

/-- The input file that a segment gives. -/
def path? : Segment → Option String
  | emit _ _ => none
  | single arg => if arg ∈ flags then none else some arg

/-- Every emit option has a stage, and at most one segment is an input file. -/
structure Acceptable (segs : List Segment) : Prop where
  stages : ∀ option stage, emit option stage ∈ segs → ∃ name ∈ stageNames, stage = some name
  paths : (segs.filterMap path?).length ≤ 1

/-- The options that the segments ask for. -/
structure Gives (segs : List Segment) (o : Options) : Prop where
  stage : o.stage.name = (segs.filterMap stageName?).getLast?.getD "run"
  verbosity : o.verbosity =
    if single "-vv" ∈ segs then 2 else if single "-v" ∈ segs then 1 else 0
  constructionCall : o.constructionCall = true ↔ single "--no-construction-call" ∉ segs
  input : o.input.toList = segs.filterMap path?

/-- What is wrong with a segment behind others. -/
inductive Bad (before : List Segment) : Segment → UsageError → Prop
  | missingStage (option : String) : Bad before (emit option none) (.missingStage option)
  | unknownStage {option name : String} (h : name ∉ stageNames) :
      Bad before (emit option (some name)) (.unknownStage name)
  | secondInput {s t : Segment} {first second : String} (hs : s ∈ before)
      (hfirst : s.path? = some first) (hsecond : t.path? = some second) :
      Bad before t .secondInput

/-- No segment is bad behind those before it. -/
def Clean (segs : List Segment) : Prop :=
  ∀ before s after e, segs = before ++ s :: after → ¬ Bad before s e

/-- The first bad segment is bad in this way. -/
def FirstBad (segs : List Segment) (e : UsageError) : Prop :=
  ∃ before s after, segs = before ++ s :: after ∧ Clean before ∧ Bad before s e

end Segment

open Segment

/-- The options after one more segment. -/
def Options.take (o : Options) : Segment → Except UsageError Options
  | .emit option none => .error (.missingStage option)
  | .emit _ (some name) =>
    match Stage.ofName? name with
    | some stage => .ok { o with stage }
    | none => .error (.unknownStage name)
  | .single "-v" => .ok { o with verbosity := max o.verbosity 1 }
  | .single "-vv" => .ok { o with verbosity := 2 }
  | .single "--no-construction-call" => .ok { o with constructionCall := false }
  | .single path =>
    match o.input with
    | some _ => .error .secondInput
    | none => .ok { o with input := some path }

namespace Segment

theorem cut_emit {arg : String} (h : arg ∈ emitOptions) (name : String) (rest : List String) :
    cut (arg :: name :: rest) = emit arg (some name) :: cut rest := if_pos h

theorem cut_single {arg : String} (h : arg ∉ emitOptions) (rest : List String) :
    cut (arg :: rest) = single arg :: cut rest := by
  cases rest <;> simp [cut, h]

end Segment

namespace Options

variable {o o' : Options} {s : Segment} {segs : List Segment} {e : UsageError}

theorem foldlM_of_take (h : o.take s = .ok o') :
    (s :: segs).foldlM take o = segs.foldlM take o' := by
  rw [List.foldlM_cons, h]
  rfl

theorem foldlM_of_take_error (h : o.take s = .error e) : (s :: segs).foldlM take o = .error e := by
  rw [List.foldlM_cons, h]
  rfl

theorem take_path {path : String} (h : path ∉ flags) : o.take (.single path) =
    match o.input with
    | some _ => .error .secondInput
    | none => .ok { o with input := some path } := by
  simp only [flags, List.mem_cons, List.not_mem_nil, or_false, not_or] at h
  unfold take
  split <;> simp_all

/-- An emit option is read together with the argument after it. -/
theorem extend_emit {arg : String} (h : arg ∈ emitOptions) (o : Options) (name : String)
    (rest : List String) :
    o.extend (arg :: name :: rest) = o.take (.emit arg (some name)) >>= (·.extend rest) := by
  simp only [emitOptions, List.mem_cons, List.not_mem_nil, or_false] at h
  rcases h with rfl | rfl
  · rw [extend, take]
    cases Stage.ofName? name <;> rfl
  · rw [extend, take]
    cases Stage.ofName? name <;> rfl

/-- Every other argument is read by itself. -/
theorem extend_single {arg : String} (h : arg ∉ emitOptions) (o : Options) (rest : List String) :
    o.extend (arg :: rest) = o.take (.single arg) >>= (·.extend rest) := by
  by_cases hflag : arg ∈ flags
  · simp only [flags, List.mem_cons, List.not_mem_nil, or_false] at hflag
    rcases hflag with rfl | rfl | rfl
    · rfl
    · rfl
    · rfl
  · rw [take_path hflag]
    simp only [emitOptions, flags, List.mem_cons, List.not_mem_nil, or_false, not_or] at h hflag
    rw [extend.eq_def]
    split <;> simp_all
    cases o.input <;> rfl

/-- Arguments are read one segment after the other. -/
theorem extend_eq_foldlM (o : Options) (args : List String) :
    o.extend args = (cut args).foldlM take o := by
  fun_induction cut args generalizing o with
  | case1 => rfl
  | case2 arg =>
    split
    · rename_i harg
      simp only [emitOptions, List.mem_cons, List.not_mem_nil, or_false] at harg
      rcases harg with rfl | rfl
      · rfl
      · rfl
    · rename_i harg
      rw [extend_single harg, List.foldlM_cons]
      rfl
  | case3 arg next rest harg ih =>
    simp only [extend_emit harg, List.foldlM_cons, ih]
  | case4 arg next rest harg ih =>
    simp only [extend_single harg, List.foldlM_cons, ih]

end Options

namespace Segment

variable {o o' : Options} {s : Segment} {segs : List Segment} {e : UsageError}

theorem exists_of_mem_stageNames {name : String} (h : name ∈ stageNames) :
    ∃ stage : Stage, name = stage.name := by
  simp only [stageNames, List.mem_cons, List.not_mem_nil, or_false] at h
  rcases h with rfl | rfl | rfl
  · exact ⟨.tokens, rfl⟩
  · exact ⟨.outline, rfl⟩
  · exact ⟨.run, rfl⟩

theorem gives_nil : Gives [] .default := ⟨rfl, rfl, by simp [Options.default], rfl⟩

theorem Gives.emit (h : Gives segs o) (option : String) (stage : Stage) :
    Gives (segs ++ [.emit option (some stage.name)]) { o with stage } where
  stage := by simp [stageName?]
  verbosity := by simpa using h.verbosity
  constructionCall := by simpa using h.constructionCall
  input := by simpa [path?, List.filterMap_cons] using h.input

theorem Gives.flag (h : Gives segs o) {arg : String} (harg : arg ∈ flags) :
    ∃ o', o.take (single arg) = .ok o' ∧ Gives (segs ++ [single arg]) o' := by
  have hstage : o.stage.name =
      ((segs ++ [single arg]).filterMap stageName?).getLast?.getD "run" := by
    simpa [stageName?, List.filterMap_cons] using h.stage
  have hinput : o.input.toList = (segs ++ [single arg]).filterMap path? := by
    simpa [path?, harg, List.filterMap_cons] using h.input
  have hverbosity := h.verbosity
  have hcall := h.constructionCall
  simp only [flags, List.mem_cons, List.not_mem_nil, or_false] at harg
  rcases harg with rfl | rfl | rfl
  · refine ⟨_, rfl, hstage, ?_, by simpa using hcall, hinput⟩
    by_cases hvv : single "-vv" ∈ segs
    · simp [hverbosity, hvv]
    · by_cases hv : single "-v" ∈ segs <;> simp [hverbosity, hvv, hv]
  · exact ⟨_, rfl, hstage, by simp, by simpa using hcall, hinput⟩
  · exact ⟨_, rfl, hstage, by simpa using hverbosity, by simp, hinput⟩

theorem Gives.path (h : Gives segs o) {path : String} (hp : path ∉ flags)
    (hinput : o.input = none) :
    Gives (segs ++ [single path]) { o with input := some path } := by
  have hnone := h.input
  rw [hinput] at hnone
  obtain ⟨hv, hvv, hcall⟩ : path ≠ "-v" ∧ path ≠ "-vv" ∧ path ≠ "--no-construction-call" := by
    simpa [flags] using hp
  refine ⟨?_, ?_, ?_, ?_⟩
  · simpa [stageName?, List.filterMap_cons] using h.stage
  · simpa [hv.symm, hvv.symm] using h.verbosity
  · simpa [hcall.symm] using h.constructionCall
  · simp [← hnone, path?, hp]

theorem not_bad_flag {arg : String} (h : arg ∈ flags) : ¬ Bad segs (single arg) e := by
  rintro (_ | _ | ⟨_, _, hpath⟩)
  simp [path?, h] at hpath

theorem not_bad_emit {option name : String} (h : name ∈ stageNames) :
    ¬ Bad segs (emit option (some name)) e := by
  rintro (_ | hname | ⟨_, _, hpath⟩)
  · exact hname h
  · cases hpath

/-- What a segment adds to the options of those before it: it is refused if it is bad behind them,
and otherwise the options are those of the longer list. -/
theorem Gives.take (h : Gives segs o) (s : Segment) :
    (∃ e, o.take s = .error e ∧ Bad segs s e) ∨
      ∃ o', o.take s = .ok o' ∧ Gives (segs ++ [s]) o' ∧ ∀ e, ¬ Bad segs s e := by
  cases s with
  | emit option stage =>
    cases stage with
    | none => exact .inl ⟨_, rfl, .missingStage option⟩
    | some name =>
      cases hname : Stage.ofName? name with
      | none =>
        refine .inl ⟨_, by simp [Options.take, hname], .unknownStage fun hmem => ?_⟩
        obtain ⟨stage, rfl⟩ := exists_of_mem_stageNames hmem
        cases hname.symm.trans (Stage.ofName?_eq_some_iff.2 rfl)
      | some stage =>
        obtain rfl := Stage.ofName?_eq_some_iff.1 hname
        refine .inr ⟨{ o with stage }, by simp [Options.take, hname], h.emit option stage, ?_⟩
        intro e
        exact not_bad_emit (by cases stage <;> decide)
  | single arg =>
    by_cases harg : arg ∈ flags
    · obtain ⟨o', htake, hgives⟩ := h.flag harg
      exact .inr ⟨o', htake, hgives, fun e => not_bad_flag harg⟩
    · have hpath : (single arg).path? = some arg := if_neg harg
      have htake := Options.take_path (o := o) harg
      have hpaths := h.input
      cases hinput : o.input with
      | some first =>
        rw [hinput] at htake hpaths
        have hfirst : first ∈ segs.filterMap path? := by simp [← hpaths]
        obtain ⟨s, hs, hfirst⟩ := List.mem_filterMap.1 hfirst
        exact .inl ⟨_, htake, .secondInput hs hfirst hpath⟩
      | none =>
        rw [hinput] at htake hpaths
        refine .inr ⟨_, htake, h.path harg hinput, ?_⟩
        rintro e (_ | _ | ⟨hs, hfirst, -⟩)
        have hmem := List.mem_filterMap.2 ⟨_, hs, hfirst⟩
        rw [← hpaths] at hmem
        cases hmem

theorem Bad.unique {e' : UsageError} (h : Bad segs s e) (h' : Bad segs s e') : e = e' := by
  cases h with
  | missingStage option =>
    cases h' with
    | missingStage => rfl
    | secondInput _ _ hpath => cases hpath
  | unknownStage =>
    cases h' with
    | unknownStage => rfl
    | secondInput _ _ hpath => cases hpath
  | secondInput _ _ hpath =>
    cases h' with
    | missingStage => cases hpath
    | unknownStage => cases hpath
    | secondInput => rfl

theorem clean_nil : Clean [] := by
  intro before s after e h
  simp at h

theorem Clean.concat (h : Clean segs) (hs : ∀ e, ¬ Bad segs s e) : Clean (segs ++ [s]) := by
  intro before t after e heq
  rcases List.eq_nil_or_concat after with rfl | ⟨front, last, rfl⟩
  · obtain ⟨rfl, hst⟩ := List.append_inj' heq rfl
    cases hst
    exact hs e
  · rw [List.concat_eq_append, ← List.cons_append, ← List.append_assoc] at heq
    exact h before t front e (List.append_inj' heq rfl).1

theorem FirstBad.not_clean (h : FirstBad segs e) : ¬ Clean segs := by
  obtain ⟨before, s, after, heq, -, hbad⟩ := h
  exact fun hclean => hclean before s after e heq hbad

theorem FirstBad.append (h : FirstBad segs e) (more : List Segment) :
    FirstBad (segs ++ more) e := by
  obtain ⟨before, s, after, rfl, hclean, hbad⟩ := h
  exact ⟨before, s, after ++ more, by simp, hclean, hbad⟩

/-- All segments are read, one after the other, or the first bad one is refused. -/
theorem foldlM_take (segs : List Segment) :
    (∃ o, segs.foldlM Options.take .default = .ok o ∧ Gives segs o ∧ Clean segs) ∨
      ∃ e, segs.foldlM Options.take .default = .error e ∧ FirstBad segs e := by
  induction segs using List.reverseRecOn with
  | nil => exact .inl ⟨_, rfl, gives_nil, clean_nil⟩
  | append_singleton segs s ih =>
    rw [List.foldlM_append]
    rcases ih with ⟨o, hrun, hgives, hclean⟩ | ⟨e, hrun, hbad⟩
    · rw [hrun]
      rcases hgives.take s with ⟨e, htake, hbad⟩ | ⟨o', htake, hgives', hgood⟩
      · exact .inr ⟨e, Options.foldlM_of_take_error htake, segs, s, [], rfl, hclean, hbad⟩
      · exact .inl ⟨o', Options.foldlM_of_take htake, hgives', hclean.concat hgood⟩
    · rw [hrun]
      exact .inr ⟨e, rfl, hbad.append [s]⟩

/-- Segments without a bad one are acceptable as a whole. -/
theorem Gives.acceptable (h : Gives segs o) (hclean : Clean segs) : Acceptable segs := by
  constructor
  · intro option stage hmem
    obtain ⟨before, after, rfl⟩ := List.append_of_mem hmem
    have hgood := fun e => hclean before _ after e rfl
    cases stage with
    | none => exact absurd (.missingStage option) (hgood _)
    | some name => exact ⟨name, by_contra fun hname => hgood _ (.unknownStage hname), rfl⟩
  · rw [← h.input]
    cases o.input <;> simp

theorem Acceptable.clean (h : Acceptable segs) : Clean segs := by
  rintro before s after e rfl hbad
  cases hbad with
  | missingStage option =>
    obtain ⟨name, -, hname⟩ := h.stages option none (by simp)
    cases hname
  | @unknownStage option name hunknown =>
    obtain ⟨known, hmem, hname⟩ := h.stages option (some name) (by simp)
    cases hname
    exact hunknown hmem
  | @secondInput t _ first second ht hfirst hsecond =>
    have hpaths := h.paths
    have hpos := List.length_pos_of_mem (List.mem_filterMap.2 ⟨t, ht, hfirst⟩)
    simp only [List.filterMap_append, List.filterMap_cons, hsecond, List.length_append,
      List.length_cons] at hpaths
    omega

theorem exists_foldlM_iff :
    (∃ o, segs.foldlM Options.take .default = .ok o) ↔ Acceptable segs := by
  rcases foldlM_take segs with ⟨o, hrun, hgives, hclean⟩ | ⟨e, hrun, hbad⟩
  · exact iff_of_true ⟨o, hrun⟩ (hgives.acceptable hclean)
  · refine iff_of_false ?_ fun h => hbad.not_clean h.clean
    rintro ⟨o, hok⟩
    cases hok.symm.trans hrun

theorem gives_of_foldlM (h : segs.foldlM Options.take .default = .ok o) : Gives segs o := by
  rcases foldlM_take segs with ⟨o', hrun, hgives, -⟩ | ⟨e, hrun, -⟩
  · cases h.symm.trans hrun
    exact hgives
  · cases h.symm.trans hrun

theorem foldlM_eq_error_iff : segs.foldlM Options.take .default = .error e ↔ FirstBad segs e := by
  constructor
  · intro h
    rcases foldlM_take segs with ⟨o, hrun, -⟩ | ⟨e', hrun, hbad⟩
    · cases h.symm.trans hrun
    · cases h.symm.trans hrun
      exact hbad
  · rintro ⟨before, s, after, rfl, hclean, hbad⟩
    rcases foldlM_take before with ⟨o, hrun, hgives, -⟩ | ⟨e', -, hfirst⟩
    · rw [List.foldlM_append, hrun]
      rcases hgives.take s with ⟨e', htake, hbad'⟩ | ⟨o', -, -, hgood⟩
      · rw [hbad.unique hbad']
        exact Options.foldlM_of_take_error htake
      · exact absurd hbad (hgood e)
    · exact absurd hclean hfirst.not_clean

variable {segs' : List Segment}

theorem filterMap_stageName? (segs : List Segment) :
    segs.filterMap stageName? = (segs.filter isEmit).filterMap stageName? := by
  induction segs with
  | nil => rfl
  | cons s segs ih =>
    cases s with
    | emit option stage =>
      have hemit : (emit option stage).isEmit = true := rfl
      rw [List.filter_cons_of_pos hemit, List.filterMap_cons, List.filterMap_cons, ih]
    | single arg => exact ih

theorem Gives.unique (h : Gives segs o) (h' : Gives segs o') : o = o' := by
  obtain ⟨stage, verbosity, call, input⟩ := o
  obtain ⟨stage', verbosity', call', input'⟩ := o'
  obtain rfl : stage = stage' := Stage.name_injective (h.stage.trans h'.stage.symm)
  obtain rfl : verbosity = verbosity' := h.verbosity.trans h'.verbosity.symm
  obtain rfl : call = call' := Bool.eq_iff_iff.2 (h.constructionCall.trans h'.constructionCall.symm)
  obtain rfl : input = input' := by
    have hlist : input.toList = input'.toList := h.input.trans h'.input.symm
    cases input <;> cases input' <;> simp_all
  rfl

/-- The order of the segments matters for the stages only. -/
theorem Gives.of_perm (h : Gives segs o) (hp : segs'.Perm segs)
    (he : segs'.filter isEmit = segs.filter isEmit) : Gives segs' o where
  stage := by rw [filterMap_stageName?, he, ← filterMap_stageName?, h.stage]
  verbosity := by simp only [hp.mem_iff, h.verbosity]
  constructionCall := by rw [hp.mem_iff, h.constructionCall]
  input := by
    have hpaths := hp.filterMap path?
    rw [← h.input] at hpaths
    cases hinput : o.input with
    | none =>
      rw [hinput] at hpaths
      exact hpaths.eq_nil.symm
    | some path =>
      rw [hinput] at hpaths
      exact (List.perm_singleton.1 hpaths).symm

theorem Acceptable.of_perm (h : Acceptable segs) (hp : segs'.Perm segs) : Acceptable segs' where
  stages option stage hmem := h.stages option stage (hp.mem_iff.1 hmem)
  paths := by rw [(hp.filterMap path?).length_eq]; exact h.paths

/-- A segment that starts as cutting would have it. -/
def Proper : Segment → Prop
  | emit option _ => option ∈ emitOptions
  | single arg => arg ∉ emitOptions

theorem proper_of_mem_cut {args : List String} : ∀ s ∈ cut args, s.Proper := by
  fun_induction cut args with
  | case1 => simp
  | case2 arg =>
    split
    · simpa [Proper]
    · simpa [Proper]
  | case3 arg next rest harg ih => exact List.forall_mem_cons.2 ⟨harg, ih⟩
  | case4 arg next rest harg ih => exact List.forall_mem_cons.2 ⟨harg, ih⟩

/-- Cutting parts the argument list. -/
theorem flatMap_words_cut (args : List String) : (cut args).flatMap words = args := by
  fun_induction cut args with
  | case1 => rfl
  | case2 arg => split <;> rfl
  | case3 arg next rest harg ih => simp [words, ih]
  | case4 arg next rest harg ih => simp [words, ih]

/-- Proper segments are cut from their arguments again, if no stage is missing. -/
theorem cut_flatMap_words (hp : ∀ s ∈ segs, s.Proper) (hs : ∀ option, emit option none ∉ segs) :
    cut (segs.flatMap words) = segs := by
  induction segs with
  | nil => rfl
  | cons s segs ih =>
    obtain ⟨hproper, hproper'⟩ := List.forall_mem_cons.1 hp
    have hrest := ih hproper' fun option hmem => hs option (List.mem_cons_of_mem s hmem)
    rw [List.flatMap_cons]
    cases s with
    | emit option stage =>
      cases stage with
      | none => exact absurd List.mem_cons_self (hs option)
      | some name =>
        exact (cut_emit hproper name _).trans (congrArg _ hrest)
    | single arg => exact (cut_single hproper _).trans (congrArg _ hrest)

end Segment

namespace Options

/-- What the arguments give, in terms of their segments. They are read if and only if every emit
option has a stage and there is at most one input file. Then the options are those that the segments
ask for, and stay so when the segments are put in another order that keeps the order of the emit
options. Otherwise the first bad segment is blamed. -/
theorem parse_of_segments (args : List String) :
    (cut args).flatMap words = args ∧
    ((∃ o, parse args = .ok o) ↔ Acceptable (cut args)) ∧
    (∀ o, parse args = .ok o → Gives (cut args) o ∧
      ∀ segs : List Segment, segs.Perm (cut args) → segs.filter isEmit = (cut args).filter isEmit →
        parse (segs.flatMap words) = .ok o) ∧
    ∀ e, parse args = .error e ↔ FirstBad (cut args) e := by
  have hparse : ∀ args, parse args = (cut args).foldlM take .default := extend_eq_foldlM .default
  refine ⟨flatMap_words_cut args, ?_, ?_, ?_⟩
  · rw [hparse]
    exact exists_foldlM_iff
  · intro o hok
    rw [hparse] at hok
    have hgives := gives_of_foldlM hok
    have haccept := exists_foldlM_iff.1 ⟨o, hok⟩
    refine ⟨hgives, fun segs hp he => ?_⟩
    -- the segments in their new order are cut from their arguments again
    have haccept' := haccept.of_perm hp
    have hcut : cut (segs.flatMap words) = segs := by
      refine cut_flatMap_words (fun s hs => proper_of_mem_cut s (hp.mem_iff.1 hs)) ?_
      intro option hmem
      obtain ⟨name, -, hname⟩ := haccept'.stages option none hmem
      cases hname
    rw [hparse, hcut]
    obtain ⟨o', hok'⟩ := exists_foldlM_iff.2 haccept'
    rw [hok', (gives_of_foldlM hok').unique (hgives.of_perm hp he)]
  · intro e
    rw [hparse]
    exact foldlM_eq_error_iff

theorem parse_of_segments_mixed :
    parse ["-v", "-e", "ast", "in.src", "-vv", "--emit", "tokens"] =
      .ok ⟨.tokens, 2, true, some "in.src"⟩ ∧
    parse ["-e", "ast", "-vv", "--emit", "tokens", "in.src", "-v"] =
      .ok ⟨.tokens, 2, true, some "in.src"⟩ ∧
    FirstBad (cut ["a", "--emit", "-v", "b", "-e"]) (.unknownStage "-v") := by
  have hok : parse ["-v", "-e", "ast", "in.src", "-vv", "--emit", "tokens"] =
      .ok ⟨.tokens, 2, true, some "in.src"⟩ := by decide +kernel
  have hmoved := ((parse_of_segments _).2.2.1 _ hok).2
    [.emit "-e" (some "ast"), .single "-vv", .emit "--emit" (some "tokens"), .single "in.src",
      .single "-v"] (by decide +kernel) (by decide +kernel)
  exact ⟨hok, hmoved, ((parse_of_segments _).2.2.2 _).1 (by decide +kernel)⟩

end Options

end Offside
