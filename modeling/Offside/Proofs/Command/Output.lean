import Offside.Command.Session
import Offside.Proofs.Execution.Passage
import Offside.Proofs.Execution.Scope

/-!
What a run prints. The console has one line for each call of the method that writes to it, and the
command line prints the lines with a line feed after each. There is one exception: a run that writes
a single line, and this line is empty, prints nothing at all, like a run that writes none.
-/
namespace Offside

/-- Whether the event put a line on the console. -/
def Event.writesLine : Event → Bool
  | invoked _ _ m _ => !m.hasStatements
  | constructed .. => false

/-- The console has a line for each event that put one there. -/
def World.Tallied (w : World) : Prop := w.console.size = w.journal.countP Event.writesLine

namespace World

variable {w : World}

theorem Tallied.record (h : w.Tallied) {e : Event} (he : e.writesLine = false) :
    Tallied { w with journal := e :: w.journal } := by
  unfold Tallied
  rw [List.countP_cons_of_neg (Bool.not_eq_true _ ▸ he)]
  exact h

theorem Tallied.push (h : w.Tallied) {e : Event} (he : e.writesLine = true) (line : String) :
    Tallied ⟨w.heap, w.console.push line, e :: w.journal⟩ := by
  unfold Tallied
  rw [List.countP_cons_of_pos he, Array.size_push]
  exact congrArg (· + 1) h

end World

/-- Evaluations write lines and record them alike. -/
def tallyPassage : Passage where
  world w w' := w.Tallied → w'.Tallied
  frame w _ w' _ := w.Tallied → w'.Tallied
  refl _ := id
  trans h h' := h' ∘ h
  world_of_frame h := h
  frame_of_world _ h := h
  frame_trans h h' := h' ∘ h
  store _ _ := id
  storeItem _ _ := id
  alloc _ _ := id
  entered _ _ _ _ _ hm h := h.record (by rw [Event.writesLine, hm]; rfl)
  printed _ _ _ _ _ line hm h := h.push (by rw [Event.writesLine, hm]; rfl) line
  constructed _ _ _ _ _ h := h.record rfl

theorem Setup.lines_of_start {s : Setup} {budget : Nat} {lines : List String} {w : World}
    (h : s.start budget = (.finished lines, w)) : lines = w.console.toList := by
  unfold start at h
  split at h <;> cases h
  rfl

namespace Session

/-- Lines with a line feed after each. -/
def terminated (lines : List String) : String := String.join (lines.map (· ++ "\n"))

theorem outputText_append_newline (line : String) (lines : List String) :
    outputText (line :: lines) ++ "\n" = terminated (line :: lines) := by
  induction lines generalizing line with
  | nil => simp [outputText, terminated]
  | cons next lines ih =>
    have hnext := ih next
    rw [outputText] at hnext
    rw [outputText, String.intercalate_cons_cons, String.append_assoc, hnext]
    simp [terminated]

theorem outputText_eq_empty_iff (lines : List String) :
    outputText lines = "" ↔ lines = [] ∨ lines = [""] := by
  cases lines with
  | nil => simp [outputText]
  | cons line lines =>
    cases lines with
    | nil => simp [outputText]
    | cons next lines =>
      rw [outputText, String.intercalate_cons_cons]
      simp [String.append_eq_empty_iff]

theorem printed_eq (lines : List String) :
    printed lines = if lines = [""] then "" else terminated lines := by
  unfold printed
  simp only [String.isEmpty_iff, outputText_eq_empty_iff]
  cases lines with
  | nil => simp [terminated]
  | cons line lines =>
    rw [outputText_append_newline]
    simp

/-- A use of the command line takes its source to the last stage, where the run succeeds and leaves
this world. -/
def Completes (args : List String) (read : Option String → Except ReadFailure String)
    (w : World) : Prop :=
  ∃ o source tokens p s, Options.parse args = .ok o ∧ o.stage = .run ∧
    read o.input = .ok source ∧ tokenize source = .ok tokens ∧ Program.ofTokens tokens = .ok p ∧
    Setup.ofProgram p o.constructionCall = .ok s ∧
    s.start ampleBudget = (.finished w.console.toList, w)

variable {args : List String} {read : Option String → Except ReadFailure String} {o : Options}

theorem Completes.tallied {w : World} (h : Completes args read w) : w.Tallied := by
  obtain ⟨o, source, tokens, p, s, -, -, -, -, -, -, hrun⟩ := h
  exact tallyPassage.world_of_start hrun rfl

theorem Completes.respond_eq {w : World} (h : Completes args read w) :
    (respond args read).code = 0 ∧ (respond args read).stdout = printed w.console.toList := by
  obtain ⟨o, source, tokens, p, s, hoptions, hstage, hread, htokens, hprogram, hsetup, hrun⟩ := h
  simp [respond, hoptions, hread, process, htokens, hstage, hprogram, runProgram, hsetup, hrun]

theorem exists_run_of_code {p : Program} (hcode : (runProgram o p).code = 0) :
    ∃ s w, Setup.ofProgram p o.constructionCall = .ok s ∧
      s.start ampleBudget = (.finished w.console.toList, w) := by
  unfold runProgram at hcode
  split at hcode
  · cases hcode
  · rename_i s hsetup
    cases hrun : s.start ampleBudget with
    | mk outcome w =>
      rw [hrun] at hcode
      cases outcome with
      | finished lines =>
        have hlines := Setup.lines_of_start hrun
        exact ⟨s, w, hsetup, hlines ▸ hrun⟩
      | failed f => cases hcode
      | exhausted => cases hcode

theorem exists_program_of_code {source : String} (hstage : o.stage = .run)
    (hcode : (process o source).code = 0) :
    ∃ tokens p, tokenize source = .ok tokens ∧ Program.ofTokens tokens = .ok p ∧
      (runProgram o p).code = 0 := by
  unfold process at hcode
  split at hcode
  · cases hcode
  · rename_i tokens htokens
    rw [hstage, if_neg (by decide)] at hcode
    split at hcode
    · cases hcode
    · rename_i p hprogram
      rw [if_neg (by decide)] at hcode
      exact ⟨tokens, p, htokens, hprogram, hcode⟩

/-- A use for the last stage succeeds if every stage does, and only then. -/
theorem code_eq_zero_iff (hoptions : Options.parse args = .ok o) (hstage : o.stage = .run) :
    (respond args read).code = 0 ↔ ∃ w, Completes args read w := by
  constructor
  · intro hcode
    simp only [respond, hoptions] at hcode
    split at hcode
    · cases hcode
    · rename_i source hread
      obtain ⟨tokens, p, htokens, hprogram, hrun⟩ := exists_program_of_code hstage hcode
      obtain ⟨s, w, hsetup, hstart⟩ := exists_run_of_code hrun
      exact ⟨w, o, source, tokens, p, s, hoptions, hstage, hread, htokens, hprogram, hsetup,
        hstart⟩
  · rintro ⟨w, hw⟩
    exact hw.respond_eq.1

/-- The command line, asked to run a program, succeeds exactly if the program can be read and its
run ends well. The run has then collected one line for each call that writes to the console, and
what is printed is these lines in order, a line feed after each; except that nothing is printed if
there is one line and it is empty. -/
theorem stdout_of_completes (hoptions : Options.parse args = .ok o) (hstage : o.stage = .run) :
    ((respond args read).code = 0 ↔ ∃ w, Completes args read w) ∧
    ∀ w, Completes args read w →
      w.console.size = w.journal.countP Event.writesLine ∧
      ((respond args read).stdout = terminated w.console.toList ↔ w.console.toList ≠ [""]) ∧
      (w.console.toList = [""] → (respond args read).stdout = "") := by
  refine ⟨code_eq_zero_iff hoptions hstage, fun w hw => ⟨hw.tallied, ?_⟩⟩
  rw [hw.respond_eq.2, printed_eq]
  by_cases hline : w.console.toList = [""]
  · rw [if_pos hline, hline]
    exact ⟨⟨fun heq => absurd heq (by decide), fun hne => absurd rfl hne⟩, fun _ => rfl⟩
  · rw [if_neg hline]
    exact ⟨⟨fun _ => hline, fun _ => rfl⟩, fun heq => absurd heq hline⟩

end Session

namespace Silence

/-- Writes an empty line. -/
def blank : String := "class Main\n    shared start()\n        console.write(\"\")\n"

/-- Writes an empty line, and an empty line again. -/
def blanks : String := blank ++ "        console.write(\"\")\n"

end Silence

open Session Silence in
/-- Two empty lines are printed. -/
theorem stdout_of_completes_blanks :
    ∃ w, Completes [] (fun _ => .ok blanks) w ∧
      (respond [] fun _ => .ok blanks).stdout = terminated w.console.toList ∧
      (respond [] fun _ => .ok blanks).stdout = "\n\n" := by
  have hrespond : respond [] (fun _ => .ok blanks) = ⟨0, "\n\n", ""⟩ := by decide +kernel
  obtain ⟨hcode, hprints⟩ := @stdout_of_completes [] (fun _ => .ok blanks) .default rfl rfl
  obtain ⟨w, hw⟩ := hcode.1 (by rw [hrespond])
  obtain ⟨-, hlines, hempty⟩ := hprints w hw
  refine ⟨w, hw, hlines.2 fun hline => ?_, by rw [hrespond]⟩
  have hnone := hempty hline
  rw [hrespond] at hnone
  exact absurd hnone (by decide)

open Session Silence in
/-- One empty line is not: the run collects it and the command line prints nothing. -/
theorem blank_line_unprinted :
    (∃ tokens p, tokenize blank = .ok tokens ∧ Program.ofTokens tokens = .ok p ∧
      p.outcome true ampleBudget = .finished [""]) ∧
    respond [] (fun _ => .ok blank) = ⟨0, "", ""⟩ ∧ terminated [""] = "\n" := by
  refine ⟨?_, by decide +kernel, by decide⟩
  have hrun : ((tokenize blank).toOption.bind fun tokens =>
      (Program.ofTokens tokens).toOption.map (·.outcome true ampleBudget)) =
        some (.finished [""]) := by
    decide +kernel
  cases htokens : tokenize blank with
  | error e =>
    rw [htokens] at hrun
    cases hrun
  | ok tokens =>
    rw [htokens] at hrun
    cases hprogram : Program.ofTokens tokens with
    | error e =>
      rw [Except.toOption, Option.bind_some, hprogram] at hrun
      cases hrun
    | ok p =>
      rw [Except.toOption, Option.bind_some, hprogram] at hrun
      exact ⟨tokens, p, rfl, hprogram, Option.some.inj hrun⟩

end Offside
