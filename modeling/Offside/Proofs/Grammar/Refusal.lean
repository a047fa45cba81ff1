import Mathlib.Data.List.TakeWhile
import Offside.Proofs.Grammar.Completion

/-!
Where programs are refused. The rules for declarations are mended like those for statements, and so
is the whole grammar. A token list that is no program is therefore refused at a token before which
it could still have become one, or at its end, and the error names this token and its place.
-/
namespace Offside.Grammar

open Rule

section Declaration

variable {n : Nat} {T : List Token → Prop}

theorem declaration_mended : Mended n declaration [Kind.word.token, Kind.word.token] T := by
  refine .word_bind (fun first => .word_bind (fun second => ?_) (Nat.le_succ n)) (Nat.le_succ n)
  split
  · exact .pure _
  · exact .pure _

theorem parameters_mended :
    Mended n parameters [Kind.lparen.token, Kind.rparen.token] T :=
  (Mended.parenthesized declaration_mended fun _ => declaration_carries).mono (Nat.le_succ n)

theorem returns_mended : Mended n returns [] LineTail :=
  .markedList declaration_mended (fun _ => declaration_carries) (by decide)

/-- A name with its parameters and return values, and what follows them. -/
theorem header_bind_mended {β : Type} {ext : List Token}
    {f : String → List Declaration → List Declaration → Rule β}
    (hf : ∀ name params returned, Mended n (f name params returned) ext T)
    (hT : ∀ tail, T tail → LineTail (ext ++ tail)) :
    Mended n (do
      let name ← word "method name"
      let params ← parameters
      let returned ← returns
      f name params returned)
      (Kind.word.token :: Kind.lparen.token :: Kind.rparen.token :: ext) T := by
  refine .word_bind (fun name => ?_) (Nat.le_succ n)
  refine parameters_mended.bind (fun _ => parameters_carries true 0) (fun params => ?_) hT
  exact returns_mended.bind (fun _ => returns_carries) (hf name params) hT

theorem signature_mended :
    Mended n signature [Kind.word.token, Kind.lparen.token, Kind.rparen.token] NoTail :=
  header_bind_mended (fun _ _ _ => .lineEnd_map _) fun _ h => h.lineTail

theorem bodyLine_mended :
    Mended n bodyLine [Kind.word.token, Kind.lparen.token, Kind.rparen.token] NoTail := by
  have htakes : ∀ t : Token, t.kind = .word →
      Takes bodyLine [t, Kind.lparen.token, Kind.rparen.token] NoTail := fun t ht =>
    ((stmt_takes ht).map BodyLine.statement).startsWith_bind fun _ _ => by simp
  have hdeclared : Mended n (do
      let d ← declaration
      lineEnd
      return .declared d : Rule BodyLine) [Kind.word.token, Kind.word.token] NoTail :=
    lastLine_mended declaration_mended (fun _ => declaration_carries) BodyLine.declared
  refine ⟨htakes _ rfl, .startsWith_bind (fun t u ts _ _ hts => hdeclared.mends _ hts) ?_
    fun t ht => ⟨_, htakes t ht⟩⟩
  exact ((stmt_mended n).map BodyLine.statement).mends

/-- An optional block on the lines behind the current one. -/
theorem optionalBlock_mended {α β : Type} {item : Rule α} {ext : List Token}
    (hitem : Mended n item ext NoTail) (hadvances : Advances item)
    (hlines : ∀ L : Layers, Carries L.toLikeness (false, 0) item (false, 0)) (f : List α → β) :
    Mended n (do
      lineEnd
      let body ← (do
        match ← accept .indent with
        | some _ => lines item
        | none => return [])
      return f body) [Kind.newline.token] NoTail := by
  refine .lineEnd_bind ((hitem.optionalLines hadvances hlines).map f) ?_
  rintro tail rfl
  simp

theorem modifiers_bind {β : Type} (f : Bool × Bool → Rule β) :
    modifiers >>= f = (do
      match (← peekKind 0).bind modifier? with
      | none => f (false, false)
      | some shared => do
        let _ ← next
        let mods ← modifiers
        f (if shared then (true, mods.2) else (mods.1, true))) := by
  conv => lhs; rw [modifiers_eq, bind_assoc]
  refine congrArg (peekKind 0 >>= ·) (funext fun k => ?_)
  rcases k with _ | kind
  · rfl
  · cases kind <;> first
      | rfl
      | simp only [bind_assoc, modifier?, Option.bind_some]; rfl

/-- The words before a method's name are read on as long as there are any. -/
theorem modifiers_bind_mended {β : Type} {ext : List Token} {f : Bool × Bool → Rule β}
    (hf : ∀ mods, Mended n (f mods) ext T)
    (hext : ∀ tail, T tail → (headKind (ext ++ tail)).bind modifier? = none) :
    Mended n (modifiers >>= f) ext T := by
  have htakes : ∀ f : Bool × Bool → Rule β, (∀ mods, Takes (f mods) ext T) →
      Takes (modifiers >>= f) ext T := by
    intro f hf tail htail
    obtain ⟨b, hb⟩ := hf (false, false) tail htail
    have hnone : ((ext ++ tail)[0]?.map Token.kind).bind modifier? = none := hext tail htail
    refine ⟨b, ?_⟩
    rw [modifiers_bind, peekKind_bind, hnone]
    exact hb
  induction n generalizing f with
  | zero =>
    refine ⟨htakes f fun mods => (hf mods).takes, fun _ hts => ?_⟩
    exact absurd hts (Nat.not_lt_zero _)
  | succ n ih =>
    have hagain : ∀ shared : Bool, Mended n (do
        let mods ← modifiers
        f (if shared then (true, mods.2) else (mods.1, true))) ext T :=
      fun shared => ih fun mods => (hf _).mono (Nat.le_succ n)
    refine ⟨htakes f fun mods => (hf mods).takes, ?_⟩
    rw [modifiers_bind]
    refine .operator_bind modifier? (fun k hk => ?_) (fun k shared hk => ?_)
      (hf (false, false)).mends hagain (Nat.le_refl _)
    · rw [hk]
    · rw [Option.bind_some, hk]

theorem method_mended :
    Mended n method
      [Kind.word.token, Kind.lparen.token, Kind.rparen.token, Kind.newline.token] NoTail := by
  refine modifiers_bind_mended (fun mods => ?_) fun _ _ => rfl
  refine header_bind_mended (fun name params returned => ?_) fun _ _ => lineTail_newline _
  exact optionalBlock_mended bodyLine_mended bodyLine_advances (fun _ => bodyLine_carries) _

/-- A constructor behind its keyword. -/
theorem constructorRest_mended :
    Mended n (do
      let params ← parameters
      lineEnd
      let _ ← expect .indent "indented constructor body"
      let body ← lines bodyLine
      return ⟨params, BodyLine.locals body, BodyLine.statements body⟩ : Rule Constructor)
      [Kind.lparen.token, Kind.rparen.token, Kind.newline.token, Kind.indent.token] NoTail := by
  refine parameters_mended.bind (fun _ => parameters_carries true 0) (fun params => ?_)
    fun _ _ => lineTail_newline _
  refine .lineEnd_bind (.expect_bind (fun _ => ?_) (Nat.le_succ n)) fun _ _ => by simp
  exact (bodyLine_mended.lines bodyLine_advances fun _ => bodyLine_carries).map _

theorem sectionBody_mended :
    Mended n sectionBody [Kind.colon.token, Kind.newline.token] NoTail := by
  refine .expect_bind (fun _ => .lineEnd_bind ⟨?_, ?_⟩ ?_) (Nat.le_succ n)
  · rintro tail rfl
    exact ⟨[], rfl⟩
  · refine .choice ?_ (Mended.pure []).mends
    exact ((stmtBlock_mended (stmt_mended n)).mono (Nat.le_succ n)).mends
  · rintro tail rfl
    simp

theorem memberSection_mended :
    Mended n memberSection [Kind.keyAccessor.token, Kind.colon.token, Kind.newline.token]
      NoTail := by
  have haccessor := (sectionBody_mended : Mended n _ _ _).map MemberSection.accessor
  have hmutator := (sectionBody_mended : Mended n _ _ _).map MemberSection.mutator
  refine ⟨haccessor.takes.of_eq fun tail => rfl, fun ts hts => ?_⟩
  cases ts with
  | nil => exact .of_refuse _ rfl
  | cons t ts =>
    have hts' : ts.length < n := Nat.lt_of_succ_lt hts
    cases ht : t.kind
    case keyAccessor =>
      refine haccessor.behind hts' fun us => ?_
      rw [memberSection, peekKind_bind, List.getElem?_cons_zero, Option.map_some, ht]
      rfl
    case keyMutator =>
      refine hmutator.behind hts' fun us => ?_
      rw [memberSection, peekKind_bind, List.getElem?_cons_zero, Option.map_some, ht]
      rfl
    all_goals
      refine .of_refuse "accessor or mutator" ?_
      rw [memberSection, peekKind_bind, List.getElem?_cons_zero, Option.map_some, ht]
      rfl

theorem member_mended :
    Mended n member [Kind.word.token, Kind.word.token, Kind.newline.token] NoTail := by
  refine declaration_mended.bind (fun _ => declaration_carries true 0) (fun d => ?_)
    fun _ _ => lineTail_newline _
  exact optionalBlock_mended memberSection_mended memberSection_advances
    (fun _ => memberSection_carries) _

/-- A method without modifiers, from its name on. -/
theorem feature_takes {t : Token} (ht : t.kind = .word) :
    Takes feature [t, Kind.lparen.token, Kind.rparen.token, Kind.newline.token] NoTail := by
  rintro tail rfl
  obtain ⟨kind, position, text⟩ := t
  cases ht
  exact ⟨_, rfl⟩

theorem feature_mended :
    Mended n feature
      [Kind.word.token, Kind.lparen.token, Kind.rparen.token, Kind.newline.token] NoTail := by
  have hconstructor := (constructorRest_mended : Mended n _ _ _).map Feature.constructor
  have hmethod := (method_mended : Mended n _ _ _).map Feature.method
  have hmember := (member_mended : Mended n _ _ _).map Feature.member
  refine ⟨feature_takes rfl, fun ts hts => ?_⟩
  cases ts with
  | nil => exact .of_refuse _ rfl
  | cons t ts =>
    have hts' : ts.length < n := Nat.lt_of_succ_lt hts
    have hsecond : (t :: ts)[1]?.map Token.kind = headKind ts := rfl
    cases ht : t.kind
    case keyConstruct =>
      refine hconstructor.behind hts' fun us => ?_
      rw [feature, peekKind_bind, peekKind_bind, List.getElem?_cons_zero, Option.map_some, ht]
      rfl
    case keyShared =>
      refine .of_headKind (hmethod.mends _ hts) fun us hus => ?_
      have hfirst : us[0]?.map Token.kind = some .keyShared := hus.trans (congrArg some ht)
      rw [feature, peekKind_bind, peekKind_bind, hfirst]
    case keyPrivate =>
      refine .of_headKind (hmethod.mends _ hts) fun us hus => ?_
      have hfirst : us[0]?.map Token.kind = some .keyPrivate := hus.trans (congrArg some ht)
      rw [feature, peekKind_bind, peekKind_bind, hfirst]
    case word =>
      have hone : ∀ t', (t :: ts)[0]? = some t' → ∃ ext, Takes feature (t' :: ext) NoTail := by
        intro t' ht'
        cases ht'
        exact ⟨_, feature_takes ht⟩
      by_cases hparen : headKind ts = some .lparen
      · refine .of_two (hmethod.mends _ hts) (fun us h₀ h₁ => ?_) hone
        rw [feature, peekKind_bind, peekKind_bind, h₀, h₁, hsecond, hparen,
          List.getElem?_cons_zero, Option.map_some, ht]
      · by_cases hword : headKind ts = some .word
        · refine .of_two (hmember.mends _ hts) (fun us h₀ h₁ => ?_) hone
          rw [feature, peekKind_bind, peekKind_bind, h₀, h₁, hsecond, hword,
            List.getElem?_cons_zero, Option.map_some, ht]
        · refine .of_refuse "member, method or constructor" ?_
          rw [feature, peekKind_bind, peekKind_bind, hsecond, List.getElem?_cons_zero,
            Option.map_some, ht]
          generalize headKind ts = second at hparen hword
          rcases second with _ | kind
          · rfl
          · cases kind <;> first | rfl | exact absurd rfl hparen | exact absurd rfl hword
    all_goals
      refine .of_refuse "member, method or constructor" ?_
      rw [feature, peekKind_bind, peekKind_bind, List.getElem?_cons_zero, Option.map_some, ht]
      rfl

theorem classBody_mended :
    Mended n classBody [Kind.word.token, Kind.newline.token] NoTail := by
  refine .word_bind (fun name => ?_) (Nat.le_succ n)
  refine (Mended.markedList (.word _) (fun _ => Carries.word _) (by decide)).bind
    (fun _ => interfaceNames_carries) (fun interfaces => ?_) fun _ _ => lineTail_newline _
  exact optionalBlock_mended feature_mended feature_advances (fun _ => feature_carries) _

theorem interfaceBody_mended :
    Mended n interfaceBody [Kind.word.token, Kind.newline.token, Kind.indent.token] NoTail := by
  refine .word_bind (fun name => ?_) (Nat.le_succ n)
  refine .lineEnd_bind (.expect_bind (fun _ => ?_) (Nat.le_succ n)) fun _ _ => by simp
  exact (signature_mended.lines signature_advances fun _ => signature_carries).map _

theorem topLevel_mended : Mended n topLevel [] NoTail := by
  have htakes : Takes topLevel [] NoTail := by
    rintro tail rfl
    exact ⟨[], rfl⟩
  refine .of_rounds htakes fun k _ hagain => ?_
  have hclass := (classBody_mended : Mended (k + 1) _ _ _).bind_lines classBody_advances
    (fun _ => classBody_carries) (fun c => hagain.map (TopLevel.cls c :: ·)) (Nat.le_refl _)
  have hinterface := (interfaceBody_mended : Mended (k + 1) _ _ _).bind_lines
    interfaceBody_advances (fun _ => interfaceBody_carries)
    (fun i => hagain.map (TopLevel.interface i :: ·)) (Nat.le_refl _)
  rw [topLevel_eq]
  refine .of_mended [] (.skipNewlines_bind ⟨?_, fun ts hts => ?_⟩ ?_)
  · rintro tail rfl
    exact ⟨[], rfl⟩
  · cases ts with
    | nil => exact .of_ok rfl
    | cons t ts =>
      have hts' : ts.length < k + 1 := Nat.lt_of_succ_lt hts
      cases ht : t.kind
      case keyClass =>
        refine hclass.behind hts' fun us => ?_
        rw [peekKind_bind, List.getElem?_cons_zero, Option.map_some, ht]
        rfl
      case keyInterface =>
        refine hinterface.behind hts' fun us => ?_
        rw [peekKind_bind, List.getElem?_cons_zero, Option.map_some, ht]
        rfl
      all_goals
        intro r hr
        rw [peekKind_bind, List.getElem?_cons_zero, Option.map_some, ht] at hr
        cases hr
  · rintro tail rfl
    simp

end Declaration

section Program

variable {ts rest : List Token} {ds : List TopLevel}

/-- A program may leave dedents and newlines. -/
theorem program_of_left (h : topLevel ts = .ok (ds, rest))
    (hrest : ∀ t ∈ rest, t.kind = .dedent ∨ t.kind = .newline) :
    program ts = .ok (⟨TopLevel.classes ds, TopLevel.interfaces ds⟩, []) := by
  have hskip : skip [.dedent, .newline] rest = .ok ((), []) := by
    have hnil : (rest.dropWhile fun t => [Kind.dedent, .newline].contains t.kind) = [] := by
      refine List.dropWhile_eq_nil_iff.2 fun t ht => ?_
      simpa using hrest t ht
    rw [skip, hnil]
  rw [program, bind_of_ok h, bind_of_ok hskip]
  rfl

/-- What a list is refused for behind its declarations: a token that is neither skipped nor the
start of another one. -/
theorem refused_of_topLevel {r : Refusal} (htop : topLevel ts = .ok (ds, rest))
    (h : program ts = .error r) :
    r.Fair ∧ r.rest ≠ [] ∧ ∃ skipped, rest = skipped ++ r.rest ∧
      ∀ t ∈ skipped, t.kind = .dedent ∨ t.kind = .newline := by
  obtain ⟨mayEnd, hmayEnd⟩ : ∃ mayEnd : Token → Bool,
      mayEnd = fun t => [Kind.dedent, .newline].contains t.kind := ⟨_, rfl⟩
  have hskip : skip [.dedent, .newline] rest = .ok ((), rest.dropWhile mayEnd) := by
    rw [skip, hmayEnd]
  rw [program, bind_of_ok htop, bind_of_ok hskip] at h
  have hskipped : ∀ t ∈ rest.takeWhile mayEnd, t.kind = .dedent ∨ t.kind = .newline := by
    intro t ht
    have hkind := List.mem_takeWhile_imp ht
    rw [hmayEnd] at hkind
    simpa using hkind
  have hrest : rest = rest.takeWhile mayEnd ++ rest.dropWhile mayEnd :=
    List.takeWhile_append_dropWhile.symm
  generalize rest.dropWhile mayEnd = left at h hrest
  cases left with
  | nil => cases h
  | cons t left =>
    cases h
    exact ⟨Refusal.fair_expected _ _, List.cons_ne_nil _ _, _, hrest, hskipped⟩

/-- The tokens before the one at which a list is refused can be completed to a program. -/
theorem exists_program_of_refused {r : Refusal} (h : program ts = .error r) :
    ∃ used, ts = used ++ r.rest ∧ r.Fair ∧ ∃ more p, program (used ++ more) = .ok (p, []) := by
  cases htop : topLevel ts with
  | error r' =>
    rw [program, bind_of_error htop] at h
    cases h
    obtain ⟨used, more, hts, hfair, htakes, -⟩ :=
      topLevel_mended.exists_takes (Nat.lt_succ_self _) htop
    obtain ⟨ds, hds⟩ := htakes [] rfl
    rw [List.append_nil] at hds
    exact ⟨used, hts, hfair, more, _, program_of_left hds (by simp)⟩
  | ok out =>
    obtain ⟨ds, left⟩ := out
    obtain ⟨hfair, hne, skipped, rfl, hskipped⟩ := refused_of_topLevel htop h
    obtain ⟨front, rfl⟩ := topLevel_leaves _ _ _ htop
    refine ⟨front ++ skipped, (List.append_assoc _ _ _).symm, hfair, [], ?_⟩
    -- The declarations are read again before the end of the input.
    have hlike : (exchangeLines r.rest [] (.inr ⟨hne, rfl⟩)).like (false, 0)
        (front ++ (skipped ++ r.rest)) (front ++ skipped ++ []) :=
      ⟨front ++ skipped, (List.append_assoc _ _ _).symm, rfl⟩
    obtain ⟨left', ⟨used, hused, rfl⟩, hhead, hagain⟩ :=
      topLevel_carry hlike htop (List.suffix_append _ _)
    obtain rfl := List.append_cancel_right hused
    rw [List.append_nil skipped] at hagain
    have hkind : ∀ kind, kind ≠ .dedent → headKind skipped ≠ some kind := by
      intro kind hne hsome
      obtain ⟨t, more, rfl, rfl⟩ := exists_cons_of_headKind hsome
      rcases hskipped t List.mem_cons_self with hdedent | hnewline
      · exact hne hdedent
      · exact hhead (congrArg some hnewline)
    have hnone : topLevel skipped = .ok ([], skipped) :=
      topLevel_of_headKind (hkind _ (by decide)) (hkind _ (by decide)) (hkind _ (by decide))
    exact ⟨_, program_of_left (hagain [] skipped hnone) hskipped⟩

end Program

end Offside.Grammar

namespace Offside

/-- The error is about the place `k` of the list: about the token there and its place, or about the
end of the input. -/
def ParseError.Blames (e : ParseError) (ts : List Token) (k : Nat) : Prop :=
  match ts[k]? with
  | some t =>
    e.position = t.position ∧
      ((∃ what, e.message =
          "Expected " ++ what ++ ", got " ++ t.display ++ " at " ++ t.position.describe) ∨
        t.kind = .lparen ∧
          e.message = "Nested parentheses are not supported" ++ " at " ++ t.position.describe)
  | none =>
    e.position = (ts.getLast?.map Token.position).getD Position.start ∧
      ∃ what, e.message =
        "Expected " ++ what ++ ", got " ++ "end of input" ++ " at " ++ e.position.describe

theorem Refusal.Fair.blames {r : Refusal} (hr : r.Fair) (used : List Token) :
    (r.toError (used ++ r.rest)).Blames (used ++ r.rest) used.length := by
  obtain ⟨complaint, rest⟩ := r
  cases rest with
  | nil =>
    have hplace : currentPosition (used ++ []) [] =
        ((used ++ []).getLast?.map Token.position).getD Position.start := by
      unfold currentPosition
      cases (used ++ []).getLast? <;> rfl
    have hend : (used ++ [])[used.length]? = none := by simp
    unfold ParseError.Blames
    rw [hend]
    refine ⟨hplace, ?_⟩
    cases complaint with
    | expected what => exact ⟨what, rfl⟩
    | nestedGroup => cases hr rfl
  | cons t rest =>
    have hfound : (used ++ t :: rest)[used.length]? = some t := by simp
    unfold ParseError.Blames
    rw [hfound]
    refine ⟨rfl, ?_⟩
    cases complaint with
    | expected what => exact .inl ⟨what, rfl⟩
    | nestedGroup => exact .inr ⟨Option.some.inj (hr rfl), rfl⟩

/-- A token list that is no program is refused at a place before which it can be completed to one:
at the token there, or at its end. -/
theorem blames_of_ofTokens {ts : List Token} {e : ParseError} (h : Program.ofTokens ts = .error e) :
    ∃ k ≤ ts.length, (∃ more p, Program.ofTokens (ts.take k ++ more) = .ok p) ∧ e.Blames ts k := by
  unfold Program.ofTokens at h
  split at h
  · cases h
  · rename_i r hr
    cases h
    obtain ⟨used, rfl, hfair, more, p, hp⟩ := Grammar.exists_program_of_refused hr
    refine ⟨used.length, by simp, ⟨more, p, ?_⟩, hfair.blames used⟩
    rw [List.take_left, Program.ofTokens, hp]

namespace Unclosed

/-- A method whose parameters end with the line. -/
def tokens : List Token :=
  [⟨.keyClass, ⟨1, 0⟩, none⟩, ⟨.word, ⟨1, 6⟩, some "Main"⟩, ⟨.newline, ⟨1, 10⟩, none⟩,
    ⟨.indent, ⟨2, 0⟩, none⟩, ⟨.keyShared, ⟨2, 4⟩, none⟩, ⟨.word, ⟨2, 11⟩, some "start"⟩,
    ⟨.lparen, ⟨2, 16⟩, none⟩, ⟨.newline, ⟨2, 17⟩, none⟩, ⟨.dedent, ⟨3, 0⟩, none⟩]

def error : ParseError :=
  ⟨.expected "type name", some ⟨.newline, ⟨2, 17⟩, none⟩, ⟨2, 17⟩⟩

theorem ofTokens_tokens : Program.ofTokens tokens = .error error := rfl

end Unclosed

theorem blames_of_ofTokens_unclosed :
    Program.ofTokens Unclosed.tokens = .error Unclosed.error ∧
      ∃ k ≤ Unclosed.tokens.length,
        (∃ more p, Program.ofTokens (Unclosed.tokens.take k ++ more) = .ok p) ∧
        Unclosed.error.Blames Unclosed.tokens k :=
  ⟨Unclosed.ofTokens_tokens, blames_of_ofTokens Unclosed.ofTokens_tokens⟩

end Offside
