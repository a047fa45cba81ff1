import Offside.Proofs.Grammar.Reading

/-!
Programs that are written down are read back. Declarations, methods, constructors, members and
classes are followed in turn; what may stand in any order is read as lines and sorted afterwards.
The last statement holds for every way of writing a program and for any places of its tokens.
-/
namespace Offside.Grammar

open Rule Face

theorem declaration_reads {d : Declaration} (h : d.Settled) (r : List Face) :
    Reads declaration d.faces r d := by
  refine Reads.word_bind (Reads.word_bind ?_)
  have hplain : ¬((isScalarName d.name && !isScalarName d.typeName) = true) := by
    rw [Bool.and_eq_true, Bool.not_eq_true', ← Bool.not_eq_true, isScalarName_iff, isScalarName_iff]
    exact fun hscalar => hscalar.2 (h hscalar.1)
  rw [if_neg hplain]
  exact Reads.pure d r

theorem declarations_read {ds : List Declaration} (h : ∀ d ∈ ds, d.Settled) (hne : ds ≠ [])
    {r : List Face} (hr : kindAt r 0 ≠ some .comma) :
    Reads (commaSeparated declaration) (commas (ds.map Declaration.faces)) r ds := by
  have hitems : ∀ d ∈ ds, ∀ r, True → Reads declaration d.faces r d :=
    fun d hd r _ => declaration_reads (h d hd) r
  exact Reads.commaSeparated declaration_advances.leaves (fun _ => trivial) trivial hr hne hitems

theorem parameters_reads {ds : List Declaration} (h : ∀ d ∈ ds, d.Settled) (r : List Face) :
    Reads parameters (parameterFaces ds) r ds := by
  rw [parameterFaces, group, List.cons_append]
  refine Reads.expect_bind fun _ _ => ?_
  cases ds with
  | nil => exact Reads.accept_bind fun _ => Reads.pure [] r
  | cons d ds =>
    refine Reads.accept_none_bind ?_ ?_
    · cases ds <;> intro hclose <;> cases hclose
    · have hclose : kindAt ([mark .rparen] ++ r) 0 ≠ some .comma := by
        intro hcomma
        cases hcomma
      have hds : Reads (commaSeparated declaration) (commas ((d :: ds).map Declaration.faces))
          ([mark .rparen] ++ r) (d :: ds) :=
        declarations_read h (List.cons_ne_nil d ds) hclose
      exact hds.bind (Reads.expect_bind fun _ _ => Reads.pure _ r)

theorem returns_reads {ds : List Declaration} (h : ∀ d ∈ ds, d.Settled) {r : List Face}
    (hr : kindAt r 0 = some .newline) : Reads returns (returnFaces ds) r ds := by
  cases ds with
  | nil =>
    refine Reads.accept_none_bind ?_ (Reads.pure [] r)
    rw [returnFaces, List.nil_append, hr]
    exact fun h => nomatch h
  | cons d ds =>
    refine Reads.accept_bind fun _ => declarations_read h (List.cons_ne_nil d ds) ?_
    rw [hr]
    exact fun h => nomatch h

/-- A statement that starts with a name has no second name after it. -/
theorem stmt_faces_second (s : Stmt) (r : List Face) :
    ¬(kindAt (s.faces ++ r) 0 = some .word ∧ kindAt (s.faces ++ r) 1 = some .word) := by
  rintro ⟨hfirst, hsecond⟩
  cases s with
  | assign _ _ => cases hsecond
  | loop binder _ _ => cases binder <;> cases hfirst
  | branch _ _ other => cases other <;> cases hfirst
  | call names c =>
    obtain ⟨name, w, hw⟩ := call_faces c
    rw [Stmt.faces, hw] at hsecond
    cases names with
    | nil =>
      revert hsecond
      cases c.receiver <;> intro hsecond <;> cases hsecond
    | cons name names => cases names <;> cases hsecond

theorem bodyLine_reads_declared {d : Declaration} (h : d.Settled) :
    ReadsLine bodyLine (BodyLine.declared d).faces (.declared d) := by
  refine ⟨startsLine_word _ _, fun r hr => Reads.startsWith_bind ?_⟩
  exact (declaration_reads h _).bind (Reads.lineEnd_bind hr.newline (Reads.pure _ r))

theorem bodyLine_reads_statement {s : Stmt} (h : ReadsLine stmt s.faces s) :
    ReadsLine bodyLine (BodyLine.statement s).faces (.statement s) := by
  refine ⟨h.1, fun r hr => Reads.startsWith_bind ?_⟩
  rw [BodyLine.faces, decide_eq_false (stmt_faces_second s r)]
  exact (h.2 r hr).map BodyLine.statement

/-- The lines of a body that is arranged from these declarations and statements are read. -/
theorem bodyLines_read {ls : List BodyLine} {locals : List Declaration} {body : List Stmt}
    (h : BodyLine.Arrange ls locals body) (hlocals : ∀ d ∈ locals, d.Settled)
    (hbody : ∀ s ∈ body, ReadsLine stmt s.faces s) : ∀ l ∈ ls, ReadsLine bodyLine l.faces l := by
  obtain ⟨rfl, rfl⟩ := h
  intro l hl
  cases l with
  | declared d => exact bodyLine_reads_declared (hlocals d (List.mem_filterMap.2 ⟨_, hl, rfl⟩))
  | statement s => exact bodyLine_reads_statement (hbody s (List.mem_filterMap.2 ⟨_, hl, rfl⟩))

theorem modifiers_reads (isShared isPrivate : Bool) {r : List Face}
    (hr : kindAt r 0 = some .word) :
    Reads modifiers ((if isShared then [mark .keyShared] else []) ++
      (if isPrivate then [mark .keyPrivate] else [])) r (isShared, isPrivate) := by
  have hnone : Reads modifiers [] r (false, false) := by
    rw [modifiers_eq]
    refine Reads.peekKind_bind ?_
    rw [List.nil_append, hr]
    exact Reads.pure _ r
  have hprivate : Reads modifiers (if isPrivate then [mark .keyPrivate] else []) r
      (false, isPrivate) := by
    cases isPrivate with
    | false => exact hnone
    | true =>
      rw [modifiers_eq]
      exact Reads.peekKind_bind (Reads.next_bind fun _ => hnone.map fun more => (more.1, true))
  cases isShared with
  | false => exact hprivate
  | true =>
    rw [modifiers_eq]
    exact Reads.peekKind_bind (Reads.next_bind fun _ => hprivate.map fun more => (true, more.2))

theorem method_reads {m : Method} (hplain : m.Plain) (hparams : ∀ d ∈ m.params, d.Settled)
    (hreturns : ∀ d ∈ m.returns, d.Settled) {ls : List BodyLine}
    (harrange : BodyLine.Arrange ls m.locals m.statements)
    (hlines : ∀ l ∈ ls, ReadsLine bodyLine l.faces l) (r : List Face) :
    Reads method (m.headFaces ++ Face.block (ls.flatMap BodyLine.faces)) r m := by
  obtain ⟨name, isShared, isPrivate, isVariadic, params, returns, locals, body⟩ := m
  obtain ⟨hvariadic, hstatements⟩ := hplain
  cases body with
  | consoleWrite => cases hstatements
  | statements body =>
    obtain ⟨rfl, rfl⟩ := harrange
    obtain rfl : isVariadic = false := hvariadic
    rw [Method.headFaces, List.append_assoc, List.append_assoc, List.cons_append]
    refine (modifiers_reads isShared isPrivate rfl).bind (Reads.word_bind ?_)
    refine (parameters_reads hparams _).bind ((returns_reads hreturns rfl).bind ?_)
    refine Reads.lineEnd_bind (fun h => nomatch h) ?_
    have hbody : Reads (lines bodyLine) (ls.flatMap BodyLine.faces ++ [mark .dedent]) r ls :=
      Reads.lines_map bodyLine_advances hlines
    exact Reads.bind_nil (Reads.accept_bind fun _ => hbody) (Reads.pure _ r)

theorem constructor_reads {c : Constructor} (hparams : ∀ d ∈ c.params, d.Settled)
    {ls : List BodyLine} (harrange : BodyLine.Arrange ls c.locals c.body)
    (hlines : ∀ l ∈ ls, ReadsLine bodyLine l.faces l) (r : List Face) :
    Reads constructor (mark .keyConstruct :: parameterFaces c.params ++
      Face.block (ls.flatMap BodyLine.faces)) r c := by
  obtain ⟨params, locals, body⟩ := c
  obtain ⟨rfl, rfl⟩ := harrange
  refine Reads.next_bind fun _ => (parameters_reads hparams _).bind ?_
  refine Reads.lineEnd_bind (fun h => nomatch h) (Reads.expect_bind fun _ _ => ?_)
  exact (Reads.lines_map bodyLine_advances hlines).bind_nil (Reads.pure _ r)

/-- The sections of a member in the order in which they are written. -/
def sections (m : Member) : List MemberSection :=
  (m.accessor.map MemberSection.accessor).toList ++ (m.mutator.map MemberSection.mutator).toList

def MemberSection.faces : MemberSection → List Face
  | .accessor body => mark .keyAccessor :: mark .colon :: Face.block (Stmt.bodyFaces body)
  | .mutator body => mark .keyMutator :: mark .colon :: Face.block (Stmt.bodyFaces body)

def MemberSection.body : MemberSection → List Stmt
  | .accessor body | .mutator body => body

theorem sectionBody_reads {body : List Stmt} (h : ∀ s ∈ body, ReadsLine stmt s.faces s)
    (r : List Face) :
    Reads sectionBody (mark .colon :: Face.block (Stmt.bodyFaces body)) r body := by
  rw [Stmt.bodyFaces_eq]
  refine Reads.expect_bind fun _ _ => Reads.lineEnd_bind (fun h => nomatch h) ?_
  refine Reads.peekKind_bind (Reads.expect_bind fun _ _ => ?_)
  exact Reads.lines_map stmt_advances h

theorem memberSection_reads {s : MemberSection} (h : ∀ c ∈ s.body, ReadsLine stmt c.faces c) :
    ReadsLine memberSection s.faces s := by
  cases s with
  | accessor body =>
    refine ⟨startsLine_mark (by decide) _, fun r _ => ?_⟩
    exact Reads.peekKind_bind (Reads.next_bind fun _ => (sectionBody_reads h r).map _)
  | mutator body =>
    refine ⟨startsLine_mark (by decide) _, fun r _ => ?_⟩
    exact Reads.peekKind_bind (Reads.next_bind fun _ => (sectionBody_reads h r).map _)

theorem sections_foldl (m : Member) :
    (sections m).foldl MemberSection.addTo ⟨m.declaration, none, none⟩ = m := by
  obtain ⟨d, accessor, mutator⟩ := m
  cases accessor <;> cases mutator <;> rfl

theorem member_faces (m : Member) : m.faces = m.declaration.faces ++
    if sections m = [] then [mark .newline]
    else Face.block ((sections m).flatMap MemberSection.faces) := by
  obtain ⟨d, accessor, mutator⟩ := m
  cases accessor <;> cases mutator <;> simp [Member.faces, sections, MemberSection.faces]

theorem member_reads {m : Member} (hdeclaration : m.declaration.Settled)
    (hsections : ∀ s ∈ sections m, ∀ c ∈ s.body, ReadsLine stmt c.faces c) {r : List Face}
    (hr : AtLine r) : Reads member m.faces r m := by
  have hadd := sections_foldl m
  rw [member_faces]
  refine (declaration_reads hdeclaration _).bind ?_
  by_cases hnone : sections m = []
  · rw [if_pos hnone]
    rw [hnone] at hadd
    refine Reads.lineEnd_bind hr.newline (Reads.nil_bind ?_ (b := m) (a := []) ?_)
    · exact Reads.accept_none_bind hr.indent (Reads.pure [] r)
    · exact hadd ▸ Reads.pure _ r
  · rw [if_neg hnone]
    refine Reads.lineEnd_bind (fun h => nomatch h) (Reads.bind_nil (a := sections m) ?_ ?_)
    · refine Reads.accept_bind fun _ => Reads.lines_map memberSection_advances ?_
      exact fun s hs => memberSection_reads (hsections s hs)
    · rw [hadd]
      exact Reads.pure m r

theorem feature_reads_member {m : Member} (hshape : m.Everywhere .shape)
    (hnumbers : m.Everywhere .numbers) : ReadsLine feature m.faces (.member m) := by
  have hsections : ∀ s ∈ sections m, ∀ c ∈ s.body, ReadsLine stmt c.faces c := by
    intro s hs c hc
    rcases List.mem_append.1 hs with hs | hs
    · obtain ⟨body, hbody, rfl⟩ := Option.map_eq_some_iff.1 (Option.mem_toList.1 hs)
      exact stmt_reads (hshape.accessor body hbody c hc) (hnumbers.accessor body hbody c hc)
    · obtain ⟨body, hbody, rfl⟩ := Option.map_eq_some_iff.1 (Option.mem_toList.1 hs)
      exact stmt_reads (hshape.mutator body hbody c hc) (hnumbers.mutator body hbody c hc)
  refine ⟨startsLine_word _ _, fun r hr => Reads.peekKind_bind (Reads.peekKind_bind ?_)⟩
  exact (member_reads hshape.declaration hsections hr).map Feature.member

theorem feature_reads_constructor {c : Constructor} {w : List Face} (hw : c.Written w)
    (hshape : c.Everywhere .shape) (hnumbers : c.Everywhere .numbers) :
    ReadsLine feature w (.constructor c) := by
  obtain ⟨ls, harrange, rfl⟩ := hw
  have hlines := bodyLines_read harrange hshape.locals
    fun s hs => stmt_reads (hshape.body s hs) (hnumbers.body s hs)
  refine ⟨startsLine_mark (by decide) _, fun r _ => Reads.peekKind_bind (Reads.peekKind_bind ?_)⟩
  exact (constructor_reads hshape.params harrange hlines r).map Feature.constructor

theorem feature_reads_method {m : Method} {w : List Face} (hw : m.Written w)
    (hshape : m.Everywhere .shape) (hnumbers : m.Everywhere .numbers) :
    ReadsLine feature w (.method m) := by
  obtain ⟨ls, harrange, rfl⟩ := hw
  have hlines := bodyLines_read harrange hshape.locals
    fun s hs => stmt_reads (hshape.statements s hs) (hnumbers.statements s hs)
  have hread := method_reads hshape.here hshape.params hshape.returns harrange hlines
  obtain ⟨name, isShared, isPrivate, isVariadic, params, returns, locals, body⟩ := m
  cases isShared with
  | true =>
    refine ⟨startsLine_mark (by decide) _, fun r _ => ?_⟩
    exact Reads.peekKind_bind (Reads.peekKind_bind ((hread r).map Feature.method))
  | false =>
    cases isPrivate with
    | true =>
      refine ⟨startsLine_mark (by decide) _, fun r _ => ?_⟩
      exact Reads.peekKind_bind (Reads.peekKind_bind ((hread r).map Feature.method))
    | false =>
      refine ⟨startsLine_word _ _, fun r _ => ?_⟩
      exact Reads.peekKind_bind (Reads.peekKind_bind ((hread r).map Feature.method))

theorem interfaceNames_reads (names : List String) {r : List Face}
    (hr : kindAt r 0 = some .newline) :
    Reads (do
      match ← accept .keyImplements with
      | some _ => commaSeparated (word "interface name")
      | none => return [] : Rule (List String))
      (if names = [] then []
        else mark .keyImplements :: commas (names.map fun name => [Face.word name])) r names := by
  by_cases hnone : names = []
  · rw [if_pos hnone, hnone]
    refine Reads.accept_none_bind ?_ (Reads.pure [] r)
    rw [List.nil_append, hr]
    exact fun h => nomatch h
  · rw [if_neg hnone]
    have hitems : ∀ name ∈ names, ∀ r, True →
        Reads (Rule.word "interface name") [Face.word name] r name :=
      fun name _ r _ => word_reads _ name r
    refine Reads.accept_bind fun _ => ?_
    refine Reads.commaSeparated (word_advances _).leaves (fun _ => trivial) trivial ?_ hnone hitems
    rw [hr]
    exact fun h => nomatch h

theorem features_read {c : Class} (hshape : c.Everywhere .shape) (hnumbers : c.Everywhere .numbers)
    {fs : List (Feature × List Face)} (hfs : ∀ f ∈ fs, f.1.Written f.2)
    (hmembers : Feature.members (fs.map Prod.fst) = c.members)
    (hconstructors : Feature.constructors (fs.map Prod.fst) = c.constructors)
    (hmethods : Feature.methods (fs.map Prod.fst) = c.methods) :
    ∀ f ∈ fs, ReadsLine feature f.2 f.1 := by
  rintro ⟨f, w⟩ hf
  have hmem : f ∈ fs.map Prod.fst := List.mem_map.2 ⟨_, hf, rfl⟩
  have hw := hfs _ hf
  cases f with
  | member m =>
    have hm : m ∈ c.members := hmembers ▸ List.mem_filterMap.2 ⟨_, hmem, rfl⟩
    obtain rfl : w = m.faces := hw
    exact feature_reads_member (hshape.members m hm) (hnumbers.members m hm)
  | constructor k =>
    have hk : k ∈ c.constructors := hconstructors ▸ List.mem_filterMap.2 ⟨_, hmem, rfl⟩
    exact feature_reads_constructor hw (hshape.constructors k hk) (hnumbers.constructors k hk)
  | method m =>
    have hm : m ∈ c.methods := hmethods ▸ List.mem_filterMap.2 ⟨_, hmem, rfl⟩
    exact feature_reads_method hw (hshape.methods m hm) (hnumbers.methods m hm)

theorem classBody_reads {c : Class} {w : List Face} (hw : c.Written w)
    (hshape : c.Everywhere .shape) (hnumbers : c.Everywhere .numbers) (r : List Face) :
    ∃ u, w = mark .keyClass :: u ∧ Reads classBody u r c := by
  obtain ⟨fs, hfs, hmembers, hconstructors, hmethods, rfl⟩ := hw
  have hfeatures := features_read hshape hnumbers hfs hmembers hconstructors hmethods
  refine ⟨_, rfl, ?_⟩
  refine Reads.word_bind ((interfaceNames_reads c.interfaces rfl).bind ?_)
  refine Reads.lineEnd_bind (fun h => nomatch h) ?_
  refine Reads.bind_nil (Reads.accept_bind fun _ => Reads.lines feature_advances hfeatures) ?_
  rw [hmembers, hconstructors, hmethods]
  exact Reads.pure c r

theorem signature_reads {s : Signature} (h : s.Everywhere .shape) :
    ReadsLine signature s.faces s := by
  refine ⟨startsLine_word _ _, fun r hr => ?_⟩
  rw [Signature.faces, List.append_assoc]
  apply Reads.word_bind
  refine (parameters_reads h.params _).bind ((returns_reads h.returns rfl).bind ?_)
  exact Reads.lineEnd_bind hr.newline (Reads.pure s r)

theorem interfaceBody_reads {i : Interface} (h : ∀ s ∈ i.methods, s.Everywhere .shape)
    (r : List Face) : ∃ u, i.faces = mark .keyInterface :: u ∧ Reads interfaceBody u r i := by
  refine ⟨_, rfl, ?_⟩
  refine Reads.word_bind (Reads.lineEnd_bind (fun h => nomatch h) (Reads.expect_bind fun _ _ => ?_))
  have hread := Reads.lines_map (r := r) signature_advances fun s hs => signature_reads (h s hs)
  exact hread.map fun methods => Interface.mk i.name methods

theorem topLevel_reads {p : Program} (hshape : p.Everywhere .shape)
    (hnumbers : p.Everywhere .numbers) {us : List (TopLevel × List Face)}
    (hus : ∀ u ∈ us, u.1.Written u.2)
    (hclasses : ∀ c, .cls c ∈ us.map Prod.fst → c ∈ p.classes)
    (hinterfaces : ∀ i, .interface i ∈ us.map Prod.fst → i ∈ p.interfaces) :
    Reads topLevel (us.flatMap Prod.snd) [] (us.map Prod.fst) := by
  induction us with
  | nil =>
    rw [topLevel_eq]
    refine Reads.skipNewlines_bind (fun h => nomatch h) (Reads.peekKind_bind ?_)
    exact Reads.pure [] []
  | cons u us ih =>
    obtain ⟨hu, hus⟩ := List.forall_mem_cons.1 hus
    have hmore := ih hus (fun c hc => hclasses c (List.mem_cons_of_mem _ hc))
      (fun i hi => hinterfaces i (List.mem_cons_of_mem _ hi))
    obtain ⟨u, w⟩ := u
    rw [topLevel_eq, List.flatMap_cons]
    cases u with
    | cls c =>
      have hc := hclasses c List.mem_cons_self
      obtain ⟨v, rfl, hread⟩ := classBody_reads hu (hshape.classes c hc) (hnumbers.classes c hc)
        (us.flatMap Prod.snd ++ [])
      refine Reads.skipNewlines_bind (fun h => nomatch h) (Reads.peekKind_bind ?_)
      exact Reads.next_bind fun _ => hread.bind (hmore.map (TopLevel.cls c :: ·))
    | interface i =>
      have hi := hinterfaces i List.mem_cons_self
      obtain ⟨v, hv, hread⟩ := interfaceBody_reads (hshape.interfaces i hi)
        (us.flatMap Prod.snd ++ [])
      obtain rfl : w = mark .keyInterface :: v := Eq.trans hu hv
      refine Reads.skipNewlines_bind (fun h => nomatch h) (Reads.peekKind_bind ?_)
      exact Reads.next_bind fun _ => hread.bind (hmore.map (TopLevel.interface i :: ·))

theorem program_reads {p : Program} {w : List Face} (hw : p.Written w)
    (hshape : p.Everywhere .shape) (hnumbers : p.Everywhere .numbers) :
    Reads program w [] p := by
  obtain ⟨us, hus, hclasses, hinterfaces, rfl⟩ := hw
  have hread : Reads topLevel (us.flatMap Prod.snd) [] (us.map Prod.fst) :=
    topLevel_reads hshape hnumbers hus
      (fun c hc => hclasses ▸ List.mem_filterMap.2 ⟨_, hc, rfl⟩)
      (fun i hi => hinterfaces ▸ List.mem_filterMap.2 ⟨_, hi, rfl⟩)
  refine hread.bind_nil ?_
  rw [hclasses, hinterfaces]
  intro ts hts
  obtain rfl := List.map_eq_nil_iff.1 hts
  exact ⟨[], rfl, rfl⟩

end Offside.Grammar

namespace Offside.Program

/-- A shaped program can be written down, and is read from any tokens that write it down. -/
theorem ofTokens_of_written {p : Program} (hshape : p.Shaped) (hnumbers : p.Everywhere .numbers) :
    p.Written p.render ∧ ∀ ts, p.Written (ts.map Token.face) → ofTokens ts = .ok p := by
  refine ⟨p.written_render, fun ts hts => ?_⟩
  obtain ⟨rest, -, hread⟩ := Grammar.program_reads hts hshape hnumbers ts (List.append_nil _).symm
  rw [ofTokens, hread]

/-- A value that starts with a call and ends with a group around a negative number. -/
def halved : Expr :=
  .arith .sub (.call none "last" []) (.arith .mul (.var "x") (.number (-0.5)))

/-- A class with one method, which declares a variable and assigns it. -/
def halving : Program :=
  ⟨[⟨"Halving", [], [], [], [⟨"next", true, false, false, [], [], [⟨"number", "x"⟩],
    .statements [.assign "x" halved]⟩]⟩], []⟩

theorem ofTokens_of_written_halving :
    halving.Shaped ∧ halving.Everywhere .numbers ∧
      ofTokens (halving.render.map fun f => ⟨f.1, Position.start, f.2⟩) = .ok halving := by
  have hexpr {P : Expr → Prop} (h : P halved) (hcall : P (.call none "last" []))
      (hgroup : P (.arith .mul (.var "x") (.number (-0.5)))) (hvar : P (.var "x"))
      (hnumber : P (.number (-0.5))) : halved.Everywhere P :=
    .pair rfl h (.intro hcall (List.forall_mem_nil _))
      (.pair rfl hgroup (.intro hvar (List.forall_mem_nil _))
        (.intro hnumber (List.forall_mem_nil _)))
  have hprogram {k : Conditions} (hdeclaration : k.declaration ⟨"number", "x"⟩)
      (hmethod : ∀ c ∈ halving.classes, ∀ m ∈ c.methods, k.method m)
      (hstatement : k.statement (.assign "x" halved)) (hvalue : halved.Everywhere k.expression) :
      halving.Everywhere k := by
    refine ⟨List.forall_mem_singleton.2 ⟨List.forall_mem_nil _, List.forall_mem_nil _,
      List.forall_mem_singleton.2 ?_⟩, List.forall_mem_nil _⟩
    refine ⟨hmethod _ List.mem_cons_self _ List.mem_cons_self, List.forall_mem_nil _,
      List.forall_mem_nil _, List.forall_mem_singleton.2 hdeclaration,
      List.forall_mem_singleton.2 ?_⟩
    exact .intro hstatement (List.forall_mem_singleton.2 hvalue) (List.forall_mem_nil _)
  have hshape : halving.Shaped := by
    refine hprogram (fun _ => by decide) ?_ trivial
      (hexpr ⟨rfl, rfl, rfl⟩ trivial ⟨rfl, rfl, rfl⟩ trivial trivial)
    exact List.forall_mem_singleton.2 (List.forall_mem_singleton.2 ⟨rfl, rfl⟩)
  have hnumbers : halving.Everywhere .numbers :=
    hprogram trivial (fun _ _ _ _ => trivial) trivial (hexpr trivial trivial trivial trivial rfl)
  refine ⟨hshape, hnumbers, (ofTokens_of_written hshape hnumbers).2 _ ?_⟩
  rw [List.map_map]
  simpa [Function.comp_def, Token.face] using halving.written_render

end Offside.Program
