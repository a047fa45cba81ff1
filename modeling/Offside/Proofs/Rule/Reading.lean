import Offside.Proofs.Program.Rendering
import Offside.Proofs.Rule.Progress

/-!
Rules that read what was written. `Reads p w r a` says that, wherever tokens say `w` and then `r`,
the rule `p` takes the part that says `w` and gives `a`. What follows matters, since rules look
ahead: each statement here says what it asks of `r`. Readings compose along the rules, so that the
grammar can be followed part by part.
-/
namespace Offside.Rule

open Face

variable {α β : Type}

/-- Before `r`, the rule reads `w` as `a`, whatever the places of the tokens. -/
def Reads (p : Rule α) (w r : List Face) (a : α) : Prop :=
  ∀ ts : List Token, ts.map Token.face = w ++ r →
    ∃ rest : List Token, rest.map Token.face = r ∧ p ts = .ok (a, rest)

/-- The kind of the token at a place. -/
def kindAt (w : List Face) (i : Nat) : Option Kind := w[i]?.map Prod.fst

theorem kindAt_map_face (ts : List Token) (i : Nat) :
    kindAt (ts.map Token.face) i = ts[i]?.map Token.kind := by
  simp [kindAt, Token.face, Function.comp_def]

@[simp] theorem kindAt_cons_zero (f : Face) (w : List Face) : kindAt (f :: w) 0 = some f.1 := rfl

@[simp] theorem kindAt_cons_succ (f : Face) (w : List Face) (i : Nat) :
    kindAt (f :: w) (i + 1) = kindAt w i := rfl

theorem Reads.pure (a : α) (r : List Face) : Reads (pure a : Rule α) [] r a :=
  fun ts hts => ⟨ts, hts, rfl⟩

theorem Reads.bind {p : Rule α} {f : α → Rule β} {u v r : List Face} {a : α} {b : β}
    (hp : Reads p u (v ++ r) a) (hf : Reads (f a) v r b) : Reads (p >>= f) (u ++ v) r b := by
  intro ts hts
  rw [List.append_assoc] at hts
  obtain ⟨mid, hmid, hpa⟩ := hp ts hts
  obtain ⟨rest, hrest, hfb⟩ := hf mid hmid
  exact ⟨rest, hrest, by rw [bind_of_ok hpa, hfb]⟩

/-- A reading after a step that takes nothing. -/
theorem Reads.nil_bind {p : Rule α} {f : α → Rule β} {w r : List Face} {a : α} {b : β}
    (hp : Reads p [] (w ++ r) a) (hf : Reads (f a) w r b) : Reads (p >>= f) w r b :=
  Reads.bind hp hf

/-- A reading followed by one that takes nothing. -/
theorem Reads.bind_nil {p : Rule α} {f : α → Rule β} {w r : List Face} {a : α} {b : β}
    (hp : Reads p w r a) (hf : Reads (f a) [] r b) : Reads (p >>= f) w r b := by
  have h := Reads.bind (v := []) hp hf
  rwa [List.append_nil] at h

theorem Reads.map {p : Rule α} {w r : List Face} {a : α} (f : α → β) (hp : Reads p w r a) :
    Reads (p >>= fun a => Pure.pure (f a)) w r (f a) := hp.bind_nil (Reads.pure (f a) r)

theorem Reads.peekKind_bind {i : Nat} {f : Option Kind → Rule β} {w r : List Face} {b : β}
    (h : Reads (f (kindAt (w ++ r) i)) w r b) : Reads (peekKind i >>= f) w r b := by
  intro ts hts
  obtain ⟨rest, hrest, hf⟩ := h ts hts
  refine ⟨rest, hrest, ?_⟩
  rw [Rule.peekKind_bind, ← kindAt_map_face, hts, hf]

theorem Reads.startsWith_bind {first second : Kind} {f : Bool → Rule β} {w r : List Face} {b : β}
    (h : Reads (f (decide (kindAt (w ++ r) 0 = some first ∧ kindAt (w ++ r) 1 = some second)))
      w r b) : Reads (startsWith first second >>= f) w r b := by
  intro ts hts
  obtain ⟨rest, hrest, hf⟩ := h ts hts
  refine ⟨rest, hrest, ?_⟩
  rw [Rule.startsWith_bind, ← kindAt_map_face, ← kindAt_map_face, hts, hf]

theorem Reads.next_bind {f : Option Token → Rule β} {x : Face} {w r : List Face} {b : β}
    (h : ∀ t, Reads (f t) w r b) : Reads (next >>= f) (x :: w) r b := by
  intro ts hts
  obtain ⟨t, mid, rfl, -, hmid⟩ := List.map_eq_cons_iff.1 hts
  obtain ⟨rest, hrest, hf⟩ := h (some t) mid hmid
  exact ⟨rest, hrest, hf⟩

theorem Reads.expect_bind {what : String} {f : Token → Rule β} {x : Face} {w r : List Face} {b : β}
    (h : ∀ t, t.face = x → Reads (f t) w r b) : Reads (expect x.1 what >>= f) (x :: w) r b := by
  intro ts hts
  obtain ⟨t, mid, rfl, ht, hmid⟩ := List.map_eq_cons_iff.1 hts
  obtain ⟨rest, hrest, hf⟩ := h t ht mid hmid
  have hkind : t.kind = x.1 := congrArg Prod.fst ht
  exact ⟨rest, hrest, by rw [bind_of_ok (expect_eq_ok.2 ⟨rfl, hkind⟩), hf]⟩

theorem word_reads (what name : String) (r : List Face) :
    Reads (word what) [Face.word name] r name := by
  intro ts hts
  obtain ⟨t, mid, rfl, ht, hmid⟩ := List.map_eq_cons_iff.1 hts
  have hkind : t.kind = .word := congrArg Prod.fst ht
  have htext : t.text = some name := congrArg Prod.snd ht
  have hname : name = t.content := by simp [Token.content, htext]
  exact ⟨mid, hmid, word_eq_ok.2 ⟨t, rfl, hkind, hname⟩⟩

theorem Reads.word_bind {what name : String} {f : String → Rule β} {w r : List Face} {b : β}
    (h : Reads (f name) w r b) : Reads (word what >>= f) (Face.word name :: w) r b :=
  (word_reads what name (w ++ r)).bind h

theorem Reads.accept_bind {f : Option Token → Rule β} {x : Face} {w r : List Face} {b : β}
    (h : ∀ t, Reads (f (some t)) w r b) : Reads (accept x.1 >>= f) (x :: w) r b := by
  intro ts hts
  obtain ⟨t, mid, rfl, ht, hmid⟩ := List.map_eq_cons_iff.1 hts
  obtain ⟨rest, hrest, hf⟩ := h t mid hmid
  have hkind : t.kind = x.1 := congrArg Prod.fst ht
  refine ⟨rest, hrest, ?_⟩
  have hok : accept x.1 (t :: mid) = .ok (some t, mid) := by simp [Rule.accept, hkind]
  rw [bind_of_ok hok, hf]

theorem Reads.accept_none_bind {kind : Kind} {f : Option Token → Rule β} {w r : List Face} {b : β}
    (hkind : kindAt (w ++ r) 0 ≠ some kind) (h : Reads (f none) w r b) :
    Reads (accept kind >>= f) w r b := by
  intro ts hts
  obtain ⟨rest, hrest, hf⟩ := h ts hts
  refine ⟨rest, hrest, ?_⟩
  rw [← hts, kindAt_map_face] at hkind
  have hok : accept kind ts = .ok (none, ts) := by
    cases ts with
    | nil => rfl
    | cons t ts =>
      have hne : t.kind ≠ kind := fun heq => hkind (congrArg some heq)
      simp [Rule.accept, hne]
  rw [bind_of_ok hok, hf]

theorem Reads.skipNewlines_bind {f : Unit → Rule β} {w r : List Face} {b : β}
    (hkind : kindAt (w ++ r) 0 ≠ some .newline) (h : Reads (f ()) w r b) :
    Reads (skipNewlines >>= f) w r b := by
  intro ts hts
  obtain ⟨rest, hrest, hf⟩ := h ts hts
  refine ⟨rest, hrest, ?_⟩
  rw [← hts, kindAt_map_face] at hkind
  have hok : skipNewlines ts = .ok ((), ts) := by
    cases ts with
    | nil => rfl
    | cons t ts =>
      have hne : t.kind ≠ .newline := fun heq => hkind (congrArg some heq)
      simp [skipNewlines, skip, hne]
  rw [bind_of_ok hok, hf]

theorem Reads.lineEnd_bind {f : Unit → Rule β} {w r : List Face} {b : β}
    (hkind : kindAt (w ++ r) 0 ≠ some .newline) (h : Reads (f ()) w r b) :
    Reads (lineEnd >>= f) (mark .newline :: w) r b := by
  intro ts hts
  obtain ⟨t, mid, rfl, ht, hmid⟩ := List.map_eq_cons_iff.1 hts
  obtain ⟨rest, hrest, hskip⟩ := Reads.skipNewlines_bind hkind h mid hmid
  refine ⟨rest, hrest, ?_⟩
  have hline : t.kind = .newline := congrArg Prod.fst ht
  have hok : lineEnd (t :: mid) = skipNewlines mid := by
    simp [lineEnd, skipNewlines, skip, hline]
  rw [bind_apply, hok]
  exact hskip

theorem Reads.blockEnd_bind {f : Bool → Rule β} {w r : List Face} {b : β}
    (h : Reads (f true) w r b) : Reads (blockEnd >>= f) (mark .dedent :: w) r b := by
  intro ts hts
  obtain ⟨t, mid, rfl, ht, hmid⟩ := List.map_eq_cons_iff.1 hts
  obtain ⟨rest, hrest, hf⟩ := h mid hmid
  have hkind : t.kind = .dedent := congrArg Prod.fst ht
  have hok : blockEnd (t :: mid) = .ok (true, mid) := by simp [blockEnd, hkind]
  exact ⟨rest, hrest, by rw [bind_of_ok hok, hf]⟩

theorem Reads.blockEnd_false_bind {f : Bool → Rule β} {w r : List Face} {b : β}
    (hne : w ≠ []) (hkind : kindAt w 0 ≠ some .dedent) (h : Reads (f false) w r b) :
    Reads (blockEnd >>= f) w r b := by
  intro ts hts
  obtain ⟨rest, hrest, hf⟩ := h ts hts
  refine ⟨rest, hrest, ?_⟩
  obtain ⟨x, w, rfl⟩ := List.exists_cons_of_ne_nil hne
  obtain ⟨t, mid, rfl, rfl, -⟩ := List.map_eq_cons_iff.1 hts
  have hdedent : t.kind ≠ .dedent := fun heq => hkind (congrArg some heq)
  have hok : blockEnd (t :: mid) = .ok (false, t :: mid) := by simp [blockEnd, hdedent]
  rw [bind_of_ok hok, hf]

/-- What can stand after a line of a block: nothing that the line could still take. -/
structure AtLine (r : List Face) : Prop where
  newline : kindAt r 0 ≠ some .newline
  indent : kindAt r 0 ≠ some .indent
  alternative : kindAt r 0 ≠ some .keyElse

/-- Something that can stand as a line of a block. -/
structure StartsLine (w : List Face) : Prop where
  nonempty : w ≠ []
  dedent : kindAt w 0 ≠ some .dedent
  atLine : AtLine w

theorem kindAt_append_zero {w : List Face} (h : w ≠ []) (r : List Face) :
    kindAt (w ++ r) 0 = kindAt w 0 := by
  cases w with
  | nil => exact absurd rfl h
  | cons x w => rfl

theorem StartsLine.append {w : List Face} (h : StartsLine w) (r : List Face) :
    AtLine (w ++ r) := by
  have hzero := kindAt_append_zero h.nonempty r
  exact ⟨hzero ▸ h.atLine.newline, hzero ▸ h.atLine.indent, hzero ▸ h.atLine.alternative⟩

theorem atLine_dedent (r : List Face) : AtLine (mark .dedent :: r) := by
  constructor <;> simp [mark]

/-- The rule reads `w` as `a` wherever a line may stand. -/
def ReadsLine (item : Rule α) (w : List Face) (a : α) : Prop :=
  StartsLine w ∧ ∀ r, AtLine r → Reads item w r a

/-- Lines that can each be read before another line are read together, up to the dedent. -/
theorem Reads.lines {item : Rule α} (hadvances : Advances item) {parts : List (α × List Face)}
    {r : List Face} (h : ∀ x ∈ parts, ReadsLine item x.2 x.1) :
    Reads (lines item) (parts.flatMap Prod.snd ++ [mark .dedent]) r (parts.map Prod.fst) := by
  induction parts with
  | nil =>
    rw [lines_eq hadvances]
    refine Reads.skipNewlines_bind (atLine_dedent r).newline ?_
    exact Reads.blockEnd_bind (Reads.pure _ r)
  | cons x parts ih =>
    obtain ⟨⟨hstart, hitem⟩, hparts⟩ := List.forall_mem_cons.1 h
    have hmore := ih hparts
    have hafter : AtLine (parts.flatMap Prod.snd ++ [mark .dedent] ++ r) := by
      cases parts with
      | nil => exact atLine_dedent r
      | cons y parts =>
        rw [List.flatMap_cons, List.append_assoc, List.append_assoc]
        exact (hparts y List.mem_cons_self).1.append _
    rw [lines_eq hadvances, List.flatMap_cons, List.append_assoc]
    refine Reads.skipNewlines_bind ?_ ?_
    · rw [List.append_assoc]
      exact (hstart.append _).newline
    · refine Reads.blockEnd_false_bind (List.append_ne_nil_of_left_ne_nil hstart.nonempty _) ?_ ?_
      · rw [kindAt_append_zero hstart.nonempty]
        exact hstart.dedent
      · simp only [Bool.false_eq_true, if_false]
        exact (hitem _ hafter).bind (hmore.map (x.1 :: ·))

/-- Lines that are written one by one the same way. -/
theorem Reads.lines_map {item : Rule α} (hadvances : Advances item) {items : List α}
    {write : α → List Face} {r : List Face}
    (h : ∀ a ∈ items, ReadsLine item (write a) a) :
    Reads (Rule.lines item) (items.flatMap write ++ [mark .dedent]) r items := by
  have hparts : ∀ x ∈ items.map fun a => (a, write a), ReadsLine item x.2 x.1 := by
    intro x hx
    obtain ⟨a, ha, rfl⟩ := List.mem_map.1 hx
    exact h a ha
  have hread := Reads.lines (r := r) hadvances hparts
  rw [List.flatMap_map, List.map_map] at hread
  simpa only [Function.comp_def, List.map_id'] using hread

/-- Items that can each be read before a comma and before what follows the last are read
together. -/
theorem Reads.commaSeparated {item : Rule α} (hleaves : LeavesSuffix item)
    {items : List α} {write : α → List Face} {r : List Face} {Follows : List Face → Prop}
    (hcomma : ∀ r, Follows (mark .comma :: r)) (hr : Follows r)
    (hend : kindAt r 0 ≠ some .comma) (hne : items ≠ [])
    (h : ∀ a ∈ items, ∀ r, Follows r → Reads item (write a) r a) :
    Reads (commaSeparated item) (commas (items.map write)) r items := by
  induction items with
  | nil => exact absurd rfl hne
  | cons a items ih =>
    obtain ⟨hitem, hitems⟩ := List.forall_mem_cons.1 h
    rw [commaSeparated_eq hleaves]
    cases items with
    | nil =>
      exact (hitem r hr).bind_nil (Reads.accept_none_bind hend (Reads.pure [a] r))
    | cons b items =>
      refine (hitem _ (hcomma _)).bind ?_
      exact Reads.accept_bind fun _ => (ih (List.cons_ne_nil b items) hitems).map (a :: ·)

section Chain

variable {ω : Type} {op : Kind → Option ω} {kindOf : ω → Kind} {operand : Rule α}
  {write : α → List Face} {Follows : List Face → Prop} {steps : List (ω × α)} {r : List Face}

theorem Reads.operations_nil (hadvances : Advances operand) (hend : (kindAt r 0).bind op = none) :
    Reads (operations op operand) [] r [] := by
  rw [operations_eq hadvances]
  refine Reads.peekKind_bind ?_
  rw [List.nil_append, hend]
  exact Reads.pure [] r

theorem follows_operations (hfollows : ∀ o r, Follows (mark (kindOf o) :: r)) (hr : Follows r) :
    Follows ((steps.flatMap fun s => mark (kindOf s.1) :: write s.2) ++ r) := by
  cases steps with
  | nil => exact hr
  | cons s steps => exact hfollows s.1 _

/-- Operators and the operands after them are read as long as operators come. -/
theorem Reads.operations (hadvances : Advances operand) (hop : ∀ o, op (kindOf o) = some o)
    (hfollows : ∀ o r, Follows (mark (kindOf o) :: r)) (hr : Follows r)
    (hend : (kindAt r 0).bind op = none)
    (h : ∀ s ∈ steps, ∀ r, Follows r → Reads operand (write s.2) r s.2) :
    Reads (operations op operand) (steps.flatMap fun s => mark (kindOf s.1) :: write s.2) r
      steps := by
  induction steps with
  | nil => exact Reads.operations_nil hadvances hend
  | cons s steps ih =>
    obtain ⟨hs, hsteps⟩ := List.forall_mem_cons.1 h
    rw [operations_eq hadvances, List.flatMap_cons, List.cons_append]
    refine Reads.peekKind_bind ?_
    have hkind : (kindAt (mark (kindOf s.1) :: (write s.2 ++
        steps.flatMap fun s => mark (kindOf s.1) :: write s.2) ++ r) 0).bind op = some s.1 :=
      hop s.1
    rw [hkind]
    exact Reads.next_bind fun _ =>
      (hs _ (follows_operations hfollows hr)).bind ((ih hsteps).map ((s.1, s.2) :: ·))

/-- A chain is read as its first operand, joined with the others from the left. -/
theorem Reads.chain {join : ω → α → α → α} {first : α} {w : List Face}
    (hadvances : Advances operand) (hop : ∀ o, op (kindOf o) = some o)
    (hfollows : ∀ o r, Follows (mark (kindOf o) :: r)) (hr : Follows r)
    (hend : (kindAt r 0).bind op = none)
    (hfirst : ∀ r, Follows r → Reads operand w r first)
    (h : ∀ s ∈ steps, ∀ r, Follows r → Reads operand (write s.2) r s.2) :
    Reads (chain op join operand) (w ++ steps.flatMap fun s => mark (kindOf s.1) :: write s.2) r
      (steps.foldl (fun left s => join s.1 left s.2) first) := by
  refine (hfirst _ (follows_operations hfollows hr)).bind ?_
  exact (Reads.operations hadvances hop hfollows hr hend h).map
    fun steps => steps.foldl (fun left s => join s.1 left s.2) first

/-- A single operand is a chain. -/
theorem Reads.chain_single {join : ω → α → α → α} {first : α} {w : List Face}
    (hadvances : Advances operand) (hend : (kindAt r 0).bind op = none)
    (hfirst : Reads operand w r first) : Reads (Rule.chain op join operand) w r first := by
  refine hfirst.bind_nil ?_
  exact (Reads.operations_nil hadvances hend).map
    fun steps => steps.foldl (fun left s => join s.1 left s.2) first

end Chain

end Offside.Rule
