import Offside.Proofs.Grammar.Blur

/-!
Surplus newlines and dedents. A newline next to a newline, and dedents behind the last token, are
blurs: rules pass any number of newlines where they pass one, and end a block or a line at a dedent
as at the end of the tokens. The grammar is blind to both, so a program is read as without them.
-/
namespace Offside

namespace Rule.Blur

/-- The second list is the first one, perhaps with one of its newlines twice. -/
inductive Doubled : List Token → List Token → Prop
  | refl (ts : List Token) : Doubled ts ts
  | newline {t : Token} (ht : t.kind = .newline) (ts : List Token) :
      Doubled (t :: ts) (t :: t :: ts)
  | cons (t : Token) {ts us : List Token} (h : Doubled ts us) : Doubled (t :: ts) (t :: us)

namespace Doubled

variable {ts us : List Token}

theorem head?_eq (h : Doubled ts us) : us.head? = ts.head? := by
  cases h <;> rfl

theorem getLast?_eq (h : Doubled ts us) : us.getLast? = ts.getLast? := by
  induction h with
  | refl ts => rfl
  | newline _ ts => rw [List.getLast?_cons_cons]
  | cons t _ ih => rw [List.getLast?_cons, List.getLast?_cons, ih]

theorem dropWhile {kinds : List Kind} (hkinds : .newline ∈ kinds) (h : Doubled ts us) :
    Doubled (ts.dropWhile fun t => kinds.contains t.kind)
      (us.dropWhile fun t => kinds.contains t.kind) := by
  induction h with
  | refl ts => exact .refl _
  | newline ht ts =>
    simp only [List.dropWhile_cons, ht, List.contains_iff_mem.2 hkinds, if_true]
    exact .refl _
  | cons t h ih =>
    simp only [List.dropWhile_cons]
    split
    · exact ih
    · exact .cons t h

/-- A copy of a newline, before it or behind it. -/
theorem insertIdx {t : Token} (ht : t.kind = .newline) {i j : Nat} (hi : ts[i]? = some t)
    (hj : j = i ∨ j = i + 1) : Doubled ts (ts.insertIdx j t) := by
  induction ts generalizing i j with
  | nil => simp at hi
  | cons u ts ih =>
    cases i with
    | zero =>
      obtain rfl : u = t := by simpa using hi
      rcases hj with rfl | rfl
      · exact .newline ht ts
      · exact .newline ht ts
    | succ i =>
      obtain ⟨j, rfl⟩ : ∃ k, j = k + 1 := ⟨j - 1, by omega⟩
      exact .cons u (ih hi (by omega))

end Doubled

/-- Newlines next to newlines. -/
def newlines : Blur where
  rel := Doubled
  head h := by
    left
    cases h <;> rfl
  tail h ht := by
    cases h with
    | refl => exact ⟨rfl, .refl _⟩
    | newline hn => exact absurd hn ht
    | cons _ h => exact ⟨rfl, h⟩
  drain h := by cases h
  pass := Doubled.dropWhile

/-- Dedents behind the last token. -/
def dedents : Blur where
  rel ts us := ∃ ds, (∀ d ∈ ds, Token.kind d = .dedent) ∧ us = ts ++ ds
  head := by
    rintro ts us ⟨ds, hds, rfl⟩
    cases ts with
    | cons t ts => exact .inl rfl
    | nil =>
      cases ds with
      | nil => exact .inl rfl
      | cons d ds => exact .inr ⟨rfl, congrArg some (hds d List.mem_cons_self)⟩
  tail := by
    rintro t u ts us ⟨ds, hds, heq⟩ -
    cases heq
    exact ⟨rfl, ds, hds, rfl⟩
  drain := by
    rintro u us ⟨ds, hds, rfl⟩
    exact ⟨us, fun d hd => hds d (List.mem_cons_of_mem u hd), rfl⟩
  pass := by
    rintro kinds ts us - ⟨ds, hds, rfl⟩
    rw [List.dropWhile_append]
    split
    · rename_i hempty
      rw [List.isEmpty_iff.1 hempty]
      exact ⟨_, fun d hd => hds d ((List.dropWhile_suffix _).subset hd), rfl⟩
    · exact ⟨ds, hds, rfl⟩

end Rule.Blur

open Rule Blur Grammar

/-- A newline may stand twice where it stands once: the program is the same, or the error with its
complaint, its token and its place. -/
theorem ofTokens_insertIdx_newline {ts : List Token} {i j : Nat} {t : Token}
    (hi : ts[i]? = some t) (ht : t.kind = .newline) (hj : j = i ∨ j = i + 1) :
    Program.ofTokens (ts.insertIdx j t) = Program.ofTokens ts := by
  have hdoubled := Doubled.insertIdx ht hi hj
  have hagree := program_blind (B := newlines) _ _ hdoubled List.nil_prefix
  unfold Program.ofTokens
  generalize program ts = x at hagree
  generalize program (ts.insertIdx j t) = y at hagree
  cases hagree with
  | ok p _ => rfl
  | @error c rest rest' h =>
    have hrest : rest'.head? = rest.head? := Doubled.head?_eq h
    simp only [Refusal.toError, currentPosition, hrest, hdoubled.getLast?_eq]

namespace Surplus

/-- A class with a method that calls itself. The tokens end inside both blocks. -/
def tokens : List Token :=
  [⟨.keyClass, ⟨1, 0⟩, none⟩, ⟨.word, ⟨1, 6⟩, some "A"⟩, ⟨.newline, ⟨1, 7⟩, none⟩,
    ⟨.indent, ⟨2, 0⟩, none⟩, ⟨.word, ⟨2, 4⟩, some "run"⟩, ⟨.lparen, ⟨2, 7⟩, none⟩,
    ⟨.rparen, ⟨2, 8⟩, none⟩, ⟨.newline, ⟨2, 9⟩, none⟩, ⟨.indent, ⟨3, 0⟩, none⟩,
    ⟨.word, ⟨3, 8⟩, some "run"⟩, ⟨.lparen, ⟨3, 11⟩, none⟩, ⟨.rparen, ⟨3, 12⟩, none⟩]

def program : Program :=
  ⟨[⟨"A", [], [], [], [⟨"run", false, false, false, [], [], [],
    .statements [.call [] ⟨none, "run", []⟩]⟩]⟩], []⟩

theorem ofTokens_tokens : Program.ofTokens tokens = .ok program := rfl

/-- A class with a line that is no declaration. -/
def broken : List Token :=
  [⟨.keyClass, ⟨1, 0⟩, none⟩, ⟨.word, ⟨1, 6⟩, some "A"⟩, ⟨.newline, ⟨1, 7⟩, none⟩,
    ⟨.indent, ⟨2, 0⟩, none⟩, ⟨.plus, ⟨2, 4⟩, none⟩]

def error : ParseError :=
  ⟨.expected "member, method or constructor", some ⟨.plus, ⟨2, 4⟩, none⟩, ⟨2, 4⟩⟩

theorem ofTokens_broken : Program.ofTokens broken = .error error := rfl

end Surplus

open Surplus in
theorem ofTokens_insertIdx_newline_class :
    Program.ofTokens (tokens.insertIdx 8 ⟨.newline, ⟨2, 9⟩, none⟩) = .ok program ∧
    Program.ofTokens (broken.insertIdx 2 ⟨.newline, ⟨1, 7⟩, none⟩) = .error error :=
  ⟨(ofTokens_insertIdx_newline (i := 7) rfl rfl (.inr rfl)).trans ofTokens_tokens,
    (ofTokens_insertIdx_newline (i := 2) rfl rfl (.inl rfl)).trans ofTokens_broken⟩

/-- Dedents behind the last token may be left out. -/
theorem ofTokens_append_dedents (ts : List Token) {ds : List Token}
    (hds : ∀ d ∈ ds, d.kind = .dedent) (p : Program) :
    Program.ofTokens (ts ++ ds) = .ok p ↔ Program.ofTokens ts = .ok p := by
  have hagree := program_blind (B := dedents) ts (ts ++ ds) ⟨ds, hds, rfl⟩ List.nil_prefix
  unfold Program.ofTokens
  generalize program ts = x at hagree
  generalize program (ts ++ ds) = y at hagree
  cases hagree with
  | ok q _ => rfl
  | error c _ => simp

open Surplus in
theorem ofTokens_append_dedents_class :
    Program.ofTokens (tokens ++ [⟨.dedent, ⟨3, 13⟩, none⟩, ⟨.dedent, ⟨4, 0⟩, none⟩]) =
      .ok program :=
  (ofTokens_append_dedents tokens (by decide) program).2 ofTokens_tokens

end Offside
