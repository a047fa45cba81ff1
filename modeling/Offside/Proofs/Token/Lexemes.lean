import Mathlib.Data.List.Pairwise
import Offside.Proofs.Token.Course

/-!
Nothing is lost and nothing is made up between a text and its tokens. The text is a row of parts,
each some trivia and then a lexeme, with trivia at the end; the lexemes spell the tokens that are
no levels, in order, and each such token has the place of its lexeme. All tokens stand in reading
order, so a level has its place between those of its neighbours.
-/
namespace Offside

/-- A lexeme with the trivia before it and its token. -/
structure Part where
  gap : List Char
  lexeme : List Char
  token : Token

def Part.text (p : Part) : List Char := p.gap ++ p.lexeme

/-- The parts, and then `tail`, make up the text, and theirs are the tokens that are no levels. -/
structure Accounts (text : List Char) (ts : List Token) (parts : List Part) (tail : List Char) :
    Prop where
  text_eq : text = parts.flatMap Part.text ++ tail
  trivia_tail : Trivia tail
  trivia_gap : ∀ p ∈ parts, Trivia p.gap
  tokens_eq : parts.map Part.token = ts.filter (!·.isLevel)
  spells : ∀ p ∈ parts, Spells p.lexeme p.token.kind p.token.text
  position_eq : ∀ before p after, parts = before ++ p :: after →
    p.token.position = Position.ofText (before.flatMap Part.text ++ p.gap)

namespace Accounts

variable {text tail v : List Char} {ts vs : List Token} {parts : List Part}

theorem nil : Accounts [] [] [] [] := by
  refine ⟨rfl, .nil, by simp, rfl, by simp, ?_⟩
  intro before p after h
  simp at h

/-- Trivia goes to the tail, and levels are passed over. -/
theorem trivia (h : Accounts text ts parts tail) (hv : Trivia v)
    (hvs : ∀ t ∈ vs, t.isLevel = true) : Accounts (text ++ v) (ts ++ vs) parts (tail ++ v) where
  text_eq := by rw [h.text_eq, List.append_assoc]
  trivia_tail := h.trivia_tail.append hv
  trivia_gap := h.trivia_gap
  tokens_eq := by
    have hnone : vs.filter (!·.isLevel) = [] := by
      rw [List.filter_eq_nil_iff]
      intro t ht
      simp [hvs t ht]
    rw [h.tokens_eq, List.filter_append, hnone, List.append_nil]
  spells := h.spells
  position_eq := h.position_eq

/-- A lexeme makes a part of the tail before it. -/
theorem lexeme {token : Token} (h : Accounts text ts parts tail)
    (hv : Spells v token.kind token.text) (hp : token.position = Position.ofText text)
    (hlevel : token.isLevel = false) :
    Accounts (text ++ v) (ts ++ [token]) (parts ++ [⟨tail, v, token⟩]) [] where
  text_eq := by simp [h.text_eq, Part.text]
  trivia_tail := .nil
  trivia_gap := by
    intro p hmem
    rcases List.mem_append.1 hmem with hmem | hmem
    · exact h.trivia_gap p hmem
    · rw [List.mem_singleton.1 hmem]
      exact h.trivia_tail
  tokens_eq := by simp [h.tokens_eq, hlevel]
  spells := by
    intro p hmem
    rcases List.mem_append.1 hmem with hmem | hmem
    · exact h.spells p hmem
    · rw [List.mem_singleton.1 hmem]
      exact hv
  position_eq := by
    intro before p after hsplit
    rcases List.eq_nil_or_concat after with rfl | ⟨after, final, rfl⟩
    · obtain ⟨rfl, hlast⟩ := List.append_inj' hsplit rfl
      obtain rfl := (List.cons.inj hlast).1
      rw [hp, h.text_eq]
    · rw [List.concat_eq_append, ← List.cons_append, ← List.append_assoc] at hsplit
      exact h.position_eq before p after (List.append_inj' hsplit rfl).1

end Accounts

namespace Scan

variable {s t next : Scan} {text : List Char} {ts : List Token}

/-- The tokens of a move have the place where it starts. -/
theorem Moves.position_eq_of_mem (h : Moves s text ts next) {u : Token} (hu : u ∈ ts) :
    u.position = s.cursor.position := by
  cases h.effect with
  | emptyHead _ _ _ => simp at hu
  | lineHead _ _ _ _ => exact (Layout.of_mem_shift hu).2
  | gap _ _ _ _ => simp at hu
  | lexeme _ _ _ => rw [List.mem_singleton.1 hu]

/-- Tokens in reading order stay so when tokens of one place, not before theirs, are added. -/
theorem pairwise_append_of_position {p : Position} {us vs : List Token}
    (hsorted : us.Pairwise fun u v => u.position ≤ v.position)
    (hle : ∀ u ∈ us, u.position ≤ p) (hnow : ∀ u ∈ vs, u.position = p) :
    (us ++ vs).Pairwise fun u v => u.position ≤ v.position := by
  rw [List.pairwise_append]
  refine ⟨hsorted, List.pairwise_of_forall_mem_list fun a ha b hb => ?_, fun a ha b hb => ?_⟩
  · rw [hnow a ha, hnow b hb]
  · rw [hnow b hb]
    exact hle a ha

theorem Reaches.pairwise_position (h : Reaches s text ts t) :
    ts.Pairwise (fun u v => u.position ≤ v.position) ∧
      ∀ u ∈ ts, u.position ≤ t.cursor.position := by
  refine h.invariant (fun _ ts t => ts.Pairwise (fun u v => u.position ≤ v.position) ∧
    ∀ u ∈ ts, u.position ≤ t.cursor.position) (by simp) ?_
  rintro w us mid v vs next - ⟨hsorted, hle⟩ hm
  have hnow : ∀ u ∈ vs, u.position = mid.cursor.position := fun u hu => hm.position_eq_of_mem hu
  have hnext : mid.cursor.position ≤ next.cursor.position := by
    rw [hm.position_eq]
    exact Position.le_after _ v
  refine ⟨pairwise_append_of_position hsorted hle hnow, fun u hu => ?_⟩
  rcases List.mem_append.1 hu with hu | hu
  · exact (hle u hu).trans hnext
  · rw [hnow u hu]
    exact hnext

theorem Reaches.exists_accounts {source : String} (h : Reaches (start source) text ts t) :
    ∃ parts tail, Accounts text ts parts tail := by
  refine h.invariant (fun text ts _ => ∃ parts tail, Accounts text ts parts tail)
    ⟨[], [], .nil⟩ ?_
  rintro w us mid v vs next hreach ⟨parts, tail, hacc⟩ hm
  cases hm.effect with
  | emptyHead _ hr _ => exact ⟨parts, _, hacc.trivia (Layout.trivia_of_readHead hr) (by simp)⟩
  | lineHead _ hr _ _ =>
    exact ⟨parts, _, hacc.trivia (Layout.trivia_of_readHead hr) fun t ht =>
      (Layout.of_mem_shift ht).1⟩
  | gap _ _ _ ht => exact ⟨parts, _, hacc.trivia ht (by simp)⟩
  | lexeme _ _ ht => exact ⟨_, [], hacc.lexeme ht hreach.position_start (ht.isLevel_eq _)⟩

end Scan

open Scan

/-- The tokens of a text account for all of it, and they stand in reading order. -/
theorem accounts_of_tokenize {source : String} {ts : List Token} (h : tokenize source = .ok ts) :
    (∃ parts tail, Accounts source.toList ts parts tail) ∧
      ts.Pairwise fun u v => u.position ≤ v.position := by
  obtain ⟨us, last, hrun, -, rfl⟩ := exists_reaches_of_tokenize h
  constructor
  · obtain ⟨parts, tail, hacc⟩ := hrun.exists_accounts
    have hclosed : Accounts (source.toList ++ []) (us ++ last.close) parts (tail ++ []) :=
      hacc.trivia .nil fun t ht => (of_mem_close ht).1
    rw [List.append_nil, List.append_nil] at hclosed
    exact ⟨parts, tail, hclosed⟩
  · obtain ⟨hsorted, hle⟩ := hrun.pairwise_position
    exact pairwise_append_of_position hsorted hle fun u hu => (of_mem_close hu).2

/-- Two lines with a doubled symbol, a carriage return and an escape. -/
def quoted : String := "a && 'b'\r\n\t\"\\n\""

def quotedTokens : List Token :=
  [⟨.word, ⟨1, 0⟩, some "a"⟩, ⟨.and, ⟨1, 2⟩, none⟩, ⟨.character, ⟨1, 5⟩, some "b"⟩,
    ⟨.newline, ⟨1, 9⟩, none⟩, ⟨.indent, ⟨2, 0⟩, none⟩, ⟨.string, ⟨2, 4⟩, some "\n"⟩,
    ⟨.dedent, ⟨2, 8⟩, none⟩]

theorem accounts_of_tokenize_quoted : tokenize quoted = .ok quotedTokens ∧
    (∃ parts tail, Accounts quoted.toList quotedTokens parts tail) ∧
      quotedTokens.Pairwise fun u v => u.position ≤ v.position := by
  have h : tokenize quoted = .ok quotedTokens := by decide +kernel
  exact ⟨h, accounts_of_tokenize h⟩

end Offside
