import Mathlib.Data.List.TakeWhile
import Mathlib.Tactic.Tauto
import Offside.Token.Layout

/-!
What stands in a text, told without the reader. Trivia is made of blanks, carriage returns and
closed comments; every other piece spells one token. The reader of pieces takes either trivia, and
then gives no token, or a spelling of the token that it gives. The head of a line is its leading
blanks and comments, and the reader of heads finds the one way to split them off. A word is looked
up as a keyword exactly if it is the spelling of one (`Kind.ofKeyword?_eq_some_iff`).
-/
namespace Offside

/-- Spaces, tabs, carriage returns and comments. -/
inductive Trivia : List Char → Prop
  | nil : Trivia []
  | blank {c : Char} {text : List Char} (hc : c = ' ' ∨ c = '\t' ∨ c = '\r') (ht : Trivia text) :
      Trivia (c :: text)
  | comment {body text : List Char} (hb : '\x7d' ∉ body) (ht : Trivia text) :
      Trivia ('\x7b' :: body ++ '\x7d' :: text)

theorem Trivia.append {s t : List Char} (hs : Trivia s) (ht : Trivia t) : Trivia (s ++ t) := by
  induction hs with
  | nil => exact ht
  | blank hc _ ih => exact .blank hc ih
  | comment hb _ ih => simpa using Trivia.comment hb ih

/-- The first character of trivia. -/
theorem Trivia.head {c : Char} {text : List Char} (h : Trivia (c :: text)) :
    c = ' ' ∨ c = '\t' ∨ c = '\r' ∨ c = '\x7b' := by
  cases h with
  | blank hc _ => tauto
  | comment _ _ => simp

/-- Digits with at most one point among them: a point after the first digits, or a point first and
then at least one digit. -/
def IsNumeral (text : List Char) : Prop :=
  ∃ whole fraction : List Char, (∀ c ∈ whole, c.isDigit) ∧ (∀ c ∈ fraction, c.isDigit) ∧
    (whole ≠ [] ∧ (text = whole ∨ text = whole ++ '.' :: fraction) ∨
      fraction ≠ [] ∧ text = '.' :: fraction)

/-- The characters between two quotes, and the text that they stand for. -/
inductive Unescapes (quote : Char) : List Char → List Char → Prop
  | nil : Unescapes quote [] []
  | plain {c : Char} {body text : List Char} (hq : c ≠ quote) (hb : c ≠ '\\')
      (h : Unescapes quote body text) : Unescapes quote (c :: body) (c :: text)
  | escaped {c : Char} {body text : List Char} (h : Unescapes quote body text) :
      Unescapes quote ('\\' :: c :: body) (Piece.unescape c :: text)

/-- The characters of a lexeme, with the kind and the text of its token. -/
inductive Spells : List Char → Kind → Option String → Prop
  | newline : Spells ['\n'] .newline none
  | fixed {kind : Kind} {spelling : String} (h : kind.spelling = some spelling) :
      Spells spelling.toList kind none
  | doubledAnd : Spells ['&', '&'] .and none
  | doubledOr : Spells ['|', '|'] .or none
  | word {letters : List Char} (hne : letters ≠ []) (hl : ∀ c ∈ letters, isAlphabetic c)
      (hk : Kind.ofKeyword? (String.ofList letters) = none) :
      Spells letters .word (some (String.ofList letters))
  | number {digits : List Char} (h : IsNumeral digits) :
      Spells digits .number (some (String.ofList digits))
  | string {body text : List Char} (h : Unescapes '\x22' body text) :
      Spells ('\x22' :: body ++ ['\x22']) .string (some (String.ofList text))
  | character {body : List Char} {c : Char} (h : Unescapes '\x27' body [c]) :
      Spells ('\x27' :: body ++ ['\x27']) .character (some (String.ofList [c]))

namespace Spells

theorem ne_nil {text : List Char} {kind : Kind} {value : Option String}
    (h : Spells text kind value) : text ≠ [] := by
  cases h with
  | fixed h => cases kind <;> cases h <;> simp
  | word hne _ _ => exact hne
  | number h =>
    obtain ⟨whole, fraction, -, -, ⟨hne, rfl | rfl⟩ | ⟨-, rfl⟩⟩ := h
    · exact hne
    · simp
    · simp
  | _ => simp

theorem eq_of_newline {text : List Char} {value : Option String}
    (h : Spells text .newline value) : text = ['\n'] := by
  cases h with
  | newline => rfl
  | fixed h => cases h

/-- Levels are not spelled. -/
theorem kind_ne {text : List Char} {kind : Kind} {value : Option String}
    (h : Spells text kind value) : kind ≠ .indent ∧ kind ≠ .dedent := by
  cases h with
  | fixed h => constructor <;> rintro rfl <;> cases h
  | _ => simp

end Spells

namespace Kind

/-- The kinds that are spelled with letters. -/
def keywords : List Kind :=
  [keyIf, keyElse, keyClass, keyInterface, keyAccessor, keyMutator, keyLoop, keyTrue, keyFalse,
    keyShared, keyConstruct, keyNew, keyPrivate, keyImplements, and, or]

theorem ofKeyword?_spelling {word : String} {kind : Kind} (h : ofKeyword? word = some kind) :
    kind.spelling = some word := by
  unfold ofKeyword? at h
  split at h <;> cases h <;> rfl

/-- The table of keywords is the inverse of their spelling. -/
theorem ofKeyword?_eq_some_iff {word : String} {kind : Kind} :
    ofKeyword? word = some kind ↔ kind ∈ keywords ∧ kind.spelling = some word := by
  constructor
  · intro h
    refine ⟨?_, ofKeyword?_spelling h⟩
    unfold ofKeyword? at h
    split at h <;> cases h <;> decide
  · rintro ⟨hk, hspelling⟩
    simp only [keywords, List.mem_cons, List.not_mem_nil, or_false] at hk
    rcases hk with rfl | rfl | rfl | rfl | rfl | rfl | rfl | rfl | rfl | rfl | rfl | rfl | rfl |
      rfl | rfl | rfl <;> cases hspelling <;> rfl

theorem ofPunctuation?_spelling {c : Char} {kind : Kind} (h : ofPunctuation? c = some kind) :
    kind.spelling = some (String.singleton c) := by
  unfold ofPunctuation? at h
  split at h <;> cases h <;> rfl

theorem ofPunctuation?_dot {c : Char} (h : ofPunctuation? c = some dot) : c = '.' := by
  unfold ofPunctuation? at h
  split at h <;> cases h
  rfl

theorem ofPair?_spells {c d : Char} {kind : Kind} (h : ofPair? c d = some kind) :
    Spells [c, d] kind none := by
  unfold ofPair? at h
  split at h <;> cases h
  · exact (.fixed rfl : Spells "==".toList .equal none)
  · exact (.fixed rfl : Spells "!=".toList .notEqual none)
  · exact (.fixed rfl : Spells "<=".toList .lessEqual none)
  · exact (.fixed rfl : Spells ">=".toList .greaterEqual none)
  · exact .doubledAnd
  · exact .doubledOr

end Kind

theorem eq_false_of_head_dropWhile {p : Char → Bool} {cs : List Char} {c : Char}
    (h : c ∈ (cs.dropWhile p).head?) : p c = false := by
  have hnot := List.head?_dropWhile_not p cs
  rw [Option.mem_def.1 h] at hnot
  simpa using hnot

namespace Piece

theorem closeComment_body {cs taken rest : List Char} (h : closeComment cs = some (taken, rest)) :
    ∃ body, '\x7d' ∉ body ∧ taken = body ++ ['\x7d'] := by
  unfold closeComment at h
  split at h
  · cases h
  · rename_i close after heq
    cases h
    have hclose : close = '\x7d' := by
      simpa using eq_false_of_head_dropWhile (Option.mem_def.2 (congrArg List.head? heq))
    refine ⟨cs.takeWhile (· ≠ '\x7d'), fun hmem => ?_, by rw [hclose]⟩
    simpa using List.mem_takeWhile_imp hmem

theorem closeString_unescapes {cs text taken rest : List Char}
    (h : closeString cs = some (text, taken, rest)) :
    ∃ body, Unescapes '\x22' body text ∧ taken = body ++ ['\x22'] := by
  fun_induction closeString cs generalizing text taken rest with
  | case1 => cases h
  | case2 => cases h; exact ⟨[], .nil, rfl⟩
  | case3 => cases h
  | case4 c cs ih =>
    obtain ⟨⟨text', taken', rest'⟩, hr, he⟩ := Option.map_eq_some_iff.1 h
    cases he
    obtain ⟨body, hbody, rfl⟩ := ih hr
    exact ⟨'\\' :: c :: body, hbody.escaped, rfl⟩
  | case5 c cs hquote hlone hslash ih =>
    obtain ⟨⟨text', taken', rest'⟩, hr, he⟩ := Option.map_eq_some_iff.1 h
    cases he
    obtain ⟨body, hbody, rfl⟩ := ih hr
    have hplain : c ≠ '\\' := by
      intro hc
      cases cs with
      | nil => exact hlone hc rfl
      | cons d ds => exact hslash d ds hc rfl
    exact ⟨c :: body, hbody.plain hquote hplain, rfl⟩

theorem closeCharacter_unescapes {cs taken rest : List Char} {c : Char}
    (h : closeCharacter cs = some (c, taken, rest)) :
    ∃ body, Unescapes '\x27' body [c] ∧ taken = body ++ ['\x27'] := by
  unfold closeCharacter at h
  split at h
  · rename_i d after
    cases h
    exact ⟨['\\', d], .escaped .nil, rfl⟩
  · split at h
    · cases h
    rename_i hplain
    cases h
    exact ⟨[c], .plain (by tauto) (by tauto) .nil, rfl⟩
  · cases h

theorem forall_mem_cons_takeWhile (p : Char → Bool) {c : Char} (hc : p c) (cs : List Char) :
    ∀ d ∈ c :: cs.takeWhile p, p d := by
  intro d hd
  rcases List.mem_cons.1 hd with rfl | hd
  · exact hc
  · exact List.mem_takeWhile_imp hd

theorem isNumeral_spanNumber {c : Char} (hc : c.isDigit) (cs : List Char) :
    IsNumeral (c :: (spanNumber cs).1) := by
  have hwhole := forall_mem_cons_takeWhile Char.isDigit hc cs
  unfold spanNumber
  split
  · rename_i rest heq
    exact ⟨_, rest.takeWhile Char.isDigit, hwhole, fun d hd => List.mem_takeWhile_imp hd,
      .inl ⟨by simp, .inr rfl⟩⟩
  · exact ⟨_, [], hwhole, by simp, .inl ⟨by simp, .inl rfl⟩⟩

theorem isNumeral_point {cs : List Char} (h : cs.head?.any Char.isDigit) :
    IsNumeral ('.' :: cs.takeWhile Char.isDigit) := by
  refine ⟨[], cs.takeWhile Char.isDigit, by simp, fun d hd => List.mem_takeWhile_imp hd,
    .inr ⟨?_, rfl⟩⟩
  cases cs with
  | nil => simp at h
  | cons d ds =>
    have hd : d.isDigit = true := by simpa using h
    simp [hd]

/-- A piece is trivia, or it spells its token. -/
def Sound (p : Piece) : Prop :=
  match p.token with
  | none => Trivia p.taken
  | some (kind, text) => Spells p.taken kind text

theorem readWord_sound {c : Char} (hc : isAlphabetic c) (cs : List Char) :
    (readWord c cs).Sound := by
  have hletters := forall_mem_cons_takeWhile isAlphabetic hc cs
  unfold readWord
  dsimp only
  split
  · rename_i kind hkind
    simpa [Sound, mark] using Spells.fixed (Kind.ofKeyword?_spelling hkind)
  · rename_i hkind
    exact Spells.word (List.cons_ne_nil _ _) hletters hkind

/-- A symbol that makes no pair with the next character. -/
theorem readSymbol_single {c : Char} {cs : List Char}
    (h : ∀ d ∈ cs.head?, Kind.ofPair? c d = none) :
    readSymbol c cs =
      match Kind.ofPunctuation? c with
      | none => .error (.unexpectedCharacter c)
      | some .dot =>
        if cs.head?.any Char.isDigit then
          .ok (number (c :: cs.takeWhile Char.isDigit) (cs.dropWhile Char.isDigit))
        else .ok (mark .dot [c] cs)
      | some kind => .ok (mark kind [c] cs) := by
  cases cs with
  | nil => rfl
  | cons d cs =>
    have hnone : (d :: cs).head?.bind (Kind.ofPair? c) = none := h d rfl
    unfold readSymbol
    split
    · rename_i hkind _
      cases hnone.symm.trans hkind
    · rfl

/-- A symbol of two characters, the fraction of a number, or a symbol by itself. -/
inductive Symbol : Char → List Char → Piece → Prop
  | pair {c d : Char} {kind : Kind} (hkind : Kind.ofPair? c d = some kind) (rest : List Char) :
      Symbol c (d :: rest) (mark kind [c, d] rest)
  | fraction {cs : List Char} (hdigit : cs.head?.any Char.isDigit) :
      Symbol '.' cs (number ('.' :: cs.takeWhile Char.isDigit) (cs.dropWhile Char.isDigit))
  | single {c : Char} {cs : List Char} {kind : Kind} (hkind : Kind.ofPunctuation? c = some kind)
      (hpair : ∀ d ∈ cs.head?, Kind.ofPair? c d = none)
      (hdot : kind = .dot → ∀ d ∈ cs.head?, d.isDigit = false) :
      Symbol c cs (mark kind [c] cs)

theorem symbol_of_readSymbol {c : Char} {cs : List Char} {p : Piece} (h : readSymbol c cs = .ok p) :
    Symbol c cs p := by
  by_cases hpair : ∀ d ∈ cs.head?, Kind.ofPair? c d = none
  · rw [readSymbol_single hpair] at h
    split at h
    · cases h
    · rename_i hkind
      obtain rfl : c = '.' := Kind.ofPunctuation?_dot hkind
      split at h <;> cases h
      · exact .fraction ‹_›
      · rename_i hdigit
        exact .single hkind hpair fun _ d hd => by simpa [Option.mem_def.1 hd] using hdigit
    · rename_i kind hdot hkind
      cases h
      exact .single hkind hpair fun he => absurd he hdot
  · obtain ⟨d, hd, hkind⟩ : ∃ d, d ∈ cs.head? ∧ Kind.ofPair? c d ≠ none := by
      simpa using hpair
    obtain ⟨rest, rfl⟩ := List.head?_eq_some_iff.1 hd
    obtain ⟨kind, hkind⟩ := Option.ne_none_iff_exists'.1 hkind
    simp only [readSymbol, List.head?_cons, Option.bind_some, hkind] at h
    cases h
    exact .pair hkind rest

/-- The reader of symbols finds each symbol. -/
theorem Symbol.readSymbol_eq {c : Char} {cs : List Char} {p : Piece} (h : Symbol c cs p) :
    readSymbol c cs = .ok p := by
  cases h with
  | pair hkind rest =>
    simp only [readSymbol, List.head?_cons, Option.bind_some, hkind]
  | fraction hdigit =>
    rw [readSymbol_single fun _ _ => rfl]
    simp [Kind.ofPunctuation?, hdigit]
  | single hkind hpair hdot =>
    rw [readSymbol_single hpair, hkind]
    split
    · rename_i hnone
      cases hnone
    · rename_i he
      cases he
      rw [if_neg]
      simpa [Option.any_eq_true] using hdot rfl
    · rename_i he
      cases he
      rfl

theorem readSymbol_sound {c : Char} {cs : List Char} {p : Piece} (h : readSymbol c cs = .ok p) :
    p.Sound := by
  cases symbol_of_readSymbol h with
  | pair hkind rest => exact Kind.ofPair?_spells hkind
  | fraction hdigit => exact Spells.number (isNumeral_point hdigit)
  | single hkind _ _ => simpa [Sound, mark] using Spells.fixed (Kind.ofPunctuation?_spelling hkind)

/-- The reader takes trivia or spells the token that it gives. -/
theorem read_sound {c : Char} {cs : List Char} {p : Piece} (h : read c cs = .ok p) :
    p.Sound := by
  unfold read at h
  split at h
  · cases h; exact Spells.newline
  · cases h; exact Trivia.blank (by simp) .nil
  · cases h; exact Trivia.blank (by simp) .nil
  · cases h; exact Trivia.blank (by simp) .nil
  · split at h <;> cases h
    rename_i hclose
    obtain ⟨body, hbody, rfl⟩ := closeComment_body hclose
    exact Trivia.comment hbody .nil
  · split at h <;> cases h
    rename_i hclose
    obtain ⟨body, hbody, rfl⟩ := closeString_unescapes hclose
    exact Spells.string hbody
  · split at h <;> cases h
    rename_i hclose
    obtain ⟨body, hbody, rfl⟩ := closeCharacter_unescapes hclose
    exact Spells.character hbody
  · split at h
    · cases h
      exact readWord_sound ‹_› cs
    · split at h
      · cases h
        exact Spells.number (isNumeral_spanNumber ‹_› cs)
      · exact readSymbol_sound h

theorem read_newline_iff {c : Char} {cs : List Char} {p : Piece} {kind : Kind}
    {value : Option String} (h : read c cs = .ok p) (ht : p.token = some (kind, value)) :
    kind = .newline ↔ c = '\n' := by
  have hsound : Spells p.taken kind value := by
    have hs := read_sound h
    rwa [Sound, ht] at hs
  constructor
  · rintro rfl
    have hsplit := read_split h
    rw [hsound.eq_of_newline] at hsplit
    exact (List.cons.inj hsplit).1.symm
  · rintro rfl
    cases h
    cases ht
    rfl

theorem closeComment_append {body : List Char} (hb : '\x7d' ∉ body) (rest : List Char) :
    closeComment (body ++ '\x7d' :: rest) = some (body ++ ['\x7d'], rest) := by
  have hopen : ∀ c ∈ body, decide (c ≠ '\x7d') = true := by
    intro c hc
    exact decide_eq_true fun he => hb (he ▸ hc)
  simp only [closeComment, List.dropWhile_append_of_pos hopen, List.takeWhile_append_of_pos hopen]
  simp

end Piece

theorem takeWhile_append_of_head {p : Char → Bool} {cs tail : List Char} (hcs : ∀ c ∈ cs, p c)
    (ht : ∀ c ∈ tail.head?, p c = false) : (cs ++ tail).takeWhile p = cs := by
  rw [List.takeWhile_append_of_pos hcs]
  cases tail with
  | nil => simp
  | cons c text => simp [ht c rfl]

theorem dropWhile_append_of_head {p : Char → Bool} {cs tail : List Char} (hcs : ∀ c ∈ cs, p c)
    (ht : ∀ c ∈ tail.head?, p c = false) : (cs ++ tail).dropWhile p = tail := by
  rw [List.dropWhile_append_of_pos hcs]
  cases tail with
  | nil => simp
  | cons c text => simp [ht c rfl]

/-- Comments, each with the blanks after it. -/
inductive Commented : List Char → Prop
  | nil : Commented []
  | cons {body blanks text : List Char} (hb : '\x7d' ∉ body) (hs : ∀ c ∈ blanks, Layout.isBlank c)
      (ht : Commented text) : Commented ('\x7b' :: body ++ '\x7d' :: blanks ++ text)

namespace Layout

/-- A text that starts with no blank and no comment. -/
def Bare (text : List Char) : Prop :=
  ∀ c ∈ text.head?, isBlank c = false ∧ c ≠ '\x7b'

theorem trivia_of_blanks {blanks : List Char} (h : ∀ c ∈ blanks, isBlank c) : Trivia blanks := by
  induction blanks with
  | nil => exact .nil
  | cons c blanks ih =>
    have hc : c = ' ' ∨ c = '\t' := by simpa [isBlank] using h c List.mem_cons_self
    exact .blank (by tauto) (ih fun d hd => h d (List.mem_cons_of_mem c hd))

theorem trivia_of_commented {comments : List Char} (h : Commented comments) :
    Trivia comments := by
  induction h with
  | nil => exact .nil
  | cons hb hs _ ih => simpa using Trivia.comment hb ((trivia_of_blanks hs).append ih)

theorem spanComments_sound {cs taken rest : List Char} (hcs : ∀ c ∈ cs.head?, isBlank c = false)
    (h : spanComments cs = .ok (taken, rest)) : Commented taken ∧ Bare rest := by
  fun_induction spanComments cs generalizing taken rest with
  | case1 => cases h
  | case2 => cases h
  | case3 inner body after hclose comment taken' rest' heq =>
    rename_i ih
    cases h
    obtain ⟨text, htext, rfl⟩ := Piece.closeComment_body hclose
    obtain ⟨htaken, hrest⟩ := ih (fun c hc => eq_false_of_head_dropWhile hc) heq
    refine ⟨?_, hrest⟩
    simpa [comment] using Commented.cons htext (fun c hc => List.mem_takeWhile_imp hc) htaken
  | case4 cs hopen =>
    cases h
    refine ⟨.nil, fun c hc => ⟨hcs c hc, ?_⟩⟩
    rintro rfl
    obtain ⟨inner, rfl⟩ := List.head?_eq_some_iff.1 hc
    exact hopen inner rfl

theorem readHead_sound {cs : List Char} {h : Head} (hr : readHead cs = .ok h) :
    (∀ c ∈ h.blanks, isBlank c) ∧ Commented h.comments ∧ Bare h.rest := by
  unfold readHead at hr
  dsimp only at hr
  split at hr <;> cases hr
  rename_i heq
  exact ⟨fun c hc => List.mem_takeWhile_imp hc,
    spanComments_sound (fun c hc => eq_false_of_head_dropWhile hc) heq⟩

theorem trivia_of_readHead {cs : List Char} {h : Head} (hr : readHead cs = .ok h) :
    Trivia (h.blanks ++ h.comments) := by
  obtain ⟨hblank, hcommented, -⟩ := readHead_sound hr
  exact (trivia_of_blanks hblank).append (trivia_of_commented hcommented)

theorem head_commented {comments rest : List Char} (hc : Commented comments) (hr : Bare rest) :
    ∀ c ∈ (comments ++ rest).head?, isBlank c = false := by
  intro c hmem
  cases hc with
  | nil => exact (hr c hmem).1
  | cons _ _ _ =>
    obtain rfl : '\x7b' = c := by simpa using hmem
    rfl

theorem spanComments_append {comments rest : List Char} (hc : Commented comments)
    (hr : Bare rest) : spanComments (comments ++ rest) = .ok (comments, rest) := by
  induction hc with
  | nil =>
    rw [List.nil_append, spanComments.eq_def]
    split
    · exact absurd rfl (hr _ rfl).2
    · rfl
  | @cons body blanks text hb hs ht ih =>
    have hclose := Piece.closeComment_append hb (blanks ++ (text ++ rest))
    have hhead := head_commented ht hr
    have htake := takeWhile_append_of_head hs hhead
    have hdrop := dropWhile_append_of_head hs hhead
    rw [spanComments.eq_def]
    simp only [List.cons_append, List.append_assoc]
    split
    · rename_i hnone
      rw [hclose] at hnone
      cases hnone
    · rename_i taken after hsome
      rw [hclose] at hsome
      cases hsome
      rw [hdrop, ih, htake]
      simp

/-- A line has one head. -/
theorem readHead_append {blanks comments rest : List Char} (hs : ∀ c ∈ blanks, isBlank c)
    (hc : Commented comments) (hr : Bare rest) :
    readHead (blanks ++ comments ++ rest) = .ok ⟨blanks, comments, rest⟩ := by
  have hhead := head_commented hc hr
  rw [List.append_assoc, readHead, takeWhile_append_of_head hs hhead,
    dropWhile_append_of_head hs hhead,
    spanComments_append hc hr]

end Layout

end Offside
