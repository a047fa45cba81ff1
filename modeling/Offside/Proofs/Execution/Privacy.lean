import Offside.Proofs.Execution.Moment

/-!
Who can start a private method. The journal of a run names every body that was entered, with what
made it start and the class whose code was running. No call with a receiver starts a private method,
and neither does the run itself; but a new object's own call takes no notice of privacy.
-/
namespace Offside

/-- Every body that a run enters was picked as its route says. -/
def lawfulJournal (s : Setup) : Invariant s where
  world w := ∀ e ∈ w.journal, e.Legit s
  later _ _ := True
  value _ _ := True
  owner _ _ _ := True
  event e := e.Legit s
  refl _ := trivial
  trans _ _ := trivial
  value_later _ _ := trivial
  owner_later _ _ := trivial
  plain _ := trivial
  member _ _ _ := trivial
  self _ := trivial
  receiver _ _ _ _ := trivial
  shared _ := trivial
  legit he := he
  record hw he := ⟨List.forall_mem_cons.2 ⟨he, hw⟩, trivial⟩
  print _ hw := ⟨hw, trivial⟩
  setMember hw _ _ _ := ⟨hw, trivial⟩
  alloc hw _ _ _ := ⟨hw, trivial, trivial⟩

theorem Setup.legit_of_mem_journal {s : Setup} {budget : Nat} {e : Event}
    (he : e ∈ (s.start budget).2.journal) : e.Legit s := by
  obtain ⟨ds, hmoment⟩ := s.exists_moment_end budget
  have hstart : (lawfulJournal s).world .start := fun e he => absurd he List.not_mem_nil
  exact (hmoment.good hstart).1 e he

theorem Class.mem_candidates_of_resolve {c : Class} {standing : Standing} {name : String}
    {args : List Value} {m : Method} (h : c.resolve standing name args = .ok m) :
    m ∈ c.candidates standing name := by
  unfold resolve at h
  split at h
  · cases h
  · rename_i first others hcandidates
    split at h
    · cases h
      rename_i hfind
      exact hcandidates ▸ List.mem_of_find?_eq_some hfind
    · split at h <;> cases h

theorem Class.mem_of_resolve {c : Class} {standing : Standing} {name : String} {args : List Value}
    {m : Method} (h : c.resolve standing name args = .ok m) :
    m ∈ c.methods ∧ standing.admits m = true := by
  obtain ⟨hmethods, hadmits⟩ := List.mem_filter.1 (mem_candidates_of_resolve h)
  exact ⟨hmethods, (Bool.and_eq_true_iff.1 hadmits).2⟩

theorem Class.name_of_resolve {c : Class} {standing : Standing} {name : String} {args : List Value}
    {m : Method} (h : c.resolve standing name args = .ok m) : m.name = name := by
  obtain ⟨-, hname⟩ := List.mem_filter.1 (mem_candidates_of_resolve h)
  exact beq_iff_eq.1 (Bool.and_eq_true_iff.1 hname).1

theorem Standing.eq_own_of_admits {standing : Standing} {m : Method}
    (h : standing.admits m = true) (hp : m.isPrivate = true) : standing = .own := by
  cases standing with
  | own => rfl
  | object | shared => simp [admits, hp] at h

theorem Context.not_private_of_entry {ctx : Context} {cls : Class} {m : Method}
    (h : ctx.entry? = some (cls, m)) : m.isPrivate = false := by
  have hentry := List.find?_some (mem_of_entry h).2
  simp only [Method.isEntry, Bool.and_eq_true, Bool.not_eq_true'] at hentry
  exact hentry.1.2

/-- A private method was called without a receiver by its own class, or is the method that a new
object of its class calls, in runs in which new objects call one, or gave a loop an item. -/
theorem private_invocations {p : Program} {constructionCall : Bool} {s : Setup}
    (hs : Setup.ofProgram p constructionCall = .ok s) (budget : Nat)
    {route : Route} {cls : Class} {m : Method} {k : Nat}
    (he : .invoked route cls m k ∈ (s.start budget).2.journal) (hp : m.isPrivate = true) :
    m ∈ cls.methods ∧ (route = .call .own cls ∨
      (constructionCall = true ∧ ∃ caller args, route = .construction caller ∧
        cls.constructionMethod? args = some m ∧ args.length = k) ∨
      ∃ caller, route = .iterator caller ∧ cls.iterator? = some m ∧ k = 0) := by
  have hlegit := Setup.legit_of_mem_journal he
  cases route with
  | entry =>
    rw [Context.not_private_of_entry hlegit.1] at hp
    cases hp
  | call standing caller =>
    obtain ⟨hown, name, args, hresolve, -⟩ := hlegit
    obtain ⟨hmem, hadmits⟩ := Class.mem_of_resolve hresolve
    have hstanding := Standing.eq_own_of_admits hadmits hp
    refine ⟨hmem, .inl ?_⟩
    rw [hstanding, hown hstanding]
  | iterator caller =>
    obtain ⟨hm, hk⟩ := hlegit
    exact ⟨List.mem_of_find?_eq_some hm, .inr (.inr ⟨caller, rfl, hm, hk⟩)⟩
  | construction caller =>
    obtain ⟨hcall, args, hm, hk⟩ := hlegit
    rw [(Setup.of_ofProgram hs).2] at hcall
    exact ⟨List.mem_of_find?_eq_some hm, .inr (.inl ⟨hcall, caller, args, rfl, hm, hk⟩)⟩

namespace Privacy

def method (name : String) (isShared isPrivate : Bool) (returns locals : List Declaration)
    (body : List Stmt) : Method :=
  ⟨name, isShared, isPrivate, false, [], returns, locals, .statements body⟩

def say (text : String) : Stmt := .call [] ⟨some "console", "write", [.string text]⟩

def secret : Method := method "secret" false true [] [] [say "leak"]

def vault : Class := ⟨"Vault", [], [], [], [secret]⟩

def vaultUser : Class :=
  ⟨"Main", [], [], [], [method "start" true false [] [⟨"Vault", "v"⟩]
    [.assign "v" (.construct "Vault" []), say "done"]]⟩

def vaultSetup : Setup := ⟨⟨[vault, vaultUser, consoleClass]⟩, true⟩

def next : Method :=
  method "getNext" false true [⟨"boolean", "more"⟩, ⟨"string", "item"⟩] []
    [.assign "more" (.boolean false), .assign "item" (.string "")]

def cursor : Class := ⟨"Cursor", [], [], [], [next]⟩

def cursorUser : Class :=
  ⟨"Main", [], [], [], [method "start" true false [] [⟨"Cursor", "c"⟩]
    [.assign "c" (.construct "Cursor" []), .loop none (.var "c") [say "item"], say "done"]]⟩

def cursorSetup : Setup := ⟨⟨[cursor, cursorUser, consoleClass]⟩, false⟩

theorem secret_mem_journal :
    .invoked (.construction vaultUser) vault secret 0 ∈ (vaultSetup.start 12).2.journal := by
  have hjournal : ∃ a b c, (vaultSetup.start 12).2.journal =
      [a, b, .invoked (.construction vaultUser) vault secret 0, c] := ⟨_, _, _, rfl⟩
  obtain ⟨a, b, c, hjournal⟩ := hjournal
  simp [hjournal]

theorem next_mem_journal :
    .invoked (.iterator cursorUser) cursor next 0 ∈ (cursorSetup.start 12).2.journal := by
  have hjournal : ∃ a b, (cursorSetup.start 12).2.journal =
      [a, .invoked (.iterator cursorUser) cursor next 0, b] := ⟨_, _, rfl⟩
  obtain ⟨a, b, hjournal⟩ := hjournal
  simp [hjournal]

end Privacy

open Privacy in
theorem private_invocations_vault :
    .invoked (.construction vaultUser) vault secret 0 ∈ (vaultSetup.start 12).2.journal ∧
      secret.isPrivate = true ∧ secret ∈ vault.methods ∧
      vault.constructionMethod? [] = some secret := by
  obtain ⟨hmem, hroute⟩ := private_invocations (p := ⟨[vault, vaultUser], []⟩) (s := vaultSetup)
    rfl 12 secret_mem_journal rfl
  refine ⟨secret_mem_journal, rfl, hmem, ?_⟩
  rcases hroute with hcall | ⟨-, caller, args, -, hmethod, hlength⟩ | ⟨caller, hiterator, -⟩
  · cases hcall
  · rw [List.length_eq_zero_iff.1 hlength] at hmethod
    exact hmethod
  · cases hiterator

open Privacy in
/-- The code of one class starts a private method of another: by making an object, and, where new
objects call no method, by a loop. -/
theorem private_invoked_from_outside :
    (Setup.ofProgram ⟨[vault, vaultUser], []⟩ true = .ok vaultSetup ∧ secret.isPrivate = true ∧
      vault.name ≠ vaultUser.name ∧
      .invoked (.construction vaultUser) vault secret 0 ∈ (vaultSetup.start 12).2.journal) ∧
    Setup.ofProgram ⟨[cursor, cursorUser], []⟩ false = .ok cursorSetup ∧ next.isPrivate = true ∧
      cursor.name ≠ cursorUser.name ∧
      .invoked (.iterator cursorUser) cursor next 0 ∈ (cursorSetup.start 12).2.journal :=
  ⟨⟨rfl, rfl, by decide, secret_mem_journal⟩, rfl, rfl, by decide, next_mem_journal⟩

end Offside
