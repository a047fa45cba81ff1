import Offside.Token.Basic

/-!
What is wrong with a token list that is no program. A refusal keeps the tokens from the offending
one on; an error adds the place, which for the end of the input is that of the last token.
-/
namespace Offside

inductive Complaint where
  /-- Something else should stand here. -/
  | expected (what : String)
  /-- A group directly inside a group. -/
  | nestedGroup
deriving DecidableEq

structure Refusal where
  complaint : Complaint
  rest : List Token
deriving DecidableEq

structure ParseError where
  complaint : Complaint
  found : Option Token
  position : Position
deriving DecidableEq

/-- The place of the first of the tokens that are left, of the last token once none is left, and
of the start of the text if there never was one. -/
def currentPosition (whole rest : List Token) : Position :=
  match rest.head?.or whole.getLast? with
  | some t => t.position
  | none => Position.start

def Refusal.toError (whole : List Token) (r : Refusal) : ParseError :=
  ⟨r.complaint, r.rest.head?, currentPosition whole r.rest⟩

def ParseError.message (e : ParseError) : String :=
  let what :=
    match e.complaint with
    | .expected what =>
      "Expected " ++ what ++ ", got " ++ (e.found.map Token.display).getD "end of input"
    | .nestedGroup => "Nested parentheses are not supported"
  what ++ " at " ++ e.position.describe

end Offside
