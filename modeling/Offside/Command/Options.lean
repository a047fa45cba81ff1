/-!
The options of the command line. Arguments are read from the left and the first bad one decides;
whatever is no option is the input file.
-/
namespace Offside

/-- How far a source is taken. -/
inductive Stage where
  | tokens | outline | run
deriving DecidableEq

def Stage.ofName? : String → Option Stage
  | "tokens" => some .tokens
  | "ast" => some .outline
  | "run" => some .run
  | _ => none

inductive UsageError where
  | missingStage (option : String)
  | unknownStage (name : String)
  | secondInput
deriving DecidableEq

def UsageError.message : UsageError → String
  | missingStage option => "Missing stage after " ++ option
  | unknownStage name => "Unknown emit stage '" ++ name ++ "', expected tokens, ast or run"
  | secondInput => "Only one input file is supported"

structure Options where
  stage : Stage
  /-- How much the log tells. -/
  verbosity : Nat
  constructionCall : Bool
  input : Option String
deriving DecidableEq

namespace Options

def default : Options := ⟨.run, 0, true, none⟩

/-- The options that the arguments ask for, on top of given ones. -/
def extend (o : Options) : List String → Except UsageError Options
  | [] => .ok o
  | "--emit" :: [] => .error (.missingStage "--emit")
  | "-e" :: [] => .error (.missingStage "-e")
  | "--emit" :: name :: rest | "-e" :: name :: rest =>
    match Stage.ofName? name with
    | some stage => extend { o with stage } rest
    | none => .error (.unknownStage name)
  | "-v" :: rest => extend { o with verbosity := max o.verbosity 1 } rest
  | "-vv" :: rest => extend { o with verbosity := 2 } rest
  | "--no-construction-call" :: rest => extend { o with constructionCall := false } rest
  | path :: rest =>
    match o.input with
    | some _ => .error .secondInput
    | none => extend { o with input := some path } rest

def parse (args : List String) : Except UsageError Options := default.extend args

end Options

end Offside
