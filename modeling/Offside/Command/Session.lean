import Offside.Command.Options
import Offside.Execution.Run
import Offside.Program.Grammar.Declaration
import Offside.Program.Outline
import Offside.Token.Scan

/-!
One use of the command line, from its arguments and its input to what it prints. A failure names
the step that failed and, under it, the cause.
-/
namespace Offside

/-- Why an input cannot be read. -/
inductive ReadFailure where
  | missing
  | isDirectory
  | notDirectory
  | nameTooLong
  | notText
  | other (message : String)
deriving DecidableEq

def ReadFailure.message : ReadFailure → String
  | missing => "No such file or directory (os error 2)"
  | isDirectory => "Is a directory (os error 21)"
  | notDirectory => "Not a directory (os error 20)"
  | nameTooLong => "File name too long (os error 36)"
  | notText => "stream did not contain valid UTF-8"
  | other message => message

inductive Failure where
  | usage (e : UsageError)
  | reading (input : Option String) (cause : ReadFailure)
  | tokenizing (cause : LexicalError)
  | parsing (cause : ParseError)
  | running (cause : Fault)
  | exhausted
deriving DecidableEq

namespace Failure

/-- The step that failed. -/
def step : Failure → String
  | usage e => e.message
  | reading (some path) _ => "Reading " ++ path
  | reading none _ => "Reading stdin"
  | tokenizing _ => "Tokenizing source"
  | parsing _ => "Parsing source"
  | running _ | exhausted => "Running program"

def cause? : Failure → Option String
  | usage _ => none
  | reading _ cause => some cause.message
  | tokenizing cause => some cause.message
  | parsing cause => some cause.message
  | running cause => some cause.message
  | exhausted => some "The budget of steps is used up"

/-- A text whose lines are four blanks in. -/
def indented (text : String) : String :=
  String.ofList (' ' :: ' ' :: ' ' :: ' ' ::
    text.toList.flatMap fun c => if c = '\n' then ['\n', ' ', ' ', ' ', ' '] else [c])

def describe (f : Failure) : String :=
  "Error: " ++ f.step ++
    (match f.cause? with
      | none => ""
      | some cause => "\n\nCaused by:\n" ++ indented cause) ++ "\n"

end Failure

/-- What a use of the command line leaves behind, apart from its log: a log has times in it, and
its form is not settled here. -/
structure Report where
  code : Nat
  stdout : String
  stderr : String
deriving DecidableEq

namespace Session

/-- The line that lists a token. -/
def tokenLine (t : Token) : String :=
  s!"{t.position.line}:{t.position.column} " ++ t.display ++ "\n"

/-- The output of a run as it is printed: followed by a line feed, unless it is empty. -/
def printed (lines : List String) : String :=
  let text := outputText lines
  if text.isEmpty then "" else text ++ "\n"

def failed (f : Failure) : Report := ⟨1, "", f.describe⟩

def runProgram (o : Options) (p : Program) : Report :=
  match Setup.ofProgram p o.constructionCall with
  | .error f => failed (.running f)
  | .ok setup =>
    match (setup.start ampleBudget).1 with
    | .finished lines => ⟨0, printed lines, ""⟩
    | .failed f => failed (.running f)
    | .exhausted => failed .exhausted

/-- Takes a source as far as the options say. -/
def process (o : Options) (source : String) : Report :=
  match tokenize source with
  | .error e => failed (.tokenizing e)
  | .ok tokens =>
    if o.stage = .tokens then ⟨0, String.join (tokens.map tokenLine), ""⟩
    else
      match Program.ofTokens tokens with
      | .error e => failed (.parsing e)
      | .ok p =>
        if o.stage = .outline then ⟨0, p.outline.render "" ++ "\n", ""⟩ else runProgram o p

/-- Answers a use with the given arguments; `read` gives the text of a file, or of the standard
input. -/
def respond (args : List String) (read : Option String → Except ReadFailure String) : Report :=
  match Options.parse args with
  | .error e => failed (.usage e)
  | .ok o =>
    match read o.input with
    | .error cause => failed (.reading o.input cause)
    | .ok source => process o source

end Session

/-- The text that bytes hold. -/
def decodeText (bytes : ByteArray) : Except ReadFailure String :=
  match String.fromUTF8? bytes with
  | some text => .ok text
  | none => .error .notText

end Offside
