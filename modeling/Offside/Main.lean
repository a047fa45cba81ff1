import Offside.Command.Session

/-!
The command line: reads the arguments and the input, prints the report.
-/
namespace Offside

/-- The failure behind an error of the system. -/
def ReadFailure.ofError : IO.Error → ReadFailure
  | .noFileOrDirectory .. => .missing
  | .inappropriateType _ code _ => if code = 21 then .isDirectory else .notDirectory
  | .invalidArgument (some _) .. => .nameTooLong
  | e => .other (toString e)

/-- Every byte of a stream. -/
partial def readAll (input : IO.FS.Stream) (done : ByteArray) : IO ByteArray := do
  let chunk ← input.read 65536
  if chunk.isEmpty then return done else readAll input (done ++ chunk)

/-- The text of a file, or of the standard input. -/
def readInput : Option String → IO (Except ReadFailure String)
  | some path => do
    try return decodeText (← IO.FS.readBinFile path)
    catch e => return .error (.ofError e)
  | none => do
    try return decodeText (← readAll (← IO.getStdin) .empty)
    catch e => return .error (.ofError e)

end Offside

open Offside in
def main (args : List String) : IO UInt32 := do
  let source ←
    match Options.parse args with
    | .ok o => readInput o.input
    | .error _ => pure (.ok "")
  let report := Session.respond args fun _ => source
  IO.print report.stdout
  IO.eprint report.stderr
  return report.code.toUInt32
