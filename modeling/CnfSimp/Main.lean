import CnfSimp.CommandLine.Session

/-!
# The program

Reads the arguments and the input file, runs the session, prints its output and error, and exits with its code.
-/

namespace CnfSimp.Session

/-- The content of a file, or why it cannot be read. -/
def readFile (path : String) : IO (Except ReadError ByteArray) := do
  try
    return .ok (← IO.FS.readBinFile path)
  catch
    | .noFileOrDirectory .. => return .error .missing
    | .inappropriateType _ code _ => return .error (if code = 20 then .notDirectory else .isDirectory)
    | e => return .error (.other (toString e))

end CnfSimp.Session

open CnfSimp in
/-- Runs the command line. -/
def main (args : List String) : IO UInt32 := do
  let request := Arguments.parse args
  let content ← match request.bind Request.input with
    | some path => Session.readFile path
    | none => pure (.error .missing)
  let outcome := Session.respond request content
  IO.print outcome.output
  if let some message := outcome.error then
    IO.eprintln message
  return .ofNat outcome.exit
