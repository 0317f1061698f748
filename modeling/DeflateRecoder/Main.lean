import DeflateRecoder.CommandLine.Run

/-!
# The program

Runs the command line on the system that the program finds itself on. Nothing is decided here but
how a failure of that system is worded.
-/

namespace DeflateRecoder

/-- The wording of a failure of the system. -/
def systemMessage : IO.Error → String
  | .noFileOrDirectory _ code details | .permissionDenied _ code details
  | .inappropriateType _ code details | .invalidArgument _ code details
  | .resourceExhausted _ code details | .alreadyExists _ code details
  | .interrupted _ code details | .otherError code details | .resourceBusy code details
  | .resourceVanished code details | .unsupportedOperation code details
  | .hardwareFault code details | .unsatisfiedConstraints code details
  | .illegalOperation code details | .protocolError code details | .timeExpired code details
  | .noSuchThing _ code details => s!"{details} (os error {code})"
  | e => toString e

/-- Does something to the system that can fail. -/
def attempt {α : Type} (action : IO α) : IO (Except String α) := do
  try return .ok (← action)
  catch e => return .error (systemMessage e)

/-- The system that the program finds itself on. -/
def systemHost : Host IO where
  readInput := attempt do return (← (← IO.getStdin).readBinToEnd).toList
  readFile path := attempt do return (← IO.FS.readBinFile path).toList
  writeFile path content := attempt (IO.FS.writeBinFile path content.toByteArray)
  print content := do (← IO.getStdout).write content.toByteArray
  report line := IO.eprintln line

end DeflateRecoder

/-- The entry of the program. -/
def main (arguments : List String) : IO UInt32 := do
  let code ← DeflateRecoder.CommandLine.run DeflateRecoder.systemHost arguments
  return code.toUInt32
