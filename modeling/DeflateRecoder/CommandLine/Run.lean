import DeflateRecoder.CommandLine.Arguments
import DeflateRecoder.Host
import DeflateRecoder.Optimise.Recoding

/-!
# Runs of the command line

`respond` says what the program writes where for given options and input, and `run` does what the
arguments ask for on any `Host`.
-/

namespace DeflateRecoder.CommandLine

/-! ## Answers -/

/-- What the program writes when all goes well, and how it ends. -/
structure Response where
  /-- The exit code. -/
  code : UInt8
  /-- What goes to the standard output. -/
  stdout : List UInt8 := []
  /-- The lines of the log, which goes to the standard error. -/
  log : List (Level × String) := []
  /-- The file to write, and its content. -/
  file : Option (String × List UInt8) := none
  /-- The lines that go to the standard error in the end. -/
  stderr : List String := []

/-- The answer to a failure of this wording. -/
def Response.failure (message : String) : Response :=
  { code := 2, stderr := [s!"Error: {message}"] }

/-- The answer to arguments that make no sense. -/
def Response.refused : Response :=
  { code := 2, stderr := ["error: the arguments make no sense"] }

/-- The bytes of a text. -/
def textBytes (text : String) : List UInt8 := text.toUTF8.toList

/-- The answer to the question for the version. -/
def Response.version : Response :=
  { code := 0, stdout := textBytes "redeflate 0.1.0\n" }

/-- The most detailed events that the log shows. -/
def Options.level (o : Options) : Level :=
  match o.verbosity with
  | 0 => .warn
  | 1 => .debug
  | _ => .trace

/-- The listing of the blocks of a stream. -/
def listing (s : Stream) : List String :=
  s.layout.map (·.line)
    ++ [s!"{s.length} blocks, {s.bitSize} bits, {s.bytes.length} bytes uncompressed"]

/-- Lists the blocks of the input. -/
def respondCheck (o : Options) (input : List UInt8) : Response :=
  match Stream.parse "" input with
  | .error e => .failure e.message
  | .ok s =>
    { code := 0
      stdout := textBytes (String.join ((listing s).map (· ++ "\n")))
      log := logLines o.level o.input [s.parsedEvent] }

/-- Recodes the input for the given output. -/
def respondRecode (o : Options) (output : String) (input : List UInt8) : Response :=
  let r := recode o.config input
  let summary := s!"{o.input}: {input.length} -> {r.bytes.length} bytes, saved {r.stats.saved} bits (input)"
  let log := logLines o.level o.input r.events
  if output = "-" then { code := 0, stdout := r.bytes, log, stderr := [summary] }
  else { code := 0, log, file := some (output, r.bytes), stderr := [summary] }

/-- What the program does with the bytes of its input. -/
def respond (o : Options) (input : List UInt8) : Response :=
  match o.check, o.output with
  | false, some output => respondRecode o output input
  | _, _ => respondCheck o input

/-! ## Runs -/

section Run

variable {m : Type → Type} [Monad m]

/-- Reports the last lines of an answer; the run ends with its exit code. -/
def Response.finish (host : Host m) (r : Response) : m UInt8 := do
  r.stderr.forM host.report
  return r.code

/-- Writes an answer, and returns the exit code. If the file cannot be written, the failure is
reported in place of the last lines. -/
def Response.deliver (host : Host m) (r : Response) : m UInt8 := do
  r.log.forM fun (level, message) => host.report s!"[{level.name}] {message}"
  host.print r.stdout
  match r.file with
  | none => r.finish host
  | some (path, content) =>
    match ← host.writeFile path content with
    | .ok () => r.finish host
    | .error message => (Response.failure message).finish host

/-- Does what the options ask for. -/
def Options.run (host : Host m) (o : Options) : m UInt8 := do
  match ← if o.input = "-" then host.readInput else host.readFile o.input with
  | .ok input => (respond o input).deliver host
  | .error message => (Response.failure message).deliver host

/-- Does what the arguments ask for, and returns the exit code. -/
def run (host : Host m) (arguments : List String) : m UInt8 :=
  match parseArguments arguments with
  | .run options => options.run host
  | .version => Response.version.deliver host
  | .refused => Response.refused.deliver host

end Run

end DeflateRecoder.CommandLine
