import DeflateRecoder.FileTree
import DeflateRecoder.Host

/-!
# A host in memory

A `Session` is all that a run of the program can read and all that it has written, so that a run on
`Session.host` is a function from one session to the next.
-/

namespace DeflateRecoder

/-- The surroundings of a run. -/
structure Session where
  /-- The files. -/
  files : FileTree
  /-- The directory where relative paths start. -/
  current : List String
  /-- What the standard input gives. -/
  stdin : List UInt8
  /-- What the standard output has been given. -/
  stdout : Array UInt8 := #[]
  /-- What the standard error has been given. -/
  stderr : Array UInt8 := #[]

namespace Session

/-- Writes to the standard output. -/
def print (s : Session) (content : List UInt8) : Session :=
  { s with stdout := s.stdout.appendList content }

/-- Writes to the standard error. -/
def printError (s : Session) (content : List UInt8) : Session :=
  { s with stderr := s.stderr.appendList content }

/-- The content of a file. -/
def readFile (s : Session) (path : String) : Except FileError (List UInt8) :=
  s.files.read s.current path

/-- Writes a file, or to the device that the path leads to. -/
def writeFile (s : Session) (path : String) (content : List UInt8) :
    Except FileError Session := do
  match ← s.files.write s.current path content with
  | .stored files => return { s with files }
  | .sent .output => return s.print content
  | .sent .errors => return s.printError content
  | .sent .null | .sent .full => return s

/-- The host whose system is the session. -/
def host : Host (StateM Session) where
  readInput := do return .ok (← get).stdin
  readFile path := do return ((← get).readFile path).mapError (·.message)
  writeFile path content := do
    match (← get).writeFile path content with
    | .ok s =>
      set s
      return .ok ()
    | .error e => return .error e.message
  print content := modify (·.print content)
  report line := modify (·.printError (line ++ "\n").toUTF8.toList)

end Session

end DeflateRecoder
