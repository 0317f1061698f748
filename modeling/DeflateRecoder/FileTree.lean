/-!
# Files in memory

A `FileTree` holds directories, files and devices under the names that lead to them from the root.
`FileTree.read` and `FileTree.write` follow a path as a system does: from left to right, each name
but the last one having to be a directory, so that the first name that cannot be followed decides
the failure.
-/

namespace DeflateRecoder

/-- Why a file cannot be read or written. -/
inductive FileError
  | notFound | noDevice | notDirectory | isDirectory | noSpace | nameTooLong
  deriving DecidableEq, Repr

namespace FileError

/-- The number of the failure. -/
def code : FileError → Nat
  | notFound => 2
  | noDevice => 19
  | notDirectory => 20
  | isDirectory => 21
  | noSpace => 28
  | nameTooLong => 36

/-- The failure in words. -/
def description : FileError → String
  | notFound => "No such file or directory"
  | noDevice => "No such device"
  | notDirectory => "Not a directory"
  | isDirectory => "Is a directory"
  | noSpace => "No space left on device"
  | nameTooLong => "File name too long"

/-- The wording of the failure, with its number. -/
def message (e : FileError) : String := s!"{e.description} (os error {e.code})"

end FileError

/-- A file without a content of its own. Nothing can be read from it. -/
inductive Device
  /-- Drops what is written to it. -/
  | null
  /-- Has no room for what is written to it. -/
  | full
  /-- Is the standard output. -/
  | output
  /-- Is the standard error. -/
  | errors
  deriving DecidableEq, Repr

/-- What stands under a name. -/
inductive Node
  | directory
  | file (content : List UInt8)
  | device (device : Device)
  deriving DecidableEq, Repr

/-- What stands where. A place is given by the names that lead to it from the root. -/
structure FileTree where
  /-- The places that are taken, the latest entry for a place first. -/
  nodes : List (List String × Node)

namespace FileTree

/-- What stands at a place, if anything does. -/
def node? (t : FileTree) (place : List String) : Option Node := t.nodes.lookup place

/-- Puts something at a place. -/
def insert (t : FileTree) (place : List String) (n : Node) : FileTree :=
  ⟨(place, n) :: t.nodes⟩

/-- The longest name that a directory may hold, in bytes. -/
def maxNameSize : Nat := 255

/-- The longest path, in bytes. -/
def maxPathSize : Nat := 4095

/-- Succeeds at a directory. -/
def expectDirectory (t : FileTree) (place : List String) : Except FileError Unit :=
  match t.node? place with
  | some .directory => .ok ()
  | some _ => .error .notDirectory
  | none => .error .notFound

/-- Where names lead from a place. An empty name and a dot stay there, two dots lead to the directory
above, and the root is above itself. Each name is looked up in a directory, but nothing need stand
where the last one leads. -/
def follow (t : FileTree) (place : List String) : List String → Except FileError (List String)
  | [] => .ok place
  | name :: rest => do
    t.expectDirectory place
    if name = "" ∨ name = "." then t.follow place rest
    else if name = ".." then t.follow place.dropLast rest
    else if maxNameSize < name.utf8ByteSize then .error .nameTooLong
    else t.follow (place ++ [name]) rest

/-- The names that a path is made of; a path that starts at the root starts with an empty one. -/
def pathNames (path : String) : List String :=
  (path.toList.splitOn '/').map String.ofList

/-- The place where a path starts. -/
def start (current : List String) (path : String) : List String :=
  if path.startsWith "/" then [] else current

/-- The content of the file at the end of a path. Devices have none, and that of a directory cannot
be had. -/
def read (t : FileTree) (current : List String) (path : String) :
    Except FileError (List UInt8) := do
  if maxPathSize < path.utf8ByteSize then .error .nameTooLong
  match t.node? (← t.follow (start current path) (pathNames path)) with
  | some (.file content) => .ok content
  | some (.device _) => .ok []
  | some .directory => .error .noDevice
  | none => .error .notFound

/-- What becomes of content that is written. -/
inductive Written
  /-- It is in the tree. -/
  | stored (tree : FileTree)
  /-- It went to a device. -/
  | sent (device : Device)

/-- Writes a file at the end of a path. The path without its last name must lead to a directory; a
path that can only end at a directory is no file's. -/
def write (t : FileTree) (current : List String) (path : String) (content : List UInt8) :
    Except FileError Written := do
  if maxPathSize < path.utf8ByteSize then .error .nameTooLong
  let names := pathNames path
  let named := (names.reverse.dropWhile (· = "")).reverse
  let parent ← t.follow (start current path) named.dropLast
  t.expectDirectory parent
  let name := named.getLastD ""
  if name ∈ ["", ".", ".."] ∨ names.getLast? = some "" then .error .isDirectory
  let place ← t.follow parent [name]
  match t.node? place with
  | some .directory => .error .isDirectory
  | some (.device .full) => if content.isEmpty then .ok (.sent .full) else .error .noSpace
  | some (.device d) => .ok (.sent d)
  | some (.file _) | none => .ok (.stored (t.insert place (.file content)))

end FileTree

end DeflateRecoder
