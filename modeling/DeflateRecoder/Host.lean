/-!
# What the program asks of the system

The program reads and writes only through a `Host`, in whatever monad the host works. A failure of
the system is given by its wording, which the program passes on.
-/

namespace DeflateRecoder

/-- What the program may ask of the system it runs on. -/
structure Host (m : Type → Type) where
  /-- All that comes from the standard input. -/
  readInput : m (Except String (List UInt8))
  /-- The content of a file. -/
  readFile : (path : String) → m (Except String (List UInt8))
  /-- Makes a file hold this content and nothing else. -/
  writeFile : (path : String) → (content : List UInt8) → m (Except String Unit)
  /-- Writes to the standard output. -/
  print : (content : List UInt8) → m Unit
  /-- Writes a line to the standard error. -/
  report : (line : String) → m Unit

end DeflateRecoder
