import DeflateRecoder.Bits.Progress
import DeflateRecoder.Bits.Writer

/-!
# Stored blocks

A stored block holds bytes as they are, behind their number and its complement, each a 16-bit
number at a byte boundary. The bits before that boundary belong to the block, so its size depends
on where it starts (`StoredBlock.bitSize`).
-/

namespace DeflateRecoder

/-- The most bytes a stored block can hold. -/
def maxStoredLength : Nat := 65535

/-- A block of bytes that are not encoded. -/
structure StoredBlock where
  /-- The bytes. -/
  bytes : List UInt8
  length_le : bytes.length ≤ maxStoredLength
  deriving DecidableEq, Repr

namespace StoredBlock

/-- The block of the given bytes, if they are not too many. -/
def ofBytes (bytes : List UInt8) : Except Error StoredBlock :=
  if h : bytes.length ≤ maxStoredLength then .ok ⟨bytes, h⟩ else .error (.storedTooLarge bytes.length)

/-- The size in bits of a block whose body starts at bit `position`. -/
def bitSize (b : StoredBlock) (position : Nat) : Nat :=
  (b.bytes.length + 4) * 8 + (8 - position % 8) % 8

/-- Writes the body of the block. -/
def write (b : StoredBlock) (w : BitWriter) : BitWriter :=
  ((w.writeWord b.bytes.length).writeWord (maxStoredLength - b.bytes.length)).writeBytes b.bytes

/-- Two blocks as one, if that can hold their bytes. -/
def append? (a b : StoredBlock) : Option StoredBlock :=
  (ofBytes (a.bytes ++ b.bytes)).toOption

/-- Reads the length of a block and its complement. -/
def readLength : Parser Nat := do
  let length ← BitReader.readWord
  let complement ← BitReader.readWord
  if length + complement = maxStoredLength then pure length
  else throw (.storedLengthMismatch length complement)

/-- Reads the body of a block of the given kind, which has to be a stored one. -/
def read (kind : BlockKind) : Parser StoredBlock :=
  if kind = .stored then do
    let length ← readLength
    let bytes ← BitReader.readBytes length
    Parser.ofExcept (ofBytes bytes)
  else throw (.internal (.notStored kind))

/-- The length of a stored block and its complement give no bits back. -/
theorem readLength_consumes : readLength.Consumes 0 :=
  .bind_right (.of_le .readWord (Nat.zero_le _)) fun _ =>
    .bind_right (.of_le .readWord (Nat.zero_le _)) fun _ => .ite (.pure _) (.throw _)

/-- The body of a stored block gives no bits back. -/
theorem read_consumes (kind : BlockKind) : (read kind).Consumes 0 :=
  .ite (.bind readLength_consumes fun _ => .bind (.readBytes _) fun _ => .ofExcept _) (.throw _)

end StoredBlock

end DeflateRecoder
