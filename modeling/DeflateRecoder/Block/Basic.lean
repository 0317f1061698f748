import DeflateRecoder.Block.Coded.Reading
import DeflateRecoder.Block.Coded.Tables

/-!
# Blocks

A `Block` is a stored or a coded block. Sizes and writing leave out the three bits that open every
block, which are the stream's affair.
-/

namespace DeflateRecoder

/-- The bits that open every block: a mark of the last one, and the kind. -/
def openingBits : Nat := 3

/-- A block of either sort. -/
inductive Block
  /-- Bytes as they are. -/
  | stored (block : StoredBlock)
  /-- Tokens under two tables. -/
  | coded (block : CodedBlock)
  deriving DecidableEq, Repr

namespace Block

/-- The kind that announces the block. -/
def kind : Block → BlockKind
  | stored _ => .stored
  | coded b => b.kind

/-- The bytes that the block stands for. -/
def bytes : Block → List UInt8
  | stored b => b.bytes
  | coded b => b.bytes

/-- The block stands for no bytes. -/
def isEmpty (b : Block) : Bool := b.bytes.isEmpty

/-- The size in bits of a block whose body starts at bit `position`. -/
def bitSize (position : Nat) : Block → Nat
  | stored b => b.bitSize position
  | coded b => b.bitSize

/-- Makes the block smaller without new tables. Returns the bits saved as well. -/
def tidy : Block → Block × Nat
  | stored b => (stored b, 0)
  | coded b => (coded b.tidy.1, b.tidy.2)

/-- Writes the body of the block. -/
def write (w : BitWriter) : Block → Except Error BitWriter
  | stored b => .ok (b.write w)
  | coded b => b.write w

/-- Reads the body of a block of the given kind behind the bytes of a window. -/
def read (kind : BlockKind) (window : Window) : Parser Block :=
  match kind with
  | .stored => do
    let b ← StoredBlock.read kind
    return stored b
  | _ => do
    let b ← CodedBlock.read kind window
    return coded b

/-- The body of a block gives no bits back. That a block takes some is due to the bits that open
it. -/
theorem read_consumes (kind : BlockKind) (window : Window) : (read kind window).Consumes 0 := by
  unfold read
  split
  · exact .bind_left (StoredBlock.read_consumes _) fun _ => .pure _
  · exact .bind_left (CodedBlock.read_consumes _ _) fun _ => .pure _

/-! ## Ends -/

/-- The bit at which a block ends that opens at bit `position`. -/
def endOf (position : Nat) (b : Block) : Nat :=
  position + openingBits + b.bitSize (position + openingBits)

/-- A block that opens earlier does not end later: padding never takes more than it was moved
by. -/
theorem endOf_mono {p q : Nat} (h : p ≤ q) (b : Block) : b.endOf p ≤ b.endOf q := by
  cases b with
  | stored b => simp only [endOf, bitSize, StoredBlock.bitSize]; omega
  | coded b => simp only [endOf, bitSize]; omega

end Block

end DeflateRecoder
