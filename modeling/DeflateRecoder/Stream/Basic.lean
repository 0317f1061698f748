import DeflateRecoder.Block.Basic

/-!
# Streams

A `Stream` is a sequence of blocks, the last of which is marked as such when the stream is written.
Every block has a handle (`BlockId`) that stays with it whatever happens to the other blocks;
the handle of a removed block is never given out again.

Blocks follow each other without gaps, so where a block starts is the size of those before it
(`Stream.layout`).
-/

namespace DeflateRecoder

/-- The handle of a block in a stream. -/
structure BlockId where
  /-- How many blocks were added before this one. -/
  index : Nat
  deriving DecidableEq, Repr

/-- A block in its place. -/
structure Entry where
  /-- The handle of the block. -/
  id : BlockId
  /-- The block. -/
  block : Block
  deriving Repr

/-- A sequence of blocks with handles. -/
structure Stream where
  /-- The blocks in order. -/
  entries : List Entry
  /-- How many handles have been given out. -/
  issued : Nat
  /-- What the stream is called in messages. -/
  name : String
  deriving Repr

/-- What a listing tells about a block. -/
structure BlockInfo where
  /-- The place of the block in the stream. -/
  index : Nat
  /-- The bit at which the block opens. -/
  position : Nat
  /-- The size of the block in bits, with the bits that open it. -/
  bitSize : Nat
  /-- The kind of the block. -/
  kind : BlockKind
  /-- How many bytes the block stands for. -/
  byteCount : Nat
  deriving DecidableEq, Repr

namespace Stream

/-- A stream without blocks and without a name. -/
def empty : Stream := ⟨[], 0, ""⟩

/-- The blocks in order. -/
def blocks (s : Stream) : List Block := s.entries.map (·.block)

/-- The number of blocks. -/
def length (s : Stream) : Nat := s.entries.length

/-! ## Handles -/

/-- The block of a handle. -/
def get? (s : Stream) (id : BlockId) : Option Block :=
  (s.entries.find? (·.id = id)).map (·.block)

/-- The handle of the first block. -/
def first? (s : Stream) : Option BlockId := s.entries.head?.map (·.id)

/-- The handle of the last block. -/
def last? (s : Stream) : Option BlockId := s.entries.getLast?.map (·.id)

/-- The handle of the block behind that of a handle. -/
def next? (s : Stream) (id : BlockId) : Option BlockId :=
  ((s.entries.dropWhile (·.id ≠ id)).drop 1).head?.map (·.id)

/-- The handle of the block in front of that of a handle. -/
def prev? (s : Stream) (id : BlockId) : Option BlockId :=
  ((s.entries.reverse.dropWhile (·.id ≠ id)).drop 1).head?.map (·.id)

/-- Adds a block at the end. Returns its handle as well. -/
def push (s : Stream) (block : Block) : BlockId × Stream :=
  let id : BlockId := ⟨s.issued⟩
  (id, { s with entries := s.entries ++ [⟨id, block⟩], issued := s.issued + 1 })

/-- Puts a block in the place of another. Returns the other one as well. -/
def replace? (s : Stream) (id : BlockId) (block : Block) : Option (Block × Stream) :=
  (s.get? id).map fun old =>
    (old, { s with entries := s.entries.map fun e => if e.id = id then ⟨id, block⟩ else e })

/-- Takes a block out. Returns it as well. -/
def remove? (s : Stream) (id : BlockId) : Option (Block × Stream) :=
  (s.get? id).map fun old => (old, { s with entries := s.entries.filter (·.id ≠ id) })

/-- The stream of the given blocks. -/
def ofBlocks (name : String) (blocks : List Block) : Stream :=
  ⟨blocks.zipIdx.map fun (block, i) => ⟨⟨i⟩, block⟩, blocks.length, name⟩

/-! ## Content and size -/

/-- The bytes that the stream stands for. -/
def bytes (s : Stream) : List UInt8 := s.blocks.flatMap (·.bytes)

/-- The bit at which blocks end that start at bit `position`. -/
def endOfBlocks (position : Nat) (blocks : List Block) : Nat :=
  blocks.foldl (fun position block => block.endOf position) position

/-- The size of the stream in bits. -/
def bitSize (s : Stream) : Nat := endOfBlocks 0 s.blocks

/-- What is told about blocks, of which the first has the given index and opens at the given
bit. -/
def layoutFrom : Nat → Nat → List Block → List BlockInfo
  | _, _, [] => []
  | index, position, block :: rest =>
    let stop := block.endOf position
    ⟨index, position, stop - position, block.kind, block.bytes.length⟩ ::
      layoutFrom (index + 1) stop rest

/-- What is told about the blocks of the stream. -/
def layout (s : Stream) : List BlockInfo := layoutFrom 0 0 s.blocks

/-! ## Writing -/

/-- Writes blocks, the last of them marked. -/
def writeBlocks : List Block → BitWriter → Except Error BitWriter
  | [], w => .ok w
  | block :: rest, w => do
    let w ← block.write ((w.writeBit rest.isEmpty).writeBits 2 block.kind.code)
    writeBlocks rest w

/-- The bytes of the stream. A stream without blocks has no encoding. -/
def write (s : Stream) : Except Error (List UInt8) :=
  if s.entries.isEmpty then .error .emptyStream
  else (writeBlocks s.blocks BitWriter.empty).map (·.finish)

/-! ## Reading -/

/-- Reads a block behind the bytes of a window, and whether it is the last one. The block is only
given what matches can reach. -/
def readBlock (window : Window) : Parser (Block × Bool) := do
  let last ← BitReader.readBit
  let code ← BitReader.readBits 2
  match BlockKind.ofCode? code with
  | none => throw (.invalidBlockKind code)
  | some kind =>
    let block ← Block.read kind window.nearest
    return (block, last)

/-- A block takes a bit or more. -/
theorem readBlock_consumes (window : Window) : (readBlock window).Consumes 1 := by
  refine .bind_left .readBit fun last => .bind_left (.of_le (.readBits 2) (Nat.zero_le _))
    fun code => ?_
  split
  · exact .throw _
  · exact .bind_left (Block.read_consumes _ _) fun _ => .pure _

/-- Reads blocks up to the last one. `before` holds the blocks so far, the newest first, and `window`
their bytes. -/
def readBlocks (window : Window) (before : List Block) : Parser (List Block) := fun r =>
  match _ : readBlock window r with
  | .error e r => .error e r
  | .ok (block, true) r => .ok (block :: before).reverse r
  | .ok (block, false) r => readBlocks (window.pushNewer block.bytes.toArray) (block :: before) r
termination_by r => r.remaining
decreasing_by exact readBlock_consumes _ ‹_›

/-- The stream that bytes encode. What follows its last block is ignored. -/
def parse (name : String) (bytes : List UInt8) : Except Error Stream :=
  match readBlocks Window.empty [] (BitReader.ofBytes bytes) with
  | .ok blocks _ => .ok (ofBlocks name blocks)
  | .error e _ => .error e

/-- The size in bits of the stream that bytes encode, or of the bytes themselves if they encode
none. -/
def bitSizeOfBytes (bytes : List UInt8) : Nat :=
  match parse "" bytes with
  | .ok s => s.bitSize
  | .error _ => 8 * bytes.length

end Stream

/-- Pads a text on the left with blanks. -/
def padLeft (width : Nat) (text : String) : String :=
  String.ofList (List.replicate (width - text.length) ' ') ++ text

/-- The line of a listing, with numbers flush right. -/
def BlockInfo.line (info : BlockInfo) : String :=
  let index := padLeft 4 (toString info.index)
  let position := padLeft 10 (toString info.position)
  let size := padLeft 10 (toString info.bitSize)
  let count := padLeft 6 (toString info.byteCount)
  s!"block {index} @ bit {position}: {info.kind.name} {size} bits, {count} bytes"

end DeflateRecoder
