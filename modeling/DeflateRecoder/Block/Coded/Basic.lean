import DeflateRecoder.Block.Header
import DeflateRecoder.Block.Stored
import DeflateRecoder.Token
import DeflateRecoder.Window

/-!
# Coded blocks

A `CodedBlock` is a sequence of tokens under two tables: those that the format fixes, or tables that
the block's own header transmits (`Coding`). The bytes of the tokens are kept in `bytes` and their
size in `tokenBits`, which every operation takes along; `recount` counts it anew.
-/

namespace DeflateRecoder

/-- The tables of a coded block. -/
inductive Coding
  /-- The tables that the format fixes. -/
  | fixed
  /-- Tables that a header transmits. -/
  | dynamic (litlen dist : CodeTable) (header : TableHeader)
  deriving DecidableEq, Repr

/-- A sequence of tokens under two tables. -/
structure CodedBlock where
  /-- The tables. -/
  coding : Coding
  /-- The tokens. -/
  tokens : List Token
  /-- The size of the tokens in bits. -/
  tokenBits : Nat
  /-- The bytes that the block stands for. -/
  bytes : List UInt8
  deriving DecidableEq, Repr

namespace CodedBlock

/-- The kind of the block. -/
def kind (b : CodedBlock) : BlockKind :=
  match b.coding with
  | .fixed => .fixed
  | .dynamic .. => .dynamic

/-- The table of the literal/length symbols. -/
def litlen (b : CodedBlock) : CodeTable :=
  match b.coding with
  | .fixed => CodeTable.fixedLitlen
  | .dynamic litlen _ _ => litlen

/-- The table of the distance symbols. -/
def dist (b : CodedBlock) : CodeTable :=
  match b.coding with
  | .fixed => CodeTable.fixedDist
  | .dynamic _ dist _ => dist

/-- The header, if the tables are transmitted. -/
def header? (b : CodedBlock) : Option TableHeader :=
  match b.coding with
  | .fixed => none
  | .dynamic _ _ header => some header

/-- The size of the block's body in bits. -/
def bitSize (b : CodedBlock) : Nat := b.header?.elim 0 (·.bitSize) + b.tokenBits

/-- The size of the block's body in bits, counted from its parts. -/
def recount (b : CodedBlock) : Nat :=
  b.header?.elim 0 (·.recount) + tokensCost b.litlen b.dist b.tokens

/-- The block of the given tokens, which stand for the given bytes, under the given tables. -/
def ofCoding (coding : Coding) (tokens : List Token) (bytes : List UInt8) : CodedBlock :=
  let b : CodedBlock := { coding, tokens, tokenBits := 0, bytes }
  { b with tokenBits := tokensCost b.litlen b.dist tokens }

end CodedBlock

end DeflateRecoder
