/-!
# Block kinds and the reasons for refusal

`BlockKind` is the two-bit field that opens every block. `Error` lists the causes for which a
stream, a table or a block is refused, and `Error.message` words each of them once for the whole
library. A cause that only a fault of the library itself could bring about is a `Fault`.
-/

namespace DeflateRecoder

/-! ## Block kinds -/

/-- How the body of a block is encoded. -/
inductive BlockKind
  /-- Bytes copied as they are. -/
  | stored
  /-- Symbols under the code lengths that the format fixes. -/
  | fixed
  /-- Symbols under code lengths that the block itself transmits. -/
  | dynamic
  deriving DecidableEq, Repr

namespace BlockKind

/-- The value of the two-bit field that announces a block of this kind. -/
def code : BlockKind → Nat
  | stored => 0
  | fixed => 1
  | dynamic => 2

/-- The kind that a two-bit field announces; 3 is reserved. -/
def ofCode? : Nat → Option BlockKind
  | 0 => some stored
  | 1 => some fixed
  | 2 => some dynamic
  | _ => none

/-- Reading a written kind gives it back. -/
@[simp] theorem ofCode?_code (k : BlockKind) : ofCode? k.code = some k := by
  cases k <;> rfl

/-- The word for a kind in listings and messages. -/
def name : BlockKind → String
  | stored => "stored"
  | fixed => "fixed"
  | dynamic => "dynamic"

end BlockKind

/-! ## Causes -/

/-- A state that no input should lead to. -/
inductive Fault
  /-- A code tree is too deep and has no leaf left to graft onto. -/
  | unbalancedTree
  /-- A copy run names a length other than the one before it. -/
  | runBreaksOff
  /-- More bytes are asked of the window than it holds. -/
  | windowTooShort (held requested : Nat)
  /-- A token list does not close its block. -/
  | unterminatedTokens
  /-- A block of another kind was read as a stored one. -/
  | notStored (kind : BlockKind)
  /-- A stored block was read as a coded one. -/
  | notCoded
  /-- The new encoding stands for other bytes than the old one. -/
  | differentBytes (decoded expected : Nat)
  /-- A batch ended with a wrong number of results. -/
  | resultCount (expected got : Nat)
  deriving DecidableEq, Repr

/-- Why a stream, a table or a block is refused. -/
inductive Error
  /-- The two-bit block kind is the reserved one. -/
  | invalidBlockKind (code : Nat)
  /-- The complement that follows a stored block's length does not match it. -/
  | storedLengthMismatch (len nlen : Nat)
  /-- A stored block cannot hold this many bytes. -/
  | storedTooLarge (size : Nat)
  /-- A symbol is outside the alphabet of code lengths. -/
  | invalidCodeLengthSymbol (symbol : Nat)
  /-- A run goes past the declared number of code lengths. -/
  | codeLengthOverflow (declared decoded : Nat)
  /-- A copy run stands before any code length. -/
  | missingPreviousLength
  /-- A symbol stands for no match length. -/
  | invalidLengthCode (symbol : Nat)
  /-- A symbol stands for no match distance. -/
  | invalidDistanceCode (symbol : Nat)
  /-- A match reaches back further than bytes are known. -/
  | distanceTooFar (distance available : Nat)
  /-- No code of the table equals the bits read. -/
  | noMatchingCode (code width : Nat)
  /-- The code lengths promise more codes than there are. -/
  | oversubscribed
  /-- A table has no code at all. -/
  | noCodes
  /-- A symbol has to be written and has no code. -/
  | missingCode (symbol : Nat)
  /-- A stream has no block. -/
  | emptyStream
  /-- The input ends inside the stream. -/
  | unexpectedEnd
  /-- The library contradicts itself. -/
  | internal (fault : Fault)
  deriving DecidableEq, Repr

/-- The binary numeral of a number, with its radix mark. -/
def binaryNumeral (n : Nat) : String :=
  "0b" ++ String.ofList (Nat.toDigits 2 n)

/-- The wording of a fault. -/
def Fault.message : Fault → String
  | unbalancedTree => "cannot balance Huffman tree"
  | runBreaksOff => "copy run does not repeat its predecessor"
  | windowTooShort held requested => s!"history holds {held} bytes, {requested} requested"
  | unterminatedTokens => "token stream does not end with end of block"
  | notStored kind => s!"{kind.name} block parsed as stored"
  | notCoded => "stored block parsed as Huffman"
  | differentBytes decoded expected => s!"decoded {decoded} bytes, expected {expected}"
  | resultCount expected got => s!"expected {expected} batch results, got {got}"

/-- The wording of a cause. -/
def Error.message : Error → String
  | invalidBlockKind code => s!"Invalid DEFLATE block type: {code}"
  | storedLengthMismatch len nlen => s!"Stored block length mismatch: LEN={len}, NLEN={nlen}"
  | storedTooLarge size => s!"Stored block too large: {size} bytes (max 65535)"
  | invalidCodeLengthSymbol symbol => s!"Invalid code length symbol: {symbol}"
  | codeLengthOverflow declared decoded =>
    s!"Code length run overflows header: declared {declared} lengths, decoded {decoded}"
  | missingPreviousLength => "Code length repeat with no previous length"
  | invalidLengthCode symbol => s!"Invalid length code: {symbol}"
  | invalidDistanceCode symbol => s!"Invalid distance code: {symbol}"
  | distanceTooFar distance available =>
    s!"Back-reference distance {distance} exceeds available window {available}"
  | noMatchingCode code width =>
    s!"No Huffman code matches {binaryNumeral code} within {width} bits"
  | oversubscribed => "Code lengths over-subscribe the code space"
  | noCodes => "Huffman table has no codes"
  | missingCode symbol => s!"Symbol {symbol} has no code in the current table"
  | emptyStream => "DEFLATE stream has no blocks"
  | unexpectedEnd => "Unexpected end of input"
  | internal fault => s!"Internal error: {fault.message}"

end DeflateRecoder
