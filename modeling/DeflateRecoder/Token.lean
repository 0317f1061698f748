import DeflateRecoder.Code.Table

/-!
# Tokens

A coded block is a sequence of tokens: bytes, matches and the mark of its end. A match carries the
bytes that it stands for, so a block can be encoded anew, or have matches spelled out as literals,
without the bytes that came before it.
-/

namespace DeflateRecoder

/-- One step of a coded block. -/
inductive Token
  /-- A byte. -/
  | literal (byte : UInt8)
  /-- The end of the block. -/
  | endOfBlock
  /-- The `length` bytes from `distance` bytes back on, which are `bytes`. -/
  | copy (length distance : Nat) (bytes : List UInt8)
  deriving DecidableEq, Repr

namespace Token

/-- The literal/length symbol of a token. -/
def symbol : Token → Nat
  | literal byte => byte.toNat
  | endOfBlock => endSymbol
  | copy length _ _ => lengthSymbol length

/-- How far a match reaches back; 0 for other tokens. -/
def distance : Token → Nat
  | copy _ distance _ => distance
  | _ => 0

/-- The token is a match. -/
def isCopy : Token → Bool
  | copy .. => true
  | _ => false

/-- The bytes that a token stands for. -/
def bytes : Token → List UInt8
  | literal byte => [byte]
  | endOfBlock => []
  | copy _ _ bytes => bytes

/-- The size of a token in bits under two tables. A symbol without a code counts nothing. -/
def cost (litlen dist : CodeTable) : Token → Nat
  | copy length distance _ =>
    let symbol := lengthSymbol length
    let code := distanceSymbol distance
    litlen.lengthOf symbol + lengthExtraBits symbol + dist.lengthOf code + distanceExtraBits code
  | token => litlen.lengthOf token.symbol

/-- Writes a token. -/
def write (litlen dist : CodeTable) (token : Token) (w : BitWriter) : Except Error BitWriter := do
  let w ← w.writeSymbol litlen token.symbol
  match token with
  | copy length distance _ =>
    let some l := encodeLength? length | throw (.invalidLengthCode token.symbol)
    let w := w.writeBits l.extraBits l.extra
    let some d := encodeDistance? distance | throw (.invalidDistanceCode 0)
    let w ← w.writeSymbol dist d.symbol
    return w.writeBits d.extraBits d.extra
  | _ => return w

end Token

/-- The bytes that a sequence of tokens stands for. -/
def tokenBytes (tokens : List Token) : List UInt8 := tokens.flatMap Token.bytes

/-- The size of a sequence of tokens in bits under two tables. -/
def tokensCost (litlen dist : CodeTable) (tokens : List Token) : Nat :=
  total (Token.cost litlen dist) tokens

end DeflateRecoder
