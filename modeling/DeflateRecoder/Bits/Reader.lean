import DeflateRecoder.Error

/-!
# Reading bits

A `BitReader` takes bits from a byte list, the least significant bit of each byte first. Bytes
pass through a window: whole bytes are moved into it when it holds too few bits, and reads take
bits from its low end. A `Parser` is a computation on a reader that keeps the reader when it
fails, so that the position of a failure can be told.

`BitReader.remaining` counts the bits not yet consumed. Every read takes exactly the bits it
returns off that count (`readBits_remaining`), which is what lets the parsers built on it
recurse on the input that is left.
-/

namespace DeflateRecoder

/-- A cursor over a byte list, with a window of bits that have been taken from it and not yet
consumed. -/
structure BitReader where
  /-- The bytes not yet moved into the window. -/
  rest : List UInt8
  /-- How many bytes have left `rest`. -/
  taken : Nat
  /-- The unconsumed bits of the bytes taken, the next one lowest. -/
  window : Nat
  /-- How many bits of the window count. -/
  held : Nat
  deriving DecidableEq, Repr

/-- A computation that reads bits and keeps its position when it fails. -/
abbrev Parser (α : Type) := EStateM Error BitReader α

/-- Fails where a computation without input fails, and reads nothing. -/
def Parser.ofExcept {α : Type} : Except Error α → Parser α
  | .ok a => pure a
  | .error e => throw e

namespace BitReader

/-- A reader at the start of `bytes`. -/
def ofBytes (bytes : List UInt8) : BitReader :=
  { rest := bytes, taken := 0, window := 0, held := 0 }

/-- The number of bits consumed so far. -/
def position (r : BitReader) : Nat := 8 * r.taken - r.held

/-- The number of bits not yet consumed. -/
def remaining (r : BitReader) : Nat := 8 * r.rest.length + r.held

/-- Bits leave the window singly and enter it by whole bytes, so the cursor is at a byte
boundary when the window holds whole bytes. -/
def isAligned (r : BitReader) : Bool := r.held % 8 = 0

/-! ## The window -/

/-- Moves the next `k` bytes into the window, or all there are. -/
def load : Nat → BitReader → BitReader
  | 0, r => r
  | k + 1, r =>
    match r.rest with
    | [] => r
    | b :: rest =>
      load k { rest, taken := r.taken + 1, window := r.window + b.toNat <<< r.held, held := r.held + 8 }

/-- Fills the window when it holds fewer than `n` bits: up to 63 bits at once as long as eight
bytes are left, then byte by byte until `n` bits are held or the input ends. -/
def refill (n : Nat) (r : BitReader) : BitReader :=
  if r.held < n then
    let r := if (r.rest.drop 7).isEmpty then r else r.load ((63 - r.held) / 8)
    r.load ((n - r.held + 7) / 8)
  else r

/-- Takes `n` bits that the window holds. -/
def consume (n : Nat) (r : BitReader) : BitReader :=
  { r with window := r.window >>> n, held := r.held - n }

/-- Skips to the next byte boundary. -/
def align (r : BitReader) : BitReader := r.consume (r.held % 8)

@[simp] theorem remaining_ofBytes (bytes : List UInt8) :
    (ofBytes bytes).remaining = 8 * bytes.length := rfl

/-- Moving bytes into the window consumes nothing. -/
@[simp] theorem remaining_load (k : Nat) (r : BitReader) : (r.load k).remaining = r.remaining := by
  induction k generalizing r with
  | zero => rfl
  | succ k ih =>
    rw [load]
    split
    · rfl
    · next h => rw [ih]; simp only [remaining, h, List.length_cons]; omega

@[simp] theorem remaining_refill (n : Nat) (r : BitReader) :
    (r.refill n).remaining = r.remaining := by
  unfold refill
  split
  · simp only [remaining_load]
    split
    · rfl
    · exact remaining_load _ r
  · rfl

/-- Consuming `n` held bits leaves `n` fewer. -/
theorem remaining_consume {n : Nat} {r : BitReader} (h : n ≤ r.held) :
    (r.consume n).remaining + n = r.remaining := by
  simp only [consume, remaining]; omega

/-- Going to the next byte leaves no more bits than there were. -/
theorem remaining_align_le (r : BitReader) : r.align.remaining ≤ r.remaining := by
  simp only [align, consume, remaining]; omega

/-! ## Reads -/

/-- Reads `n` bits as a number, the first bit lowest. -/
def readBits (n : Nat) : Parser Nat := fun r =>
  let r := r.refill n
  if r.held < n then .error .unexpectedEnd r else .ok (r.window % (1 <<< n)) (r.consume n)

/-- Reads one bit. -/
def readBit : Parser Bool := do
  return (← readBits 1) != 0

/-- Skips to the next byte boundary. -/
def alignToByte : Parser Unit := modify align

/-- Reads a 16-bit number, low byte first, from the next byte boundary. -/
def readWord : Parser Nat := do
  alignToByte
  readBits 16

/-- Takes up to `n` whole bytes out of the window. -/
def drain : Nat → BitReader → List UInt8 × BitReader
  | 0, r => ([], r)
  | n + 1, r =>
    if r.held < 8 then ([], r)
    else
      let (bytes, r') := drain n (r.consume 8)
      (r.window.toUInt8 :: bytes, r')

/-- Reads `n` bytes from the next byte boundary. When too few are left, those that the window
held are consumed all the same. -/
def readBytes (n : Nat) : Parser (List UInt8) := fun r =>
  let (bytes, r) := drain n r.align
  let k := n - bytes.length
  let more := r.rest.take k
  if more.length < k then .error .unexpectedEnd r
  else .ok (bytes ++ more) { r with rest := r.rest.drop k, taken := r.taken + k }

/-- A successful read of `n` bits leaves `n` fewer. -/
theorem readBits_remaining {n v : Nat} {r r' : BitReader} (h : readBits n r = .ok v r') :
    r'.remaining + n = r.remaining := by
  unfold readBits at h
  simp only at h
  split at h
  · cases h
  · cases h
    rw [remaining_consume (by omega), remaining_refill]

end BitReader

end DeflateRecoder
