/-!
# Writing bits

A `BitWriter` collects bits into bytes, the least significant bit of each byte first. Fewer than
eight bits are pending between calls. Code words are numbered with their first bit most
significant, so `writeReversed` turns a word around before it is written (`reverseBits`).
-/

namespace DeflateRecoder

/-- The low `n` bits of a number in the opposite order. -/
def reverseBits (n v : Nat) : Nat := go n v 0
where
  /-- Moves `n` bits from the low end of `v` to the low end of `acc`. -/
  go : Nat → Nat → Nat → Nat
    | 0, _, acc => acc
    | n + 1, v, acc => go n (v / 2) (2 * acc + v % 2)

/-- Bytes written so far and the bits of the byte begun. -/
structure BitWriter where
  /-- The bytes that are complete. -/
  bytes : Array UInt8
  /-- The bits of the byte begun, the first one lowest. -/
  acc : Nat
  /-- How many bits of the byte begun are written. -/
  pending : Nat
  deriving DecidableEq, Repr

namespace BitWriter

/-- A writer that has written nothing. -/
def empty : BitWriter := { bytes := #[], acc := 0, pending := 0 }

/-- The number of bits written, padding included. -/
def bitLength (w : BitWriter) : Nat := 8 * w.bytes.size + w.pending

/-- Moves whole bytes from the pending bits to the bytes. -/
def flush (w : BitWriter) : BitWriter :=
  if 8 ≤ w.pending then
    flush { bytes := w.bytes.push w.acc.toUInt8, acc := w.acc >>> 8, pending := w.pending - 8 }
  else w
termination_by w.pending

/-- Writes the low `n` bits of a number, the lowest first. -/
def writeBits (n v : Nat) (w : BitWriter) : BitWriter :=
  flush { w with acc := w.acc + (v % (1 <<< n)) <<< w.pending, pending := w.pending + n }

/-- Writes one bit. -/
def writeBit (b : Bool) (w : BitWriter) : BitWriter := w.writeBits 1 b.toNat

/-- Writes the low `n` bits of a number, the highest first. -/
def writeReversed (n v : Nat) (w : BitWriter) : BitWriter := w.writeBits n (reverseBits n v)

/-- Writes zero bits up to the next byte boundary. -/
def alignToByte (w : BitWriter) : BitWriter :=
  if w.pending = 0 then w else { bytes := w.bytes.push w.acc.toUInt8, acc := 0, pending := 0 }

/-- Writes bytes from the next byte boundary. -/
def writeBytes (bytes : List UInt8) (w : BitWriter) : BitWriter :=
  let w := w.alignToByte
  { w with bytes := w.bytes.appendList bytes }

/-- Writes a 16-bit number, low byte first, from the next byte boundary. -/
def writeWord (v : Nat) (w : BitWriter) : BitWriter :=
  w.writeBytes [v.toUInt8, (v / 256).toUInt8]

/-- The bytes written, the last one padded with zero bits. -/
def finish (w : BitWriter) : List UInt8 := w.alignToByte.bytes.toList

end BitWriter

end DeflateRecoder
