/-!
# The alphabets of the format

A coded block speaks of bytes, match lengths, match distances and the end of the block in two
alphabets: literal/length symbols (0 to 255 for bytes, 256 for the end of the block, 257 to 285
for lengths) and distance symbols (0 to 29). A length or distance symbol stands for a band of
values (`Band`), and further bits pick one of them. `lengthSymbol` and `distanceSymbol` name the
band that a value lies in by its binary magnitude; `lengthBands` and `distanceBands` list the
bands themselves.
-/

namespace DeflateRecoder

/-! ## Limits -/

/-- The symbol that closes a block. -/
def endSymbol : Nat := 256

/-- The first symbol that stands for a match length. -/
def firstLengthSymbol : Nat := 257

/-- The greatest distance a match may reach back. -/
def maxDistance : Nat := 32768

/-- How many symbols there are at most, a symbol being a number of 16 bits. -/
def symbolLimit : Nat := 65536

/-- How many values the bits behind a symbol can have at most, 16 of them being looked at. -/
def extraLimit : Nat := 65536

/-- The longest code of a literal/length or distance symbol. -/
def maxCodeLength : Nat := 15

/-! ## Bands -/

/-- The values of one symbol: `base` and what `extraBits` further bits add to it. -/
structure Band where
  /-- The least value of the band. -/
  base : Nat
  /-- How many bits follow the symbol. -/
  extraBits : Nat
  deriving DecidableEq, Repr

/-- The match lengths of the symbols from 257 on. The band of 284 ends before 258, which has a
symbol of its own. -/
def lengthBands : Array Band := #[
  ⟨3, 0⟩, ⟨4, 0⟩, ⟨5, 0⟩, ⟨6, 0⟩, ⟨7, 0⟩, ⟨8, 0⟩, ⟨9, 0⟩, ⟨10, 0⟩,
  ⟨11, 1⟩, ⟨13, 1⟩, ⟨15, 1⟩, ⟨17, 1⟩, ⟨19, 2⟩, ⟨23, 2⟩, ⟨27, 2⟩, ⟨31, 2⟩,
  ⟨35, 3⟩, ⟨43, 3⟩, ⟨51, 3⟩, ⟨59, 3⟩, ⟨67, 4⟩, ⟨83, 4⟩, ⟨99, 4⟩, ⟨115, 4⟩,
  ⟨131, 5⟩, ⟨163, 5⟩, ⟨195, 5⟩, ⟨227, 5⟩, ⟨258, 0⟩]

/-- The match distances of the symbols from 0 on. -/
def distanceBands : Array Band := #[
  ⟨1, 0⟩, ⟨2, 0⟩, ⟨3, 0⟩, ⟨4, 0⟩, ⟨5, 1⟩, ⟨7, 1⟩, ⟨9, 2⟩, ⟨13, 2⟩,
  ⟨17, 3⟩, ⟨25, 3⟩, ⟨33, 4⟩, ⟨49, 4⟩, ⟨65, 5⟩, ⟨97, 5⟩, ⟨129, 6⟩, ⟨193, 6⟩,
  ⟨257, 7⟩, ⟨385, 7⟩, ⟨513, 8⟩, ⟨769, 8⟩, ⟨1025, 9⟩, ⟨1537, 9⟩, ⟨2049, 10⟩, ⟨3073, 10⟩,
  ⟨4097, 11⟩, ⟨6145, 11⟩, ⟨8193, 12⟩, ⟨12289, 12⟩, ⟨16385, 13⟩, ⟨24577, 13⟩]

/-- The band of a length symbol, if the symbol is one. -/
def lengthBand? (symbol : Nat) : Option Band :=
  if symbol < firstLengthSymbol then none else lengthBands[symbol - firstLengthSymbol]?

/-- The band of a distance symbol, if the symbol is one. -/
def distanceBand? (symbol : Nat) : Option Band := distanceBands[symbol]?

/-- How many bits follow a length symbol. -/
def lengthExtraBits (symbol : Nat) : Nat := (lengthBand? symbol).elim 0 (·.extraBits)

/-- How many bits follow a distance symbol. -/
def distanceExtraBits (symbol : Nat) : Nat := (distanceBand? symbol).elim 0 (·.extraBits)

/-! ## From values to symbols -/

/-- The symbol of a match length from 3 to 258: every power of two is split into four bands. -/
def lengthSymbol (length : Nat) : Nat :=
  if length = 258 then 285
  else
    let d := length - 3
    let e := max d.log2 2 - 2
    firstLengthSymbol + 4 * e + d >>> e

/-- The symbol of a match distance from 1 to 32768: every power of two is split into two bands. -/
def distanceSymbol (distance : Nat) : Nat :=
  let d := distance - 1
  let e := max d.log2 1 - 1
  2 * e + d >>> e

/-- A symbol with the value and the number of the bits that follow it. -/
structure Coded where
  /-- The symbol. -/
  symbol : Nat
  /-- The number that the following bits spell. -/
  extra : Nat
  /-- How many bits follow. -/
  extraBits : Nat
  deriving DecidableEq, Repr

/-- The symbol and following bits of a match length; there are none outside 3 to 258. -/
def encodeLength? (length : Nat) : Option Coded :=
  if 3 ≤ length ∧ length ≤ 258 then
    let symbol := lengthSymbol length
    (lengthBand? symbol).map fun band => ⟨symbol, length - band.base, band.extraBits⟩
  else none

/-- The symbol and following bits of a match distance; there are none outside 1 to 32768. -/
def encodeDistance? (distance : Nat) : Option Coded :=
  if 1 ≤ distance ∧ distance ≤ maxDistance then
    let symbol := distanceSymbol distance
    (distanceBand? symbol).map fun band => ⟨symbol, distance - band.base, band.extraBits⟩
  else none

/-! ## From symbols to values -/

/-- The match length of a symbol and its following bits, the low 16 of which count. The greatest value
after 284 would be a second spelling of 258 and stands for nothing. -/
def decodeLength? (symbol extra : Nat) : Option Nat :=
  if symbol = 284 ∧ extra = 31 then none
  else (lengthBand? symbol).map fun band => band.base + extra % extraLimit

/-- The match distance of a symbol and its following bits, the low 16 of which count. -/
def decodeDistance? (symbol extra : Nat) : Option Nat :=
  (distanceBand? symbol).map fun band => band.base + extra % extraLimit

/-! ## Code lengths that the format fixes -/

/-- The code lengths of the literal/length symbols of a fixed block. -/
def fixedLitlenLengths : List Nat :=
  List.replicate 144 8 ++ List.replicate 112 9 ++ List.replicate 24 7 ++ List.replicate 8 8

/-- The code lengths of the distance symbols of a fixed block. -/
def fixedDistLengths : List Nat := List.replicate 32 5

/-- The order in which a header transmits the lengths of the codes for code lengths: those least
often needed come last, where they can be left out. -/
def transmissionOrder : List Nat :=
  [16, 17, 18, 0, 8, 7, 9, 6, 10, 5, 11, 4, 12, 3, 13, 2, 14, 1, 15]

end DeflateRecoder
