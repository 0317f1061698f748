import DeflateRecoder.Code.Table

/-!
# The alphabet of code lengths

A header transmits code lengths as symbols of a third alphabet: 0 to 15 are lengths, 16 repeats the
length before it, 17 and 18 stand for short and long runs of zeros. `LengthSymbol.expand` says which
lengths a symbol stands for, and `unpack` reads a sequence of symbols back as lengths.
-/

namespace DeflateRecoder

/-- A symbol of the alphabet of code lengths, with the number that its following bits spell. -/
inductive LengthSymbol
  /-- One code length. -/
  | length (value : Nat)
  /-- `count` further code lengths equal to the one before, which is `value`. -/
  | copy (count value : Nat)
  /-- `count` zeros, at most 10. -/
  | zeros (count : Nat)
  /-- `count` zeros, at least 11. -/
  | longZeros (count : Nat)
  deriving DecidableEq, Repr

namespace LengthSymbol

/-- The number of the symbol in its alphabet. -/
def symbol : LengthSymbol → Nat
  | length value => value
  | copy _ _ => 16
  | zeros _ => 17
  | longZeros _ => 18

/-- The code length that the symbol stands for. -/
def value : LengthSymbol → Nat
  | length value => value
  | copy _ value => value
  | zeros _ | longZeros _ => 0

/-- How many code lengths the symbol stands for. -/
def count : LengthSymbol → Nat
  | length _ => 1
  | copy count _ | zeros count | longZeros count => count

/-- The symbol is one of the three that stand for a run. -/
def isRun : LengthSymbol → Bool
  | length _ => false
  | _ => true

/-- The number that the bits after the symbol spell. -/
def extra : LengthSymbol → Nat
  | length _ => 0
  | copy count _ | zeros count => count - 3
  | longZeros count => count - 11

/-- How many bits follow the symbol. -/
def extraBits : LengthSymbol → Nat
  | length _ => 0
  | copy _ _ => 2
  | zeros _ => 3
  | longZeros _ => 7

/-- The code lengths that the symbol stands for. -/
def expand (s : LengthSymbol) : List Nat := List.replicate s.count s.value

/-- The size in bits of the symbol under a code; without a word only its following bits count. -/
def cost (s : LengthSymbol) (code : CodeTable) : Nat := code.lengthOf s.symbol + s.extraBits

end LengthSymbol

/-- Reads on after a code length `previous`, if there is one. A copy run must repeat that length. -/
def unpackAfter (previous : Option Nat) : List LengthSymbol → Except Error (List Nat)
  | [] => .ok []
  | s :: symbols => do
    if let .copy _ value := s then
      match previous with
      | none => throw .missingPreviousLength
      | some p => if p ≠ value then throw (.internal .runBreaksOff)
    let rest ← unpackAfter (if s.count = 0 then previous else some s.value) symbols
    return s.expand ++ rest

/-- The code lengths that a sequence of symbols stands for. -/
def unpack (symbols : List LengthSymbol) : Except Error (List Nat) := unpackAfter none symbols

end DeflateRecoder
