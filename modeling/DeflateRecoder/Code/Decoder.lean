import DeflateRecoder.Bits.Progress
import DeflateRecoder.Code.Table

/-!
# Decoding symbols

A `Decoder` holds the code words of a table by length. The words of one length are consecutive
numbers, so a `Row` needs only the first of them and the symbols in order. `Decoder.read` takes
one bit after the other and asks at each length whether the bits so far are a word of that
length.
-/

namespace DeflateRecoder

/-- The symbols with a code of one length, in the order of their consecutive words. -/
structure Decoder.Row where
  /-- The word of the first symbol. -/
  first : Nat
  /-- The symbols. -/
  symbols : Array Nat
  deriving Repr

/-- The rows of a table for the lengths 1, 2, 3, …. -/
structure Decoder where
  /-- One row for each length up to that of the longest word. -/
  rows : List Decoder.Row
  deriving Repr

/-- A symbol read, and the number of bits of its word. -/
structure Decoder.Symbol where
  /-- The symbol. -/
  symbol : Nat
  /-- How many bits its word took. -/
  width : Nat
  deriving DecidableEq, Repr

namespace Decoder

/-- The places in a list of code lengths that hold `n`, counted from `start` on. -/
def placesOfLength (n : Nat) : List Nat → (start : Nat) → List Nat
  | [], _ => []
  | m :: lengths, start =>
    if m = n then start :: placesOfLength n lengths (start + 1)
    else placesOfLength n lengths (start + 1)

/-- The symbols with a code of `n` bits, in increasing order. Symbols are numbers of 16 bits, so in
an alphabet with more of them the numbers start again from 0. -/
def symbolsOfLength (lengths : List Nat) (n : Nat) : Array Nat :=
  (((placesOfLength n lengths 0).map (· % symbolLimit)).mergeSort).toArray

/-- The places that are listed are places of the list. -/
theorem mem_placesOfLength {n p : Nat} {lengths : List Nat} {start : Nat}
    (h : p ∈ placesOfLength n lengths start) : start ≤ p ∧ p < start + lengths.length := by
  induction lengths generalizing start with
  | nil => cases h
  | cons m lengths ih =>
    have later : p ∈ placesOfLength n lengths (start + 1) →
        start ≤ p ∧ p < start + (lengths.length + 1) := fun h => by have := ih h; omega
    unfold placesOfLength at h
    split at h
    · rcases List.mem_cons.1 h with rfl | h
      · simp
      · exact later h
    · exact later h

/-- Places are listed in increasing order. -/
theorem placesOfLength_sorted (n : Nat) (lengths : List Nat) (start : Nat) :
    (placesOfLength n lengths start).Pairwise (· < ·) := by
  induction lengths generalizing start with
  | nil => exact .nil
  | cons m lengths ih =>
    unfold placesOfLength
    split
    · exact .cons (fun p h => (mem_placesOfLength h).1) (ih _)
    · exact ih _

/-- In an alphabet whose symbols all have numbers of their own the symbols are the places. -/
theorem symbolsOfLength_eq {lengths : List Nat} (h : lengths.length ≤ symbolLimit) (n : Nat) :
    symbolsOfLength lengths n = (placesOfLength n lengths 0).toArray := by
  have same : (placesOfLength n lengths 0).map (· % symbolLimit) = placesOfLength n lengths 0 := by
    refine (List.map_congr_left fun p hp => ?_).trans (List.map_id _)
    have := mem_placesOfLength hp
    exact Nat.mod_eq_of_lt (by omega)
  rw [symbolsOfLength, same, List.mergeSort_of_pairwise]
  exact (placesOfLength_sorted n lengths 0).imp fun h => by simpa using Nat.le_of_lt h

/-- The decoder for canonical codes of the lengths in a table. Words longer than the format allows
have no row. -/
def ofTable (t : CodeTable) : Decoder :=
  let lengths := t.lengths
  { rows := (List.range (min t.maxLength maxCodeLength)).map fun n =>
      ⟨firstCode lengths (n + 1), symbolsOfLength lengths (n + 1)⟩ }

/-- No word can be read. -/
def isEmpty (d : Decoder) : Bool := d.rows.all fun row => row.symbols.isEmpty

/-- Reads on from `code`, the `width` bits read before the given rows. -/
def readFrom : List Row → Nat → Nat → Parser Symbol
  | [], code, width => throw (.noMatchingCode code width)
  | row :: rows, code, width => do
    let bit ← BitReader.readBits 1
    let code := 2 * code + bit
    if code < row.first then readFrom rows code (width + 1)
    else
      match row.symbols[code - row.first]? with
      | some symbol => return ⟨symbol, width + 1⟩
      | none => readFrom rows code (width + 1)

/-- Reads one symbol. -/
def read (d : Decoder) : Parser Symbol :=
  if d.isEmpty then throw .noCodes else readFrom d.rows 0 0

/-- Reading through rows takes a bit or more, since each row begins by reading one. -/
theorem readFrom_consumes (rows : List Row) (code width : Nat) :
    (readFrom rows code width).Consumes 1 := by
  induction rows generalizing code width with
  | nil => exact .throw _
  | cons row rows ih =>
    refine .bind_left (.readBits 1) fun bit => ?_
    have ih := fun code => (ih code (width + 1)).of_le (Nat.zero_le 1)
    dsimp only
    split
    · exact ih _
    · split
      · exact .pure _
      · exact ih _

/-- A symbol takes a bit or more. -/
theorem read_consumes (d : Decoder) : d.read.Consumes 1 :=
  .ite (.throw _) (readFrom_consumes _ _ _)

end Decoder

end DeflateRecoder
