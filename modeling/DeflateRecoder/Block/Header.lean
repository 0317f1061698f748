import DeflateRecoder.Code.Decoder
import DeflateRecoder.Code.Tree
import DeflateRecoder.CodeLengths.Packing

/-!
# Headers of dynamic blocks

A dynamic block transmits the code lengths of its two tables ahead of its tokens. A `TableHeader` is
that transmission: how many lengths there are, the code for their symbols, and the symbols. The
lengths of that code are themselves sent as three-bit numbers in `transmissionOrder`, of which the
last ones can be left out when they are 0.

`pack` builds a header for two tables, `recode` gives it an optimal code, `trim` and `expandRuns`
make it smaller without one. None of these changes the code lengths that the header stands for.
The size of a header is kept in `bitSize` and taken along by every change; `recount` counts it
anew.
-/

namespace DeflateRecoder

/-- The code lengths that open a dynamic block. -/
structure TableHeader where
  /-- The number of code lengths for literal/length symbols. -/
  litlenCount : Nat
  /-- The number of code lengths for distance symbols. -/
  distCount : Nat
  /-- The number of lengths transmitted of the code for code lengths. -/
  orderCount : Nat
  /-- The code for code lengths. -/
  code : CodeTable
  /-- The code lengths, first those for literal/length symbols, then those for distance symbols. -/
  symbols : List LengthSymbol
  /-- The size of the header in bits. -/
  bitSize : Nat
  deriving DecidableEq, Repr

/-- An optimal code for the symbols of a sequence; no word has more than 7 bits, the most that a
three-bit number can tell. -/
def lengthCode (symbols : List LengthSymbol) : Except Error CodeTable :=
  CodeTable.ofWeights (tally 19 (symbols.map (·.symbol))) 7

namespace TableHeader

/-- The size of the header in bits, counted from its parts: three counts, the transmitted lengths
of the code for code lengths, and the symbols. -/
def recount (h : TableHeader) : Nat :=
  14 + 3 * h.orderCount + total (·.cost h.code) h.symbols

/-- The number of run symbols. -/
def runCount (h : TableHeader) : Nat := h.symbols.countP (·.isRun)

/-! ## Smaller headers -/

/-- How many of the first `n` transmitted lengths are needed: those after the last one that is not
0 are left out, but four are always there. -/
def neededCount (code : CodeTable) : Nat → Nat
  | 0 => 0
  | n + 1 =>
    if 4 ≤ n ∧ code.lengthOf (transmissionOrder.getD n 0) = 0 then neededCount code n else n + 1

/-- Leaves out transmitted lengths that are not needed. Returns the bits saved as well. -/
def trim (h : TableHeader) : TableHeader × Nat :=
  let count := neededCount h.code h.orderCount
  let saved := 3 * (h.orderCount - count)
  ({ h with orderCount := count, bitSize := h.bitSize - saved }, saved)

/-- What a run costs and what its lengths would cost one by one, if writing them one by one is
possible and cheaper, or with `ties` as cheap. -/
def expansion? (code : CodeTable) (ties : Bool) (s : LengthSymbol) : Option (Nat × Nat) :=
  let width := code.lengthOf s.value
  if !s.isRun || width == 0 then none
  else
    let cost := s.cost code
    let total := width * s.count
    if total < cost || ties && total == cost then some (cost, total) else none

/-- The symbols in the place of one when runs are spelled out. -/
def spellRun (code : CodeTable) (ties : Bool) (s : LengthSymbol) : List LengthSymbol :=
  if (expansion? code ties s).isSome then List.replicate s.count (.length s.value) else [s]

/-- Spells out the runs that cost more than their lengths one by one, with `ties` also those that
cost the same. Returns the bits saved as well. -/
def expandRuns (ties : Bool) (h : TableHeader) : TableHeader × Nat :=
  let worth := expansion? h.code ties
  if h.symbols.any fun s => (worth s).isSome then
    let sizes := h.symbols.foldl (saveStep worth) (h.bitSize, 0)
    ({ h with symbols := h.symbols.flatMap (spellRun h.code ties), bitSize := sizes.1 }, sizes.2)
  else (h, 0)

/-! ## Building -/

/-- The header of the given parts, with its size counted. -/
def ofParts (litlenCount distCount orderCount : Nat) (code : CodeTable)
    (symbols : List LengthSymbol) : TableHeader :=
  let h : TableHeader := { litlenCount, distCount, orderCount, code, symbols, bitSize := 0 }
  { h with bitSize := h.recount }

/-- The header that transmits the given symbols under an optimal code. -/
def ofSymbols (litlenCount distCount : Nat) (symbols : List LengthSymbol) :
    Except Error TableHeader := do
  let code ← lengthCode symbols
  return (ofParts litlenCount distCount 19 code symbols).trim.1

/-- The header for two tables. -/
def pack (litlen dist : CodeTable) (rules : PackingRules) : Except Error TableHeader :=
  ofSymbols litlen.size dist.size (DeflateRecoder.pack rules (litlen.lengths ++ dist.lengths))

/-- The same symbols under an optimal code. -/
def recode (h : TableHeader) : Except Error TableHeader :=
  ofSymbols h.litlenCount h.distCount h.symbols

/-! ## Writing -/

/-- Writes a symbol of a code length and the bits that follow it. -/
def writeSymbol (code : CodeTable) (w : BitWriter) (s : LengthSymbol) : Except Error BitWriter := do
  let w ← w.writeSymbol code s.symbol
  return w.writeBits s.extraBits s.extra

/-- Writes the header. -/
def write (h : TableHeader) (w : BitWriter) : Except Error BitWriter :=
  let w := w.writeBits 5 (h.litlenCount - 257)
  let w := w.writeBits 5 (h.distCount - 1)
  let w := w.writeBits 4 (h.orderCount - 4)
  let w := (transmissionOrder.take h.orderCount).foldl
    (fun w s => w.writeBits 3 (h.code.lengthOf s)) w
  h.symbols.foldlM (writeSymbol h.code) w

/-! ## Reading -/

/-- The code lengths of the alphabet of code lengths, from those transmitted. -/
def placeLengths (transmitted : List Nat) : List Nat :=
  (List.range 19).map fun s => ((transmissionOrder.zip transmitted).lookup s).getD 0

/-- Reads a symbol, where `previous` is the code length before it. Every symbol stands for one or
more code lengths. -/
def readSymbol (decoder : Decoder) (previous : Option Nat) :
    Parser { s : LengthSymbol // 0 < s.count } := do
  let symbol ← decoder.read
  match symbol.symbol with
  | 16 =>
    let extra ← BitReader.readBits 2
    match previous with
    | none => throw .missingPreviousLength
    | some value => return ⟨.copy (extra + 3) value, by simp [LengthSymbol.count]⟩
  | 17 =>
    let extra ← BitReader.readBits 3
    return ⟨.zeros (extra + 3), by simp [LengthSymbol.count]⟩
  | 18 =>
    let extra ← BitReader.readBits 7
    return ⟨.longZeros (extra + 11), by simp [LengthSymbol.count]⟩
  | n =>
    if n ≤ 15 then return ⟨.length n, by simp [LengthSymbol.count]⟩
    else throw (.invalidCodeLengthSymbol n)

/-- Reads symbols for the last `left` of `declared` code lengths. -/
def readSymbols (decoder : Decoder) (declared : Nat) (previous : Option Nat) (left : Nat) :
    Parser (List LengthSymbol) :=
  if left = 0 then pure []
  else do
    let ⟨s, _⟩ ← readSymbol decoder previous
    if left < s.count then throw (.codeLengthOverflow declared (declared - left + s.count))
    else
      let rest ← readSymbols decoder declared (some s.value) (left - s.count)
      return s :: rest
termination_by left

/-- Reads a header. -/
def read : Parser TableHeader := do
  let litlenCount ← (· + 257) <$> BitReader.readBits 5
  let distCount ← (· + 1) <$> BitReader.readBits 5
  let orderCount ← (· + 4) <$> BitReader.readBits 4
  let transmitted ← (transmissionOrder.take orderCount).mapM fun _ => BitReader.readBits 3
  let code ← Parser.ofExcept (CodeTable.ofLengths? (placeLengths transmitted))
  let declared := litlenCount + distCount
  let symbols ← readSymbols (Decoder.ofTable code) declared none declared
  return ofParts litlenCount distCount orderCount code symbols

/-- The code lengths that the header stands for: those for literal/length symbols and those for
distance symbols. -/
def lengths (h : TableHeader) : List Nat × List Nat :=
  (h.symbols.flatMap (·.expand)).splitAt h.litlenCount

/-- A packed code length gives no bits back. -/
theorem readSymbol_consumes (decoder : Decoder) (previous : Option Nat) :
    (readSymbol decoder previous).Consumes 0 := by
  refine .bind_left (.of_le decoder.read_consumes (Nat.zero_le _)) fun symbol => ?_
  split
  · refine .bind_left (.of_le (.readBits 2) (Nat.zero_le _)) fun extra => ?_
    split
    · exact .throw _
    · exact .pure _
  · exact .bind_left (.of_le (.readBits 3) (Nat.zero_le _)) fun extra => .pure _
  · exact .bind_left (.of_le (.readBits 7) (Nat.zero_le _)) fun extra => .pure _
  · split
    · exact .pure _
    · exact .throw _

/-- Packed code lengths give no bits back, by induction on the symbols that are read. -/
theorem readSymbols_consumes (decoder : Decoder) (declared : Nat) (previous : Option Nat)
    (left : Nat) : (readSymbols decoder declared previous left).Consumes 0 := by
  induction left using Nat.strongRecOn generalizing previous with
  | ind left ih =>
    rw [readSymbols]
    split
    · exact .pure _
    · refine .bind_left (readSymbol_consumes _ _) fun s => ?_
      obtain ⟨s, hs⟩ := s
      dsimp only
      split
      · exact .throw _
      · exact .bind_left (ih _ (by omega) _) fun _ => .pure _

/-- A header gives no bits back. -/
theorem read_consumes : read.Consumes 0 := by
  have field (n k : Nat) : Parser.Consumes 0 ((· + k) <$> BitReader.readBits n) := by
    rw [map_eq_pure_bind]
    exact .bind_left (.of_le (.readBits n) (Nat.zero_le _)) fun _ => .pure _
  exact .bind_left (field 5 257) fun _ => .bind_left (field 5 1) fun _ => .bind_left (field 4 4) fun _ =>
    .bind_left (.mapM (fun _ => .of_le (.readBits 3) (Nat.zero_le _)) _) fun _ =>
    .bind_left (.ofExcept _) fun _ => .bind_left (readSymbols_consumes _ _ _ _) fun _ => .pure _

end TableHeader

end DeflateRecoder
