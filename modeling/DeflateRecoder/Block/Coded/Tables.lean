import DeflateRecoder.Block.Coded.Matches

/-!
# New tables for old tokens

These operations keep the tokens of a block and change its tables or the header that transmits them:
`recode` derives optimal tables, `toFixed` takes the fixed ones, and `packHeader`, `recodeHeader`,
`pruneHeader` and `tidyHeader` change the header alone.
-/

namespace DeflateRecoder

namespace CodedBlock

/-! ## Headers -/

/-- Changes the header of a dynamic block. -/
def mapHeader (f : CodeTable → CodeTable → TableHeader → Except Error TableHeader)
    (b : CodedBlock) : Except Error CodedBlock :=
  match b.coding with
  | .fixed => .ok b
  | .dynamic litlen dist header => do
    return { b with coding := .dynamic litlen dist (← f litlen dist header) }

/-- Packs the code lengths of the tables into a new header. -/
def packHeader (rules : PackingRules) : CodedBlock → Except Error CodedBlock :=
  mapHeader fun litlen dist _ => TableHeader.pack litlen dist rules

/-- Gives the header an optimal code for its symbols. -/
def recodeHeader : CodedBlock → Except Error CodedBlock :=
  mapHeader fun _ _ header => header.recode

/-- Spells out the header's runs that save nothing, and gives it an optimal code. -/
def pruneHeader : CodedBlock → Except Error CodedBlock :=
  mapHeader fun _ _ header => (header.expandRuns true).1.recode

/-- Makes the header smaller without a new code. Returns the bits saved as well. -/
def tidyHeader (b : CodedBlock) : CodedBlock × Nat :=
  match b.coding with
  | .fixed => (b, 0)
  | .dynamic litlen dist header =>
    let (header, trimmed) := header.trim
    let (header, expanded) := header.expandRuns false
    ({ b with coding := .dynamic litlen dist header }, trimmed + expanded)

/-- Makes a dynamic block smaller without new tables. Returns the bits saved as well. -/
def tidy (b : CodedBlock) : CodedBlock × Nat :=
  match b.coding with
  | .fixed => (b, 0)
  | .dynamic .. =>
    let (b, expanded) := b.expandMatches false
    let (b, tidied) := b.tidyHeader
    (b, expanded + tidied)

/-! ## Tables -/

/-- A sequence of counts without the zeros at its end. -/
def dropFinalZeros (counts : List Nat) : List Nat :=
  (counts.reverse.dropWhile (· == 0)).reverse

/-- A table in which only the last of `size` symbols has a code, of one bit. -/
def loneTable (size : Nat) : CodeTable :=
  { words := (Array.replicate (size - 1) CodeWord.absent).push ⟨1, 0⟩ }

/-- The table for the counts of distance symbols. No distance needs no code, and one distance a
code of one bit. -/
def distTable (counts : List Nat) : Except Error CodeTable :=
  match counts.countP (0 < ·) with
  | 0 => .ok { words := #[CodeWord.absent] }
  | 1 => .ok (loneTable counts.length)
  | _ => CodeTable.ofWeights counts maxCodeLength

/-- How often each literal/length symbol occurs in a sequence of tokens. -/
def litlenCounts (tokens : List Token) : List Nat :=
  dropFinalZeros (tally 286 (tokens.map (·.symbol)))

/-- How often each distance symbol occurs in a sequence of tokens. -/
def distCounts (tokens : List Token) : List Nat :=
  dropFinalZeros (tally 30 (tokens.filterMap fun token =>
    if token.isCopy then some (distanceSymbol token.distance) else none))

/-- Tokens, which stand for the given bytes, under optimal tables. -/
def encode (tokens : List Token) (bytes : List UInt8) : Except Error CodedBlock := do
  let dist ← distTable (distCounts tokens)
  let litlen ← CodeTable.ofWeights (litlenCounts tokens) maxCodeLength
  let header ← TableHeader.pack litlen dist {}
  return ofCoding (.dynamic litlen dist header) tokens bytes

/-- The same tokens under optimal tables. -/
def recode (b : CodedBlock) : Except Error CodedBlock := encode b.tokens b.bytes

/-- Spells out the matches that save nothing, and derives optimal tables for what is left. -/
def recodePruned (b : CodedBlock) : Except Error CodedBlock := (b.expandMatches true).1.recode

/-- The same tokens under the fixed tables. -/
def toFixed (b : CodedBlock) : CodedBlock := ofCoding .fixed b.tokens b.bytes

/-- The dynamic block of the given tokens, which must close it. -/
def ofTokens (tokens : List Token) : Except Error CodedBlock :=
  match tokens.getLast? with
  | some .endOfBlock => encode tokens (tokenBytes tokens)
  | _ => .error (.internal .unterminatedTokens)

/-- The same bytes in a stored block, if it can hold them. -/
def toStored? (b : CodedBlock) : Option StoredBlock := (StoredBlock.ofBytes b.bytes).toOption

/-- Two blocks as one under optimal tables: the end of the first one goes. -/
def append (a b : CodedBlock) : Except Error CodedBlock :=
  encode (a.tokens.filter (fun token => !token matches .endOfBlock) ++ b.tokens)
    (a.bytes ++ b.bytes)

end CodedBlock

end DeflateRecoder
