import DeflateRecoder.Block.Coded.Basic

/-!
# Reading and writing coded blocks

`CodedBlock.write` writes header and tokens, and `CodedBlock.read` reads them back. While tokens are
read, the bits they take are added up to the size that the block keeps. Every token takes a bit at
least (`readToken_consumes`), so that reading ends.
-/

namespace DeflateRecoder

namespace CodedBlock

/-! ## Writing -/

/-- Writes the body of the block. -/
def write (b : CodedBlock) (w : BitWriter) : Except Error BitWriter := do
  let w ← match b.header? with
    | some header => header.write w
    | none => pure w
  b.tokens.foldlM (fun w token => token.write b.litlen b.dist w) w

/-! ## Reading -/

/-- Reads a distance: its symbol, and the bits behind that. Returns the number of bits it took as
well. -/
def readDistance (dist : Decoder) : Parser (Nat × Nat) := do
  let far ← dist.read
  match distanceBand? far.symbol with
  | none => throw (.invalidDistanceCode far.symbol)
  | some band =>
    let extra ← BitReader.readBits band.extraBits
    match decodeDistance? far.symbol extra with
    | none => throw (.invalidDistanceCode far.symbol)
    | some distance => return (distance, far.width + band.extraBits)

/-- Reads the rest of a match that the given length symbol opens. Returns the number of bits it
took as well. -/
def readMatch (dist : Decoder) (window : Window) (current : Array UInt8) (symbol : Nat)
    (band : Band) : Parser (Token × Nat) := do
  let extra ← BitReader.readBits band.extraBits
  match decodeLength? symbol extra with
  | none => throw (.invalidLengthCode symbol)
  | some length =>
    let (distance, behind) ← readDistance dist
    let bytes ← Parser.ofExcept (resolve current window distance length)
    return (.copy length distance bytes, band.extraBits + behind)

/-- Reads a token, where `current` is what the block has decoded so far. Returns the number of bits
it took as well. -/
def readToken (litlen dist : Decoder) (window : Window) (current : Array UInt8) :
    Parser (Token × Nat) := do
  let ⟨symbol, width⟩ ← litlen.read
  if symbol < 256 then return (.literal symbol.toUInt8, width)
  else if symbol = endSymbol then return (.endOfBlock, width)
  else
    match lengthBand? symbol with
    | some band =>
      let (token, behind) ← readMatch dist window current symbol band
      return (token, width + behind)
    | none => throw (.invalidLengthCode symbol)

/-- A distance takes a bit or more. -/
theorem readDistance_consumes (dist : Decoder) : (readDistance dist).Consumes 1 := by
  refine .bind_left dist.read_consumes fun far => ?_
  split
  · exact .throw _
  · refine .bind_left (.of_le (.readBits _) (Nat.zero_le _)) fun extra => ?_
    split
    · exact .throw _
    · exact .pure _

/-- The rest of a match gives no bits back. That it takes some does not matter, since its length
symbol did. -/
theorem readMatch_consumes (dist : Decoder) (window : Window) (current : Array UInt8)
    (symbol : Nat) (band : Band) : (readMatch dist window current symbol band).Consumes 0 := by
  refine .bind_left (.of_le (.readBits _) (Nat.zero_le _)) fun extra => ?_
  split
  · exact .throw _
  · exact .bind_left (.of_le (readDistance_consumes dist) (Nat.zero_le _)) fun _ =>
      .bind_left (.ofExcept _) fun _ => .pure _

/-- A token takes a bit or more. -/
theorem readToken_consumes (litlen dist : Decoder) (window : Window) (current : Array UInt8) :
    (readToken litlen dist window current).Consumes 1 := by
  refine .bind_left litlen.read_consumes fun symbol => ?_
  obtain ⟨symbol, _⟩ := symbol
  dsimp only
  refine .ite (.pure _) (.ite (.pure _) ?_)
  split
  · exact .bind_left (readMatch_consumes _ _ _ _ _) fun _ => .pure _
  · exact .throw _

/-- Reads tokens up to the end of the block. `before` holds the tokens so far, the last one first,
`current` their bytes and `bits` the number of bits they took. Returns the tokens with the number of
bits they all took and their bytes. -/
def readTokens (litlen dist : Decoder) (window : Window) (current : Array UInt8)
    (before : List Token) (bits : Nat) : Parser (List Token × Nat × List UInt8) := fun r =>
  match _ : readToken litlen dist window current r with
  | .error e r => .error e r
  | .ok (.endOfBlock, width) r =>
    .ok ((Token.endOfBlock :: before).reverse, bits + width, current.toList) r
  | .ok (token, width) r =>
    readTokens litlen dist window (current.appendList token.bytes) (token :: before) (bits + width) r
termination_by r => r.remaining
decreasing_by exact readToken_consumes _ _ _ _ ‹_›

/-- The decoders of the fixed tables. -/
def fixedDecoders : Decoder × Decoder :=
  (Decoder.ofTable CodeTable.fixedLitlen, Decoder.ofTable CodeTable.fixedDist)

/-- The decoders of the tables of a block. -/
def decoders : Coding → Decoder × Decoder
  | .fixed => fixedDecoders
  | .dynamic litlen dist _ => (Decoder.ofTable litlen, Decoder.ofTable dist)

/-- Reads the tables of a block of the given kind, which must be a coded one. -/
def readCoding : BlockKind → Parser Coding
  | .stored => throw (.internal .notCoded)
  | .fixed => pure .fixed
  | .dynamic => do
    let header ← TableHeader.read
    let litlen ← Parser.ofExcept (CodeTable.ofLengths? header.lengths.1)
    let dist ← Parser.ofExcept (CodeTable.ofLengths? header.lengths.2)
    return .dynamic litlen dist header

/-- Reads the body of a block of the given kind behind the bytes of a window. -/
def read (kind : BlockKind) (window : Window) : Parser CodedBlock := do
  let coding ← readCoding kind
  let (tokens, tokenBits, bytes) ← readTokens (decoders coding).1 (decoders coding).2 window #[] [] 0
  return { coding, tokens, tokenBits, bytes }

/-- Tokens give no bits back, by induction on the tokens that are read. -/
theorem readTokens_consumes (litlen dist : Decoder) (window : Window) (current : Array UInt8)
    (before : List Token) (bits : Nat) :
    (readTokens litlen dist window current before bits).Consumes 0 := by
  intro r tokens r' e
  fun_induction readTokens litlen dist window current before bits r with
  | case1 => cases e
  | case2 current before bits r width r₁ h =>
    cases e
    exact Nat.le_trans (Nat.le_succ _) (readToken_consumes _ _ _ _ h)
  | case3 current before bits r token width r₁ _ h ih =>
    have h₁ := ih e
    have h₂ := readToken_consumes _ _ _ _ h
    omega

/-- Reading tables gives no bits back. -/
theorem readCoding_consumes (kind : BlockKind) : (readCoding kind).Consumes 0 := by
  cases kind with
  | stored => exact .throw _
  | fixed => exact .pure _
  | dynamic =>
    exact .bind_left TableHeader.read_consumes fun _ => .bind_left (.ofExcept _) fun _ =>
      .bind_left (.ofExcept _) fun _ => .pure _

/-- The body of a coded block gives no bits back. -/
theorem read_consumes (kind : BlockKind) (window : Window) : (read kind window).Consumes 0 :=
  .bind_left (readCoding_consumes kind) fun _ =>
    .bind_left (readTokens_consumes _ _ _ _ _ _) fun _ => .pure _

end CodedBlock

end DeflateRecoder
