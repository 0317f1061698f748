import DeflateRecoder.Block.Coded.Basic

/-!
# Giving up matches

These operations change the tokens of a block and keep its tables: `expandMatches` spells out
matches that cost more than their bytes, and `dropLength?` gives up one length symbol.
-/

namespace DeflateRecoder

/-- Whether a length symbol is given up for its cost or for its rarity. -/
inductive DropMode
  /-- The symbol whose matches save the least over their bytes goes. -/
  | cheapest
  /-- The symbol with the fewest matches goes. -/
  | rarest
  deriving DecidableEq, Repr

/-- What giving up a length symbol would mean. -/
structure LengthUse where
  /-- The symbol. -/
  symbol : Nat
  /-- By how many bits the tokens would grow. -/
  growth : Int
  /-- How many matches have the symbol. This is an exact count like those of a `tally`, and at most
  the number of tokens. -/
  matchCount : Nat
  deriving Repr

/-- What is weighed when a length symbol is given up. -/
def DropMode.key : DropMode → LengthUse → Int
  | .cheapest, use => use.growth
  | .rarest, use => use.matchCount

namespace CodedBlock

/-! ## The cost of literals -/

/-- Adds the size in bits of bytes written as literals to `bits`, if each has a code. -/
def addLiteralCost? (litlen : CodeTable) (bits : Nat) : List UInt8 → Option Nat
  | [] => some bits
  | byte :: bytes =>
    let width := litlen.lengthOf byte.toNat
    if width = 0 then none else addLiteralCost? litlen (bits + width) bytes

/-- The size in bits of bytes written as literals, if each has a code. -/
def literalCost? (litlen : CodeTable) (bytes : List UInt8) : Option Nat :=
  addLiteralCost? litlen 0 bytes

/-- Adds the size in bits of bytes written as literals to `bits`, if each has a code and the sum does
not exceed `most`. -/
def addLiteralCostWithin? (litlen : CodeTable) (most bits : Nat) : List UInt8 → Option Nat
  | [] => if bits ≤ most then some bits else none
  | byte :: bytes =>
    let width := litlen.lengthOf byte.toNat
    if width = 0 || most < bits then none
    else addLiteralCostWithin? litlen most (bits + width) bytes

/-- A sum of literals is no smaller than what it began with. -/
theorem le_of_addLiteralCost? {litlen : CodeTable} {bits sum : Nat} {bytes : List UInt8}
    (h : addLiteralCost? litlen bits bytes = some sum) : bits ≤ sum := by
  induction bytes generalizing bits with
  | nil => exact Nat.le_of_eq (Option.some.inj h)
  | cons byte bytes ih =>
    simp only [addLiteralCost?] at h
    split at h
    · cases h
    · exact Nat.le_trans (Nat.le_add_right _ _) (ih h)

/-- The bounded sum is the sum, where that is within the bound. -/
theorem addLiteralCostWithin?_eq (litlen : CodeTable) (most bits : Nat) (bytes : List UInt8) :
    addLiteralCostWithin? litlen most bits bytes =
      (addLiteralCost? litlen bits bytes).filter (· ≤ most) := by
  induction bytes generalizing bits with
  | nil => simp [addLiteralCostWithin?, addLiteralCost?, Option.filter]
  | cons byte bytes ih =>
    simp only [addLiteralCostWithin?, addLiteralCost?]
    by_cases hw : litlen.lengthOf byte.toNat = 0
    · simp [hw]
    · by_cases hm : most < bits
      · simp only [hw, hm, decide_false, decide_true, Bool.or_true, if_true, if_false]
        cases hs : addLiteralCost? litlen (bits + litlen.lengthOf byte.toNat) bytes with
        | none => rfl
        | some sum =>
          have := le_of_addLiteralCost? hs
          simp only [Option.filter]
          rw [if_neg (by simp; omega)]
      · simp only [hw, hm, decide_false, Bool.or_false, Bool.false_eq_true, if_false]
        exact ih _

/-! ## Spelling out matches -/

/-- What a match costs and what its bytes would cost as literals, if writing them so is possible
and cheaper, or with `ties` as cheap. -/
def expansion? (litlen dist : CodeTable) (ties : Bool) (token : Token) : Option (Nat × Nat) :=
  if token.isCopy then
    let cost := token.cost litlen dist
    (addLiteralCostWithin? litlen cost 0 token.bytes).bind fun total =>
      if total < cost || ties then some (cost, total) else none
  else none

/-- The literals that spell out a token. -/
def spell (token : Token) : List Token := token.bytes.map .literal

/-- The tokens in the place of one when matches are spelled out. -/
def spellMatch (litlen dist : CodeTable) (ties : Bool) (token : Token) : List Token :=
  if (expansion? litlen dist ties token).isSome then spell token else [token]

/-- Spells out the matches that cost more than their bytes as literals, with `ties` also those that
cost the same. Returns the bits saved as well. -/
def expandMatches (ties : Bool) (b : CodedBlock) : CodedBlock × Nat :=
  let worth := expansion? b.litlen b.dist ties
  if b.tokens.any fun token => (worth token).isSome then
    let tokens := b.tokens.flatMap (spellMatch b.litlen b.dist ties)
    let sizes := b.tokens.foldl (saveStep worth) (b.tokenBits, 0)
    ({ b with tokens, tokenBits := sizes.1 }, sizes.2)
  else (b, 0)

/-! ## Giving up length symbols -/

/-- The length symbol of each match, with what the match's bytes would cost over it if they can be
written as literals. -/
def matchGrowths (b : CodedBlock) : List (Nat × Option Int) :=
  b.tokens.filterMap fun token =>
    if token.isCopy then
      some (token.symbol, (literalCost? b.litlen token.bytes).map fun total =>
        (total : Int) - token.cost b.litlen b.dist)
    else none

/-- The use of one length symbol, if it has matches and all of them can be written as literals. -/
def lengthUse? (growths : List (Nat × Option Int)) (symbol : Nat) : Option LengthUse :=
  match growths.filterMap fun (s, growth) => if s = symbol then some growth else none with
  | [] => none
  | mine => (mine.mapM id).map fun growths => ⟨symbol, growths.foldl (· + ·) 0, growths.length⟩

/-- The length symbols that can be given up, in increasing order. The fixed tables have a code for
every symbol whether it is used or not, so there it would gain nothing. -/
def droppable (b : CodedBlock) : List LengthUse :=
  match b.coding with
  | .fixed => []
  | .dynamic .. =>
    let growths := b.matchGrowths
    (List.range lengthBands.size).filterMap fun i => lengthUse? growths (firstLengthSymbol + i)

/-- Gives up a length symbol: its matches are spelled out, and the tables stay. -/
def giveUp (b : CodedBlock) (use : LengthUse) : CodedBlock :=
  { b with
    tokens := b.tokens.flatMap fun token =>
      if token.isCopy && token.symbol == use.symbol then spell token else [token]
    tokenBits := ((b.tokenBits : Int) + use.growth).toNat }

/-- Gives up the length symbol of least weight, the lowest one where there are several. The symbols
that can be given up are `uses`. -/
def dropFrom? (uses : List LengthUse) (b : CodedBlock) (mode : DropMode) : Option CodedBlock :=
  (uses.minOn? mode.key).map b.giveUp

/-- Gives up the length symbol of least weight. -/
def dropLength? (b : CodedBlock) (mode : DropMode) : Option CodedBlock := b.dropFrom? b.droppable mode

/-- The block without the length symbol of least cost, and without the rarest one. -/
def withoutLengths (b : CodedBlock) : List CodedBlock :=
  let uses := b.droppable
  [DropMode.cheapest, .rarest].filterMap (b.dropFrom? uses)

end CodedBlock

end DeflateRecoder
