import DeflateRecoder.Search.Trials

/-!
# The best candidate for a block

`search` weighs the candidates of a block at the bit where it starts. What it finds is strictly
smaller than the block, and that is part of its type, so that whoever replaces blocks by what was
found comes to an end. `mergeBlocks` looks for one block in the place of two.
-/

namespace DeflateRecoder

/-- What the search may do. -/
structure Config where
  /-- Neighbouring blocks may become one. -/
  merge : Bool := true
  /-- Headers are packed by all rules, or else by the default ones alone. -/
  exhaustive : Bool := true
  /-- After this many passes the search ends, or with 0 when a pass changes nothing. -/
  maxPasses : Nat := 0
  /-- How many streams are worked on at a time, or with 0 as many as there are processors. -/
  threads : Nat := 0
  deriving DecidableEq, Repr

/-- The rules by which headers are packed. -/
def Config.rules (config : Config) : List PackingRules :=
  if config.exhaustive then PackingRules.variants else [{}]

/-- A block smaller than another one at the same place. -/
abbrev Smaller (block : Block) (position : Nat) :=
  { b : Block // b.bitSize position < block.bitSize position }

/-- The candidate of a trial, if it is smaller than the block. -/
def Trial.smaller? (block : Block) (position : Nat) : Trial → Option (Smaller block position)
  | offer _ b => if h : b.bitSize position < block.bitSize position then some ⟨b, h⟩ else none
  | failed _ => none

/-- The smallest candidate that is smaller than the block, the first one where there are
several. -/
def best? (block : Block) (position : Nat) (trials : List Trial) :
    Option (Smaller block position) :=
  (trials.filterMap (Trial.smaller? block position)).minOn? (·.1.bitSize position)

/-- Looks for a smaller block in the place of one whose body starts at bit `position`. Returns what
happened as well. -/
def search (config : Config) (block : Block) (position : Nat) :
    List Event × Option (Smaller block position) :=
  let trials := block.trials config.rules
  (trials.map (Trial.event position), best? block position trials)

/-- One block with the bytes of two of the same sort. -/
def Block.append? : Block → Block → Option (Except Error Block)
  | coded a, coded b => some ((a.append b).map coded)
  | stored a, stored b => (a.append? b).map fun joined => .ok (stored joined)
  | _, _ => none

/-- Looks for one block in the place of two, of which the body of the first starts at bit
`position`. It must be smaller than the two and the opening bits between them. Returns what happened
as well. -/
def mergeBlocks (config : Config) (first second : Block) (position : Nat) :
    List Event × Option Block :=
  match first.append? second with
  | none => ([], none)
  | some (.error e) => ([.mergeRefused e], none)
  | some (.ok joined) =>
    let (events, found) := search config joined position
    let merged := found.elim joined (·.1)
    let separate := second.endOf (position + first.bitSize position) - position
    (events, if merged.bitSize position < separate then some merged else none)

end DeflateRecoder
