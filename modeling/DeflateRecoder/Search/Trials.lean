import DeflateRecoder.Block.Basic
import DeflateRecoder.Event

/-!
# Candidates for a block

`Block.trials` lists every candidate that is weighed against a block, in the order in which they
are weighed. Each is made from the block by operations that keep its bytes: new tables, fewer
matches, other headers, the fixed tables, or the bytes as they are. A header is packed by every
rule that the search is given, with and without its runs that save nothing (`headerTrials`), and
this is repeated for each choice of tables.
-/

namespace DeflateRecoder

/-- A candidate, or the reason why one could not be made. -/
inductive Trial
  /-- A candidate. -/
  | offer (attempt : Attempt) (block : Block)
  /-- No candidate. -/
  | failed (reason : Event)
  deriving Repr

/-- What is told about a trial for a block at bit `position`. -/
def Trial.event (position : Nat) : Trial → Event
  | offer attempt block => .candidate attempt (block.bitSize position)
  | failed reason => reason

/-- What follows from a result, and nothing from a failure. -/
def trialsOf {α : Type} (result : Except Error α) (trials : α → List Trial) : List Trial :=
  match result with
  | .ok a => trials a
  | .error _ => []

namespace CodedBlock

/-- Spells out matches that save nothing and derives optimal tables, for as long as the block
becomes smaller by it. -/
def shrink (b : CodedBlock) : Except Error CodedBlock :=
  match b.recodePruned with
  | .error e => .error e
  | .ok next => if next.bitSize < b.bitSize then next.shrink else .ok b
termination_by b.bitSize

/-- The candidate with a newly packed header, if packing it succeeded. -/
def headerTrial : Except Error CodedBlock → Trial
  | .ok b => .offer .header (.coded b.tidyHeader.1)
  | .error e => .failed (.skipped .header e)

/-- The block with its header packed by each rule, with and without the runs that save nothing. -/
def headerTrials (rules : List PackingRules) (b : CodedBlock) : List Trial :=
  match b.coding with
  | .fixed => []
  | .dynamic .. => rules.flatMap fun rule =>
    let packed := b.packHeader rule
    [headerTrial packed, headerTrial (packed.bind pruneHeader)]

/-- Header trials for the block's own tables, for optimal ones, and for optimal ones with fewer
matches. -/
def tableTrials (rules : List PackingRules) (b : CodedBlock) : List Trial :=
  b.tidy.1.headerTrials rules
    ++ trialsOf b.recode (fun recoded => recoded.tidy.1.headerTrials rules)
    ++ trialsOf b.recodePruned fun pruned =>
      pruned.tidy.1.headerTrials rules
        ++ trialsOf pruned.shrink fun least =>
          if least.bitSize < pruned.bitSize then least.tidy.1.headerTrials rules else []

/-- The block with a header of optimal code, with one without needless runs, and without one of its
length symbols. -/
def refinements (rules : List PackingRules) (b : CodedBlock) : List Trial :=
  trialsOf b.recodeHeader (fun recoded =>
      .offer .recodedHeader (.coded recoded)
        :: .offer .recodedHeaderTidied (.coded recoded.tidy.1)
        :: recoded.tableTrials rules)
    ++ trialsOf b.pruneHeader (fun pruned =>
      .offer .prunedHeader (.coded pruned)
        :: .offer .prunedHeaderTidied (.coded pruned.tidy.1)
        :: pruned.tableTrials rules)
    ++ b.withoutLengths.flatMap (tableTrials rules)

/-- The block and its refinements, under its own tables, under optimal ones, and under optimal ones
with fewer matches. -/
def family (rules : List PackingRules) (b : CodedBlock) : List Trial :=
  .offer .base (.coded b) :: b.refinements rules
    ++ trialsOf b.recode (fun recoded =>
      .offer .recoded (.coded recoded) :: recoded.refinements rules)
    ++ trialsOf b.recodePruned fun pruned =>
      .offer .fewerMatches (.coded pruned) :: pruned.refinements rules
        ++ trialsOf pruned.shrink fun least =>
          if least.bitSize < pruned.bitSize then
            .offer .fewestMatches (.coded least) :: least.refinements rules
          else []

/-- The families of a block with tables of its own: its own, that of the block made smaller
without new tables, the fixed tables where they are new, and the families without one of the
length symbols. -/
def families (rules : List PackingRules) (triesFixed : Bool) (base tidied : CodedBlock) :
    List Trial :=
  base.family rules ++ tidied.family rules
    ++ (if triesFixed then [.offer .fixed (.coded base.toFixed)] else [])
    ++ base.withoutLengths.flatMap (family rules)

/-- All candidates for a coded block. -/
def trials (rules : List PackingRules) (b : CodedBlock) : List Trial :=
  let (tidied, saved) := b.tidy
  (if 0 < saved then [.offer .tidied (.coded tidied)] else [])
    ++ b.toStored?.elim [] (fun s => [.offer .uncompressed (.stored s)])
    ++ match b.coding with
      | .dynamic .. => families rules true b tidied
      | .fixed =>
        match b.recode with
        | .ok base => families rules false base base.tidy.1
        | .error e => [.failed (.codedRefused e)]

end CodedBlock

/-- All candidates for a stored block: its bytes as literals. -/
def StoredBlock.trials (rules : List PackingRules) (b : StoredBlock) : List Trial :=
  match CodedBlock.ofTokens (b.bytes.map Token.literal ++ [.endOfBlock]) with
  | .ok base =>
    .offer .fixed (.coded base.toFixed) :: .offer .literals (.coded base)
      :: base.refinements rules
  | .error e => [.failed (.storedRefused e)]

/-- All candidates for a block. -/
def Block.trials (rules : List PackingRules) : Block → List Trial
  | stored b => b.trials rules
  | coded b => b.trials rules

end DeflateRecoder
