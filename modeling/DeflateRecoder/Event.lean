import DeflateRecoder.Error

/-!
# Events

What happens while a stream is read and made smaller is told as a list of `Event`s, in the order in
which it happens. `Event.message` words an event and `Event.level` says how much of a detail it is,
so that a log shows the events from some level on (`logLines`).
-/

namespace DeflateRecoder

/-- How a candidate for a block was made. -/
inductive Attempt
  /-- The block itself without new tables, made smaller. -/
  | tidied
  /-- Its bytes in a stored block. -/
  | uncompressed
  /-- A block from which others are made. -/
  | base
  /-- A header with an optimal code. -/
  | recodedHeader
  /-- A header with an optimal code, made smaller. -/
  | recodedHeaderTidied
  /-- A header with an optimal code and without runs that save nothing. -/
  | prunedHeader
  /-- The same, made smaller. -/
  | prunedHeaderTidied
  /-- A newly packed header. -/
  | header
  /-- Optimal tables. -/
  | recoded
  /-- Optimal tables for the matches that save something. -/
  | fewerMatches
  /-- The same, repeated for as long as it helps. -/
  | fewestMatches
  /-- The fixed tables. -/
  | fixed
  /-- Optimal tables for the bytes of a stored block. -/
  | literals
  deriving DecidableEq, Repr

/-- The label of a candidate. -/
def Attempt.label : Attempt → String
  | tidied => "optimised"
  | uncompressed => "uncompressed"
  | base => "base"
  | recodedHeader => "recoded header"
  | recodedHeaderTidied => "recoded header, optimised"
  | prunedHeader => "pruned header"
  | prunedHeaderTidied => "pruned header, optimised"
  | header => "header"
  | recoded => "recoded"
  | fewerMatches => "recoded, fewer matches"
  | fewestMatches => "recoded, fewest matches"
  | fixed => "fixed"
  | literals => "literals"

/-- Something that happens while a stream is read and made smaller. -/
inductive Event
  /-- A candidate of this size was found for a block. -/
  | candidate (attempt : Attempt) (bits : Nat)
  /-- A candidate could not be made. -/
  | skipped (attempt : Attempt) (error : Error)
  /-- A fixed block could not be given tables of its own. -/
  | codedRefused (error : Error)
  /-- The bytes of a stored block could not be given tables. -/
  | storedRefused (error : Error)
  /-- Two blocks could not be made one. -/
  | mergeRefused (error : Error)
  /-- A block was replaced by a smaller one. -/
  | replaced (index old new : Nat)
  /-- A block without bytes was removed. -/
  | removed (index bits : Nat)
  /-- A block and the one behind it were replaced by one block. -/
  | merged (index old new : Nat)
  /-- All blocks were visited. -/
  | passFinished (pass : Nat) (changed : Bool)
  /-- A stream of this name was read. -/
  | parsed (name : String) (blocks bits : Nat)
  /-- A stream of this name was made smaller. -/
  | saved (name : String) (bits passes : Nat)
  /-- The input is no stream. -/
  | inputRefused (error : Error)
  /-- The smaller stream does not stand for the bytes of the input. -/
  | outputRefused (error : Error)
  deriving DecidableEq, Repr

/-- How much of a detail an event is. -/
inductive Level
  /-- Something did not go as it should. -/
  | warn
  /-- A step was taken. -/
  | debug
  /-- A step was considered. -/
  | trace
  deriving DecidableEq, Repr

namespace Level

/-- The word for a level. -/
def name : Level → String
  | warn => "WARN"
  | debug => "DEBUG"
  | trace => "TRACE"

/-- The position of a level, from the most important on. -/
def rank : Level → Nat
  | warn => 0
  | debug => 1
  | trace => 2

end Level

namespace Event

/-- How much of a detail an event is. -/
def level : Event → Level
  | candidate .. | skipped .. | codedRefused _ | storedRefused _ | mergeRefused _ => .trace
  | replaced .. | removed .. | merged .. | passFinished .. | parsed .. | saved .. => .debug
  | inputRefused _ | outputRefused _ => .warn

/-- The wording of an event in the log of the given name. -/
def message (name : String) : Event → String
  | candidate attempt bits => s!"{name}: candidate {attempt.label}: {bits} bits"
  | skipped attempt error => s!"candidate {attempt.label} skipped: {error.message}"
  | codedRefused error => s!"block cannot be recoded: {error.message}"
  | storedRefused error => s!"stored block cannot be recoded: {error.message}"
  | mergeRefused error => s!"merge skipped: {error.message}"
  | replaced index old new => s!"{name}: block {index} re-encoded, {old} -> {new} bits"
  | removed index bits => s!"{name}: empty block {index} removed, {bits} bits"
  | merged index old new =>
    s!"{name}: blocks {index} and {index + 1} merged, {old} -> {new} bits"
  | passFinished pass changed => s!"{name}: pass {pass} finished, changed: {changed}"
  | parsed stream blocks bits => s!"{stream}: parsed {blocks} blocks, {bits} bits"
  | saved stream bits passes => s!"{stream}: saved {bits} bits in {passes} passes"
  | inputRefused error => s!"input does not parse, left unchanged: {error.message}"
  | outputRefused error => s!"optimised stream rejected: {error.message}"

end Event

/-- The events of a log that are no more of a detail than `level`, each with its level. -/
def logLines (level : Level) (name : String) (events : List Event) : List (Level × String) :=
  (events.filter fun e => e.level.rank ≤ level.rank).map fun e => (e.level, e.message name)

end DeflateRecoder
