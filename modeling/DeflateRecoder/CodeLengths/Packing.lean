import DeflateRecoder.CodeLengths.Symbol

/-!
# Packing code lengths

The code lengths of a header are packed run by run: `runs` splits them into runs of equal values
and `packRun` spells each run by symbols, as a `PackingRules` value allows. Zeros may be taken off
in long and short runs of zeros; what is left is spelled by one length and copies of it, or by
lengths alone. The rules decide which run symbols may be used and whether seven or eight copies
are split into two nearly equal parts.

`PackingRules.variants` lists the rules that are worth trying on a header.
-/

namespace DeflateRecoder

/-- What packing may do. -/
structure PackingRules where
  /-- Seven or eight copies may be split into two parts where `split8` and `split7` say so. -/
  combine : Bool := true
  /-- Eight copies are split into 4 and 4. -/
  split8 : Bool := true
  /-- Seven copies are split into 4 and 3. -/
  split7 : Bool := true
  /-- Eight copies are split into 5 and 3 instead. -/
  uneven8 : Bool := false
  /-- Copies are not used. -/
  noCopies : Bool := false
  /-- Short runs of zeros are not used. -/
  noZeros : Bool := false
  /-- Long runs of zeros are not used. -/
  noLongZeros : Bool := false
  deriving DecidableEq, Repr

namespace PackingRules

/-- Runs are cut from the front into the longest pieces there are. -/
def greedy : PackingRules := { combine := false, split8 := false, split7 := false }

/-- The rules with given run symbols: with copies, each way to split them before none at all. -/
def withRuns (noCopies noZeros noLongZeros : Bool) : List PackingRules :=
  let splits := if noCopies then [] else [(true, true), (true, false), (false, true)]
  splits.map (fun (split8, split7) =>
      { combine := true, split8, split7, uneven8 := false, noCopies, noZeros, noLongZeros })
    ++ [{ greedy with noCopies, noZeros, noLongZeros }]

/-- The rules worth trying on a header. -/
def variants : List PackingRules :=
  [false, true].flatMap fun noCopies =>
    [false, true].flatMap fun noZeros =>
      [false, true].flatMap fun noLongZeros => withRuns noCopies noZeros noLongZeros

end PackingRules

/-! ## Runs -/

/-- Puts a value in front of a sequence of runs. -/
def consRun (value : Nat) : List (Nat × Nat) → List (Nat × Nat)
  | [] => [(value, 1)]
  | (v, n) :: rest => if value = v then (v, n + 1) :: rest else (value, 1) :: (v, n) :: rest

/-- The values of a list with the number of times they stand side by side. -/
def runs (values : List Nat) : List (Nat × Nat) := values.foldr consRun []

/-- Cuts pieces of at most `most` off a run of `n` while it is at least `least` long. Returns the
pieces and the length of what is left. -/
def cut (least most n : Nat) : List Nat × Nat :=
  if 0 < least ∧ 0 < most ∧ least ≤ n then
    let (pieces, left) := cut least most (n - min n most)
    (min n most :: pieces, left)
  else ([], n)
termination_by n
decreasing_by omega

/-- The two parts into which `n` copies are split, if the rules split them. -/
def PackingRules.split? (rules : PackingRules) (n : Nat) : Option (Nat × Nat) :=
  if rules.combine && rules.split8 && n == 8 then some (if rules.uneven8 then (5, 3) else (4, 4))
  else if rules.combine && rules.split7 && n == 7 then some (4, 3)
  else none

/-- Cuts a run of `n` copies into pieces. Returns the pieces and the length of what is left. -/
def cutCopies (rules : PackingRules) (n : Nat) : List Nat × Nat :=
  match rules.split? n with
  | some (first, second) => ([first, second], 0)
  | none =>
    if 3 ≤ n then
      let (pieces, left) := cutCopies rules (n - min n 6)
      (min n 6 :: pieces, left)
    else ([], n)
termination_by n
decreasing_by omega

/-! ## Packing -/

/-- Spells a run by a length and copies of it where the rules allow copies, and by lengths where
they do not. -/
def packRepeats (rules : PackingRules) (value n : Nat) : List LengthSymbol :=
  if rules.noCopies || n == 0 then List.replicate n (.length value)
  else
    let (pieces, left) := cutCopies rules (n - 1)
    .length value :: pieces.map (.copy · value) ++ List.replicate left (.length value)

/-- Spells a run of equal code lengths. -/
def packRun (rules : PackingRules) : Nat × Nat → List LengthSymbol
  | (value, n) =>
    let (long, n) := if value == 0 && !rules.noLongZeros then cut 11 138 n else ([], n)
    let (short, n) := if value == 0 && !rules.noZeros then cut 3 10 n else ([], n)
    long.map .longZeros ++ short.map .zeros ++ packRepeats rules value n

/-- Spells code lengths. -/
def pack (rules : PackingRules) (lengths : List Nat) : List LengthSymbol :=
  (runs lengths).flatMap (packRun rules)

end DeflateRecoder
