import DeflateRecoder.Alphabet
import DeflateRecoder.Error
import DeflateRecoder.Total

/-!
# The window

Matches reach back into the bytes that came before them: those of their own block, and behind them
those of earlier blocks. A `Window` holds the earlier blocks, the newest first. Blocks out of reach
do no harm in it, and `Window.nearest` leaves them out. `resolve` finds the bytes of a match. They
start in the bytes known so far and, when the match is longer than its distance, go on with its own
bytes, so the bytes from the start of the match to its end are repeated for as long as it takes.
-/

namespace DeflateRecoder

/-- The bytes of earlier blocks. -/
structure Window where
  /-- The blocks, the newest first. -/
  blocks : List (Array UInt8)
  /-- The number of bytes in the blocks. -/
  available : Nat
  available_eq : available = total Array.size blocks

namespace Window

/-- The window of the given blocks, the newest first. -/
def ofNewest (blocks : List (Array UInt8)) : Window := ⟨blocks, total Array.size blocks, rfl⟩

/-- The window of a first block. -/
def empty : Window := ofNewest []

/-- Adds a block that came after those in the window. -/
def pushNewer (w : Window) (block : Array UInt8) : Window :=
  ⟨block :: w.blocks, block.size + w.available, by rw [total_cons, w.available_eq]⟩

/-- Adds a block that came before those in the window. -/
def pushOlder (w : Window) (block : Array UInt8) : Window :=
  ⟨w.blocks ++ [block], w.available + block.size, by simp [w.available_eq]⟩

/-- No match can reach beyond the window. -/
def isFull (w : Window) : Bool := maxDistance ≤ w.available

/-- The newest of the given blocks, as many as matches can reach when `held` bytes are newer. -/
def reachable (held : Nat) : List (Array UInt8) → List (Array UInt8)
  | [] => []
  | block :: older =>
    if maxDistance ≤ held then [] else block :: reachable (held + block.size) older

/-- The window without the blocks that are out of reach. -/
def nearest (w : Window) : Window := ofNewest (reachable 0 w.blocks)

/-- The window over the given blocks, the oldest first. -/
def ofBlocks (blocks : List (Array UInt8)) : Window := ofNewest (reachable 0 blocks.reverse)

end Window

/-- At most `count` bytes from `back` bytes before the end of the blocks on, the newest block
given first. -/
def slice : List (Array UInt8) → Nat → Nat → List UInt8
  | [], _, _ => []
  | block :: older, back, count =>
    if back ≤ block.size then
      (block.extract (block.size - back) (block.size - back + count)).toList
    else
      let before := slice older (back - block.size) count
      before ++ (block.extract 0 (count - before.length)).toList

/-- At most `count` bytes from `back` bytes before the end of the window on. -/
def Window.tail (w : Window) (back count : Nat) : Except Error (List UInt8) :=
  if w.available < back then .error (.internal (.windowTooShort w.available back))
  else .ok (slice w.blocks back count)

/-- The first `n` elements of a byte sequence that repeats `period` forever. -/
def cycle (period : List UInt8) (n : Nat) : List UInt8 :=
  let p := period.toArray
  (List.range n).map fun i => p.getD (i % p.size) 0

/-- At most `count` bytes from `distance` bytes before the end of `current` on, where the window is
what came before `current`. -/
def reached (current : Array UInt8) (w : Window) (distance count : Nat) :
    Except Error (List UInt8) :=
  if distance ≤ current.size then
    .ok (current.extract (current.size - distance) (current.size - distance + count)).toList
  else do
    let before ← w.tail (distance - current.size) count
    return before ++ (current.extract 0 (count - before.length)).toList

/-- The bytes of a match, where `current` is what its block has decoded so far. -/
def resolve (current : Array UInt8) (w : Window) (distance length : Nat) :
    Except Error (List UInt8) :=
  let available := current.size + w.available
  if distance = 0 ∨ available < distance ∨ maxDistance < distance then
    .error (.distanceTooFar distance available)
  else do
    let period ← reached current w distance (min distance length)
    return cycle period length

end DeflateRecoder
