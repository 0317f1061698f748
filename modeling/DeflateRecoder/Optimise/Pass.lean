import DeflateRecoder.Search.Best
import DeflateRecoder.Stream.Basic

/-!
# Passes over a stream

A pass visits the blocks of a stream from left to right (`visit`). A block without bytes goes,
unless it is the only one. A block for which the search finds a smaller one is replaced and visited
again; a block that can be merged with the one behind it is merged and visited again; any other
block stays as it is. Passes are repeated until one changes nothing (`settle`).

The size of the stream does not tell that this ends, since the padding of a later stored block can
swallow what was saved. What does become smaller with every change is the number of blocks or,
while that stays, the sum of the bits at which the blocks end (`visit_entries_lighter`).
-/

namespace DeflateRecoder

/-! ## One pass -/

/-- What a pass over some blocks leads to. -/
structure Pass where
  /-- The blocks afterwards. -/
  entries : List Entry
  /-- Whether anything was changed. -/
  changed : Bool
  /-- What happened. -/
  events : List Event

namespace Pass

/-- A pass that began with a change. -/
def afterChange (events : List Event) (p : Pass) : Pass :=
  { p with changed := true, events := events ++ p.events }

/-- A pass that began by leaving a block as it is. -/
def afterKeeping (e : Entry) (events : List Event) (p : Pass) : Pass :=
  { p with entries := e :: p.entries, events := events ++ p.events }

end Pass

/-- Looks for one block in the place of a block and the first of those behind it. Returns the block
and the entries that are then behind it. -/
def mergeFront (config : Config) (first : Block) (start : Nat) : (behind : List Entry) →
    List Event × Option (Block × { rest : List Entry // rest.length < behind.length })
  | [] => ([], none)
  | second :: rest =>
    if config.merge then
      let (events, found) := mergeBlocks config first second.block start
      (events, found.map fun merged => (merged, ⟨rest, Nat.lt_succ_self _⟩))
    else ([], none)

/-- The size of the first of the blocks that open at bit `position`. -/
def frontSize (position : Nat) : List Entry → Nat
  | [] => 0
  | e :: _ => e.block.bitSize (position + openingBits)

/-- Visits blocks, of which the first opens at bit `position` behind `index` others. -/
def visit (config : Config) (index position : Nat) : List Entry → Pass
  | [] => ⟨[], false, []⟩
  | e :: behind =>
    let start := position + openingBits
    let size := e.block.bitSize start
    if e.block.isEmpty && (index != 0 || !behind.isEmpty) then
      (visit config index position behind).afterChange [.removed index (openingBits + size)]
    else
      match search config e.block start with
      | (events, some ⟨better, _⟩) =>
        (visit config index position (⟨e.id, better⟩ :: behind)).afterChange
          (events ++ [.replaced index size (better.bitSize start)])
      | (events, none) =>
        match mergeFront config e.block start behind with
        | (further, some (merged, ⟨rest, _⟩)) =>
          (visit config index position (⟨e.id, merged⟩ :: rest)).afterChange
            (events ++ further ++ [.merged index size (merged.bitSize start)])
        | (further, none) =>
          (visit config (index + 1) (start + size) behind).afterKeeping e (events ++ further)
termination_by entries => (entries.length, frontSize position entries)
decreasing_by
  · exact .left _ _ (Nat.lt_succ_self _)
  · exact .right _ ‹_›
  · exact .left _ _ (Nat.succ_lt_succ ‹_›)
  · exact .left _ _ (Nat.lt_succ_self _)

/-! ## What becomes smaller -/

/-- The sum of the bits at which blocks end, the first of which opens at bit `position`. -/
def endSum (position : Nat) : List Entry → Nat
  | [] => 0
  | e :: rest =>
    let stop := e.block.endOf position
    stop + endSum stop rest

/-- Blocks that open earlier end earlier or at the same bits. -/
theorem endSum_mono (entries : List Entry) {p q : Nat} (h : p ≤ q) :
    endSum p entries ≤ endSum q entries := by
  induction entries generalizing p q with
  | nil => exact Nat.le_refl _
  | cons e rest ih =>
    have := Block.endOf_mono h e.block
    have := ih this
    simp only [endSum]
    omega

/-- There are fewer blocks, or as many and they end earlier. -/
def Lighter (position : Nat) (a b : List Entry) : Prop :=
  a.length < b.length ∨ a.length = b.length ∧ endSum position a < endSum position b

/-- A pass that changes something leads to lighter blocks, and one that does not leads to the
same. -/
def Pass.Sound (position : Nat) (entries : List Entry) (p : Pass) : Prop :=
  if p.changed then Lighter position p.entries entries else p.entries = entries

/-- A sound pass leaves no more blocks than there were. -/
theorem Pass.Sound.length_le {position : Nat} {entries : List Entry} {p : Pass}
    (h : p.Sound position entries) : p.entries.length ≤ entries.length := by
  unfold Sound Lighter at h
  split at h
  · omega
  · exact Nat.le_of_eq (congrArg List.length h)

/-- A change to lighter blocks before a sound pass. -/
theorem Pass.Sound.afterChange {position : Nat} {a b : List Entry} {p : Pass}
    (h : p.Sound position a) (hab : Lighter position a b) (events : List Event) :
    (p.afterChange events).Sound position b := by
  simp only [Sound, Pass.afterChange, if_true]
  unfold Sound at h
  split at h
  · unfold Lighter at h hab ⊢; omega
  · rw [h]; exact hab

/-- A block that stays as it is before a sound pass. -/
theorem Pass.Sound.afterKeeping {position : Nat} {e : Entry} {entries : List Entry} {p : Pass}
    (h : p.Sound (e.block.endOf position) entries) (events : List Event) :
    (p.afterKeeping e events).Sound position (e :: entries) := by
  unfold Sound at h ⊢
  simp only [Pass.afterKeeping]
  split at h
  · simp_all only [Lighter, List.length_cons, endSum, if_true]; omega
  · simp_all

/-- A pass is sound: each step leads to lighter blocks or leaves the one at hand alone. -/
theorem visit_sound (config : Config) (index position : Nat) (entries : List Entry) :
    (visit config index position entries).Sound position entries := by
  fun_induction visit config index position entries with
  | case1 => rfl
  | case2 index position e behind start size _ ih =>
    exact ih.afterChange (.inl (Nat.lt_succ_self _)) _
  | case3 index position e behind start size _ events better hbetter _ ih =>
    have h : better.endOf position < e.block.endOf position := Nat.add_lt_add_left hbetter _
    have hs := endSum_mono behind (Nat.le_of_lt h)
    have hab : Lighter position (⟨e.id, better⟩ :: behind) (e :: behind) :=
      .inr ⟨rfl, by simp only [endSum]; omega⟩
    exact ih.afterChange hab _
  | case4 index position e behind start size _ events _ further merged rest hrest _ ih =>
    have hab : Lighter position (⟨e.id, merged⟩ :: rest) (e :: behind) :=
      .inl (Nat.succ_lt_succ hrest)
    exact ih.afterChange hab _
  | case5 index position e behind start size _ events _ further _ ih =>
    exact ih.afterKeeping _

/-- A pass that changes something leads to fewer blocks, or to as many that end earlier. -/
theorem visit_entries_lighter {config : Config} {index position : Nat} {entries : List Entry}
    (h : (visit config index position entries).changed = true) :
    Lighter position (visit config index position entries).entries entries := by
  have := visit_sound config index position entries
  rwa [Pass.Sound, if_pos h] at this

/-! ## Passes until nothing changes -/

/-- What repeated passes lead to. -/
structure Settled where
  /-- The blocks afterwards. -/
  entries : List Entry
  /-- The number of the last pass. -/
  passes : Nat
  /-- What happened. -/
  events : List Event

/-- Repeats passes, of which the first has the given number, until one changes nothing or the
configured number is reached. -/
def settle (config : Config) (pass : Nat) (entries : List Entry) : Settled :=
  let p := visit config 0 0 entries
  let events := p.events ++ [.passFinished pass p.changed]
  if _ : p.changed = true ∧ (config.maxPasses = 0 ∨ pass < config.maxPasses) then
    let later := settle config (pass + 1) p.entries
    { later with events := events ++ later.events }
  else ⟨p.entries, pass, events⟩
termination_by (entries.length, endSum 0 entries)
decreasing_by
  have h := visit_entries_lighter (‹_ ∧ _›).1
  rcases h with h | ⟨h, hs⟩
  · exact .left _ _ h
  · exact Prod.Lex.right' _ (Nat.le_of_eq h) hs

/-- A stream made smaller. -/
structure Optimised where
  /-- The stream. -/
  stream : Stream
  /-- By how many bits it became smaller. -/
  saved : Nat
  /-- What happened. -/
  events : List Event

/-- Makes a stream smaller until nothing more is found. -/
def Stream.optimise (config : Config) (s : Stream) : Optimised :=
  let settled := settle config 1 s.entries
  let stream := { s with entries := settled.entries }
  let saved := s.bitSize - stream.bitSize
  ⟨stream, saved, settled.events ++ [.saved s.name saved settled.passes]⟩

end DeflateRecoder
