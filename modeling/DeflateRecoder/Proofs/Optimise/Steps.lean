import DeflateRecoder.Proofs.Optimise.Pass

/-!
# Passes come to an end

`Run.next` is one turn of the loop over the blocks of a stream: it changes the block at hand, goes
on to the one behind it, or begins the next pass. `Run.Turn` says what each of them is taken for,
leads to and tells. The turns one after the other are what `Stream.optimise` does
(`Run.steps_settle`).

A change leaves fewer blocks, or as many that end earlier (`Run.weight_next`). The sum of the bits
at which blocks end becomes smaller with every change, also with one that leaves fewer blocks, so
this sum bounds the changes, and through them the passes (`Run.pass_le`) and the steps of a pass
(`Run.length_pass_le`) and of all passes (`Run.length_steps_le`).
-/

namespace DeflateRecoder

/-! ## Ends of blocks -/

/-- The ends of blocks in two parts add up, those of the second where the first puts them. -/
theorem endSum_append (position : Nat) (a b : List Entry) :
    endSum position (a ++ b) =
      endSum position a + endSum (Stream.endOfBlocks position (a.map (·.block))) b := by
  induction a generalizing position with
  | nil => exact (Nat.zero_add _).symm
  | cons e a ih =>
    rw [List.cons_append, endSum, endSum, ih, Nat.add_assoc]
    rfl

/-- Blocks in the place of others are lighter, and the sum of the bits at which they end is
smaller whether or not they are fewer. -/
structure Eases (position : Nat) (new old : List Entry) : Prop where
  lighter : Lighter position new old
  endSum_lt : endSum position new < endSum position old

namespace Eases

variable {position : Nat}

/-- Lighter blocks are no more than there were. -/
theorem length_le {new old : List Entry} (h : Eases position new old) :
    new.length ≤ old.length := by
  rcases h.lighter with h | h
  · exact Nat.le_of_lt h
  · exact Nat.le_of_eq h.1

/-- Without its first block, every block opens earlier. -/
theorem remove (e : Entry) (behind : List Entry) : Eases position behind (e :: behind) where
  lighter := .inl (Nat.lt_succ_self _)
  endSum_lt := by
    have hopen : position < e.block.endOf position := by
      rw [Block.endOf, openingBits]
      omega
    have hbehind := endSum_mono behind (Nat.le_of_lt hopen)
    rw [endSum]
    omega

/-- A first block that ends earlier. -/
theorem cons {e new : Entry} (h : new.block.endOf position < e.block.endOf position)
    (behind : List Entry) : Eases position (new :: behind) (e :: behind) := by
  have hbehind := endSum_mono behind (Nat.le_of_lt h)
  have hsum : endSum position (new :: behind) < endSum position (e :: behind) := by
    rw [endSum, endSum]
    omega
  exact ⟨.inr ⟨rfl, hsum⟩, hsum⟩

/-- One block in the place of two that ends before they would. -/
theorem merge {e second new : Entry}
    (h : new.block.endOf position < second.block.endOf (e.block.endOf position))
    (rest : List Entry) : Eases position (new :: rest) (e :: second :: rest) where
  lighter := .inl (Nat.lt_succ_self _)
  endSum_lt := by
    have hrest := endSum_mono rest (Nat.le_of_lt h)
    rw [endSum, endSum, endSum]
    omega

end Eases

/-! ## One step -/

/-- What a step does. -/
inductive Move
  /-- A block without bytes goes. -/
  | remove
  /-- A smaller block takes the place of one. -/
  | replace
  /-- One block takes the place of two. -/
  | merge
  /-- A block stays as it is. -/
  | keep
  /-- The next pass begins. -/
  | again
  deriving DecidableEq, Repr

/-- The step changes blocks. -/
def Move.changes : Move → Bool
  | remove | replace | merge => true
  | keep | again => false

/-- Passes under way. -/
structure Run where
  /-- The number of the pass. -/
  pass : Nat
  /-- Whether the pass has changed anything. -/
  changed : Bool
  /-- The blocks in front of the one at hand. -/
  passed : List Entry
  /-- The block at hand and those behind it. -/
  ahead : List Entry
  /-- What happened. -/
  events : List Event

namespace Run

/-- A pass over blocks before its first step. -/
def opening (pass : Nat) (entries : List Entry) (events : List Event) : Run :=
  ⟨pass, false, [], entries, events⟩

/-- The first pass over blocks before its first step. -/
def start (entries : List Entry) : Run := opening 1 entries []

/-- All blocks. -/
def entries (r : Run) : List Entry := r.passed ++ r.ahead

/-- The bit at which the block at hand opens. -/
def position (r : Run) : Nat := Stream.endOfBlocks 0 (r.passed.map (·.block))

/-- The number of blocks, and the sum of the bits at which they end. -/
def weight (r : Run) : Nat × Nat := (r.entries.length, endSum 0 r.entries)

/-- Other blocks from the one at hand on, of which the first is then at hand. -/
def change (r : Run) (ahead : List Entry) (events : List Event) : Run :=
  { r with changed := true, ahead, events := r.events ++ events }

/-- The block at hand stays as it is. -/
def keep (r : Run) (e : Entry) (behind : List Entry) (events : List Event) : Run :=
  { r with passed := r.passed ++ [e], ahead := behind, events := r.events ++ events }

/-- What is told when a pass has come to its last block. -/
def finished (r : Run) : List Event := r.events ++ [.passFinished r.pass r.changed]

/-- The next pass before its first step. -/
def again (r : Run) : Run := opening (r.pass + 1) r.entries r.finished

/-- What the run leads to if there is no further step. -/
def outcome (r : Run) : Settled := ⟨r.entries, r.pass, r.finished⟩

/-- The next step and what it leads to. -/
def next (config : Config) (r : Run) : Option (Move × Run) :=
  match r.ahead with
  | [] =>
    if r.changed = true ∧ (config.maxPasses = 0 ∨ r.pass < config.maxPasses) then
      some (.again, r.again)
    else none
  | e :: behind =>
    let index := r.passed.length
    let start := r.position + openingBits
    let size := e.block.bitSize start
    if e.block.isEmpty && 1 < r.entries.length then
      some (.remove, r.change behind [.removed index (openingBits + size)])
    else
      match search config e.block start with
      | (events, some better) =>
        some (.replace, r.change (⟨e.id, better.1⟩ :: behind)
          (events ++ [.replaced index size (better.1.bitSize start)]))
      | (events, none) =>
        match mergeFront config e.block start behind with
        | (further, some (merged, rest)) =>
          some (.merge, r.change (⟨e.id, merged⟩ :: rest.1)
            (events ++ further ++ [.merged index size (merged.bitSize start)]))
        | (further, none) => some (.keep, r.keep e behind (events ++ further))

variable {config : Config} {r r' : Run} {m : Move}

/-- A step with what it is taken for, what it leads to and what it tells. -/
inductive Turn (config : Config) (r : Run) : Move → Run → Prop
  /-- A block without bytes goes. -/
  | remove {e : Entry} {behind : List Entry} (hahead : r.ahead = e :: behind) :
      Turn config r .remove (r.change behind
        [.removed r.passed.length (openingBits + e.block.bitSize (r.position + openingBits))])
  /-- The search finds a smaller block. -/
  | replace {e : Entry} {behind : List Entry} {events : List Event}
      {better : Smaller e.block (r.position + openingBits)} (hahead : r.ahead = e :: behind)
      (hsearch : search config e.block (r.position + openingBits) = (events, some better)) :
      Turn config r .replace (r.change (⟨e.id, better.1⟩ :: behind)
        (events ++ [.replaced r.passed.length (e.block.bitSize (r.position + openingBits))
          (better.1.bitSize (r.position + openingBits))]))
  /-- The search finds nothing, but the block and the one behind it are merged. -/
  | merge {e second : Entry} {rest : List Entry} {merged : Block} {events further : List Event}
      (hahead : r.ahead = e :: second :: rest)
      (hsearch : search config e.block (r.position + openingBits) = (events, none))
      (hmerge : mergeBlocks config e.block second.block (r.position + openingBits) =
        (further, some merged)) :
      Turn config r .merge (r.change (⟨e.id, merged⟩ :: rest)
        (events ++ further ++
          [.merged r.passed.length (e.block.bitSize (r.position + openingBits))
            (merged.bitSize (r.position + openingBits))]))
  /-- Nothing is found. -/
  | keep {e : Entry} {behind : List Entry} {events further : List Event}
      (hahead : r.ahead = e :: behind)
      (hsearch : search config e.block (r.position + openingBits) = (events, none))
      (hmerge : mergeFront config e.block (r.position + openingBits) behind = (further, none)) :
      Turn config r .keep (r.keep e behind (events ++ further))
  /-- There is no block ahead, and the pass has changed something. -/
  | again (hahead : r.ahead = []) (hchanged : r.changed = true) : Turn config r .again r.again

/-- Every step is one of these: the tests that lead to it tell which. -/
theorem turn_of_next (h : r.next config = some (m, r')) : Turn config r m r' := by
  unfold next at h
  split at h
  · next hahead =>
    split at h
    · next hmore =>
      cases h
      exact .again hahead hmore.1
    · cases h
  · next e behind hahead =>
    dsimp only at h
    split at h
    · cases h
      exact .remove hahead
    · split at h
      · next hsearch =>
        cases h
        exact .replace hahead hsearch
      · next hsearch =>
        split at h
        · next hmerge =>
          cases h
          obtain ⟨second, hbehind, hmerged⟩ := Stream.mergeFront_spec hmerge
          rw [hbehind] at hahead
          exact .merge hahead hsearch hmerged
        · next hmerge =>
          cases h
          exact .keep hahead hsearch hmerge

/-- A step eases the blocks from the one at hand on, or leaves the one at hand, or begins a pass
behind one that has changed something. -/
theorem next_cases (h : r.next config = some (m, r')) :
    (m.changes = true ∧
      ∃ ahead events, r' = r.change ahead events ∧ Eases r.position ahead r.ahead) ∨
    (m = .keep ∧ ∃ e behind events, r.ahead = e :: behind ∧ r' = r.keep e behind events) ∨
    (m = .again ∧ r.ahead = [] ∧ r.changed = true ∧ r' = r.again) := by
  cases turn_of_next h with
  | @remove e behind hahead => exact .inl ⟨rfl, _, _, rfl, hahead ▸ .remove e behind⟩
  | @replace e behind events better hahead =>
    have heases : Eases r.position (⟨e.id, better.1⟩ :: behind) (e :: behind) :=
      .cons (Nat.add_lt_add_left better.2 _) behind
    exact .inl ⟨rfl, _, _, rfl, hahead ▸ heases⟩
  | @merge e second rest merged events further hahead hsearch hmerge =>
    have hend : merged.endOf r.position < second.block.endOf (e.block.endOf r.position) :=
      (mergeBlocks_spec (congrArg Prod.snd hmerge)).2
    have heases : Eases r.position (⟨e.id, merged⟩ :: rest) (e :: second :: rest) :=
      .merge hend rest
    exact .inl ⟨rfl, _, _, rfl, hahead ▸ heases⟩
  | keep hahead => exact .inr (.inl ⟨rfl, _, _, _, hahead, rfl⟩)
  | again hahead hchanged => exact .inr (.inr ⟨rfl, hahead, hchanged, rfl⟩)

/-! ### What a step does to all blocks -/

/-- There are no more blocks after a change. -/
theorem length_entries_change (r : Run) {ahead : List Entry} (events : List Event)
    (h : Eases r.position ahead r.ahead) :
    (r.change ahead events).entries.length ≤ r.entries.length := by
  rw [entries, entries, List.length_append, List.length_append]
  exact Nat.add_le_add_left h.length_le _

/-- The sum of the ends is less after a change. -/
theorem endSum_change (r : Run) {ahead : List Entry} (events : List Event)
    (h : Eases r.position ahead r.ahead) :
    endSum 0 (r.change ahead events).entries < endSum 0 r.entries := by
  rw [entries, entries, endSum_append, endSum_append]
  exact Nat.add_lt_add_left h.endSum_lt _

/-- Leaving the block at hand leaves all blocks. -/
theorem entries_keep (r : Run) {e : Entry} {behind : List Entry} (events : List Event)
    (h : r.ahead = e :: behind) : (r.keep e behind events).entries = r.entries := by
  rw [entries, entries, h]
  exact List.append_assoc _ [e] behind

/-- Beginning a pass leaves all blocks. -/
theorem entries_again (r : Run) : r.again.entries = r.entries := rfl

/-- A step that changes blocks leaves fewer of them, or as many that end earlier. -/
theorem weight_next (h : r.next config = some (m, r')) (hm : m.changes = true) :
    Prod.Lex (· < ·) (· < ·) r'.weight r.weight := by
  obtain ⟨-, ahead, events, rfl, heases⟩ | ⟨rfl, -⟩ | ⟨rfl, -⟩ := next_cases h
  · exact Prod.Lex.right' _ (r.length_entries_change events heases) (r.endSum_change events heases)
  · cases hm
  · cases hm

/-- A step that does not change blocks leaves all of them as they are. -/
theorem entries_next (h : r.next config = some (m, r')) (hm : m.changes = false) :
    r'.entries = r.entries := by
  obtain ⟨hchanges, -⟩ | ⟨-, e, behind, events, hahead, rfl⟩ | ⟨-, -, -, rfl⟩ := next_cases h
  · rw [hm] at hchanges
    cases hchanges
  · exact r.entries_keep events hahead
  · exact r.entries_again

/-- The blocks are not more after a step. -/
theorem length_next (h : r.next config = some (m, r')) :
    r'.entries.length ≤ r.entries.length := by
  obtain ⟨-, ahead, events, rfl, heases⟩ | ⟨-, e, behind, events, hahead, rfl⟩ |
    ⟨-, -, -, rfl⟩ := next_cases h
  · exact r.length_entries_change events heases
  · exact Nat.le_of_eq (congrArg List.length (r.entries_keep events hahead))
  · exact Nat.le_refl _

/-- The sum of the ends is not bigger after a step. -/
theorem endSum_next (h : r.next config = some (m, r')) :
    endSum 0 r'.entries ≤ endSum 0 r.entries := by
  obtain ⟨-, ahead, events, rfl, heases⟩ | ⟨-, e, behind, events, hahead, rfl⟩ |
    ⟨-, -, -, rfl⟩ := next_cases h
  · exact Nat.le_of_lt (r.endSum_change events heases)
  · exact Nat.le_of_eq (congrArg (endSum 0) (r.entries_keep events hahead))
  · exact Nat.le_refl _

/-! ## Any number of steps -/

/-- The given steps lead from one state to another. -/
inductive Steps (config : Config) : Run → List Move → Run → Prop
  | refl (r : Run) : Steps config r [] r
  | step {r r' r'' : Run} {m : Move} {moves : List Move} (h : r.next config = some (m, r'))
      (later : Steps config r' moves r'') : Steps config r (m :: moves) r''

/-- Steps follow one another. -/
theorem Steps.trans {r r' r'' : Run} {a b : List Move} (ha : Steps config r a r')
    (hb : Steps config r' b r'') : Steps config r (a ++ b) r'' := by
  induction ha with
  | refl => exact hb
  | step h _ ih => exact .step h (ih hb)

variable {moves : List Move}

/-- An amount that every step takes at least one from bounds the number of steps. -/
theorem Steps.length_add_le {amount : Run → Nat} (hsteps : Steps config r moves r')
    (h : ∀ {r r' : Run} {m : Move}, m ∈ moves → r.next config = some (m, r') →
      amount r' < amount r) :
    moves.length + amount r' ≤ amount r := by
  induction hsteps with
  | refl => exact Nat.le_of_eq (Nat.zero_add _)
  | @step r r' r'' m moves hnext _ ih =>
    have hfirst := h (.head _) hnext
    have hlater := ih fun hm => h (.tail _ hm)
    rw [List.length_cons]
    omega

/-- An amount that no step adds to does not become bigger. -/
theorem Steps.amount_le {amount : Run → Nat} (hsteps : Steps config r moves r')
    (h : ∀ {r r' : Run} {m : Move}, r.next config = some (m, r') → amount r' ≤ amount r) :
    amount r' ≤ amount r := by
  induction hsteps with
  | refl => exact Nat.le_refl _
  | step hnext _ ih => exact Nat.le_trans ih (h hnext)

/-! ### Passes -/

/-- A pass follows one with a change, and a change takes one from the sum of the ends. -/
theorem passes_next (h : r.next config = some (m, r')) :
    r'.pass + r'.changed.toNat + endSum 0 r'.entries ≤
      r.pass + r.changed.toNat + endSum 0 r.entries := by
  obtain ⟨-, ahead, events, rfl, heases⟩ | ⟨-, e, behind, events, hahead, rfl⟩ |
    ⟨-, -, hchanged, rfl⟩ := next_cases h
  · have hsum := r.endSum_change events heases
    simp only [change, Bool.toNat_true] at hsum ⊢
    omega
  · rw [r.entries_keep events hahead]
    exact Nat.le_refl _
  · rw [entries_again, hchanged]
    exact Nat.le_refl _

/-- There are no more passes than the sum of the ends of the blocks, and one. -/
theorem pass_le {entries : List Entry} (h : Steps config (start entries) moves r) :
    r.pass ≤ endSum 0 entries + 1 := by
  have := h.amount_le passes_next
  have hstart : (start entries).pass + (start entries).changed.toNat +
      endSum 0 (start entries).entries = 1 + endSum 0 entries := rfl
  omega

/-! ### Steps of a pass -/

/-- The most steps that a pass can still have. -/
def leftOfPass (r : Run) : Nat := endSum 0 r.entries + r.ahead.length

/-- A step of a pass leaves fewer steps for it: a change takes from the sum of the ends, and another
step from the blocks ahead. -/
theorem leftOfPass_next (h : r.next config = some (m, r')) (hm : m ≠ .again) :
    r'.leftOfPass < r.leftOfPass := by
  rw [leftOfPass, leftOfPass]
  obtain ⟨-, ahead, events, rfl, heases⟩ | ⟨-, e, behind, events, hahead, rfl⟩ |
    ⟨rfl, -⟩ := next_cases h
  · exact Nat.add_lt_add_of_lt_of_le (r.endSum_change events heases) heases.length_le
  · rw [r.entries_keep events hahead, hahead]
    exact Nat.lt_succ_self _
  · exact absurd rfl hm

/-- The sum of the ends of the blocks and their number bound the steps of a pass. -/
theorem length_pass_le (h : Steps config r moves r') (hpass : .again ∉ moves) :
    moves.length ≤ endSum 0 r.entries + r.entries.length := by
  have hleft := h.length_add_le fun hm hnext => leftOfPass_next hnext (ne_of_mem_of_not_mem hm hpass)
  rw [leftOfPass, leftOfPass] at hleft
  have : r.ahead.length ≤ r.entries.length := by
    rw [entries, List.length_append]
    exact Nat.le_add_left _ _
  omega

/-! ### All steps -/

/-- The most steps that all passes can still have. A pass takes as many as there are blocks, besides
its changes. There is at most one for each change and, if nothing has been changed yet, the one
under way. -/
def left (r : Run) : Nat :=
  (2 * endSum 0 r.entries + r.changed.toNat) * (r.entries.length + 1) + r.ahead.length

/-- Every step leaves fewer steps, be it the one that begins another pass. -/
theorem left_next (h : r.next config = some (m, r')) : r'.left < r.left := by
  rw [left, left]
  obtain ⟨-, ahead, events, rfl, heases⟩ | ⟨-, e, behind, events, hahead, rfl⟩ |
    ⟨-, hahead, hchanged, rfl⟩ := next_cases h
  · -- The sum counts twice, since a change can be the first one of its pass.
    have hsum : 2 * endSum 0 (r.change ahead events).entries + 1 + 1 ≤
        2 * endSum 0 r.entries + r.changed.toNat := by
      have := r.endSum_change events heases
      omega
    have hfewer := Nat.add_le_add_right (r.length_entries_change events heases) 1
    have hahead : (r.change ahead events).ahead.length ≤ r.ahead.length := heases.length_le
    have hproduct := Nat.mul_le_mul hsum hfewer
    rw [Nat.add_one_mul] at hproduct
    have hchanged : (r.change ahead events).changed.toNat = 1 := rfl
    rw [hchanged]
    omega
  · rw [r.entries_keep events hahead, hahead]
    exact Nat.lt_succ_self _
  · have hall : r.again.ahead.length = r.entries.length := rfl
    have hnew : r.again.changed.toNat = 0 := rfl
    rw [entries_again, hall, hnew, hahead, hchanged, Bool.toNat_true,
      Nat.add_one_mul (2 * _), List.length_nil, Nat.add_zero (2 * _)]
    omega

/-- The number of blocks and the sum of their ends bound all steps. -/
theorem length_steps_le {entries : List Entry} (h : Steps config (start entries) moves r) :
    moves.length ≤ 2 * endSum 0 entries * (entries.length + 1) + entries.length :=
  Nat.le_trans (Nat.le_add_right _ _) (h.length_add_le fun _ hnext => left_next hnext)

/-! ## The steps are those of the passes -/

/-- A state in which no block is ahead. -/
def afterPass (r : Run) (p : Pass) : Run :=
  ⟨r.pass, r.changed || p.changed, r.passed ++ p.entries, [], r.events ++ p.events⟩

/-- A pass that goes on behind a change is one that began with it. -/
theorem afterPass_change (r : Run) (ahead : List Entry) (events : List Event) (p : Pass) :
    (r.change ahead events).afterPass p = r.afterPass (p.afterChange events) := by
  simp [afterPass, change, Pass.afterChange]

/-- A pass that goes on behind a block is one that began by leaving it. -/
theorem afterPass_keep (r : Run) (e : Entry) (behind : List Entry) (events : List Event)
    (p : Pass) : (r.keep e behind events).afterPass p = r.afterPass (p.afterKeeping e events) := by
  simp [afterPass, keep, Pass.afterKeeping]

/-- Behind a block that stays the next one opens where it ends. -/
theorem position_keep (r : Run) (e : Entry) (behind : List Entry) (events : List Event) :
    (r.keep e behind events).position = e.block.endOf r.position := by
  simp [position, keep, Stream.endOfBlocks]

/-- There is a block besides the one at hand. -/
theorem more_than_one {e : Entry} {behind : List Entry} (h : r.ahead = e :: behind) :
    decide (1 < r.entries.length) = (r.passed.length != 0 || !behind.isEmpty) := by
  have hbehind : (!behind.isEmpty) = true ↔ 0 < behind.length := by cases behind <;> simp
  rw [entries, h, List.length_append, List.length_cons, Bool.eq_iff_iff, decide_eq_true_eq,
    Bool.or_eq_true, bne_iff_ne, hbehind]
  omega

/-- A block that is empty and not alone goes. -/
theorem next_remove {e : Entry} {behind : List Entry} (hahead : r.ahead = e :: behind)
    (hgone : (e.block.isEmpty && (r.passed.length != 0 || !behind.isEmpty)) = true) :
    r.next config = some (.remove, r.change behind
      [.removed r.passed.length
        (openingBits + e.block.bitSize (r.position + openingBits))]) := by
  rw [next, hahead]
  dsimp only
  rw [more_than_one hahead, if_pos hgone]

section

variable {e : Entry} {behind : List Entry} {events : List Event}

/-- A block that does not go is searched for a smaller one. -/
theorem next_replace {better : Smaller e.block (r.position + openingBits)}
    (hahead : r.ahead = e :: behind)
    (hstays : ¬(e.block.isEmpty && (r.passed.length != 0 || !behind.isEmpty)) = true)
    (hsearch : search config e.block (r.position + openingBits) = (events, some better)) :
    r.next config = some (.replace, r.change (⟨e.id, better.1⟩ :: behind)
      (events ++ [.replaced r.passed.length (e.block.bitSize (r.position + openingBits))
        (better.1.bitSize (r.position + openingBits))])) := by
  rw [next, hahead]
  dsimp only
  rw [more_than_one hahead, if_neg hstays, hsearch]

/-- A block for which nothing smaller is found is merged with the one behind it, if that makes both
smaller. -/
theorem next_merge {further : List Event} {merged : Block}
    {rest : { rest : List Entry // rest.length < behind.length }}
    (hahead : r.ahead = e :: behind)
    (hstays : ¬(e.block.isEmpty && (r.passed.length != 0 || !behind.isEmpty)) = true)
    (hsearch : search config e.block (r.position + openingBits) = (events, none))
    (hmerge : mergeFront config e.block (r.position + openingBits) behind =
      (further, some (merged, rest))) :
    r.next config = some (.merge, r.change (⟨e.id, merged⟩ :: rest.1)
      (events ++ further ++
        [.merged r.passed.length (e.block.bitSize (r.position + openingBits))
          (merged.bitSize (r.position + openingBits))])) := by
  rw [next, hahead]
  dsimp only
  rw [more_than_one hahead, if_neg hstays, hsearch]
  dsimp only
  rw [hmerge]

/-- A block for which nothing is found stays. -/
theorem next_keep {further : List Event} (hahead : r.ahead = e :: behind)
    (hstays : ¬(e.block.isEmpty && (r.passed.length != 0 || !behind.isEmpty)) = true)
    (hsearch : search config e.block (r.position + openingBits) = (events, none))
    (hmerge : mergeFront config e.block (r.position + openingBits) behind = (further, none)) :
    r.next config = some (.keep, r.keep e behind (events ++ further)) := by
  rw [next, hahead]
  dsimp only
  rw [more_than_one hahead, if_neg hstays, hsearch]
  dsimp only
  rw [hmerge]

end

/-- Of two literals in blocks of their own at the front, the first step makes one block. It is told
with the size of the first alone. -/
theorem exists_next_start_of_literals (hmerge : config.merge = true) {a b : UInt8}
    (ha : a.toNat < 144) (hb : b.toNat < 144) {s : Stream} {rest : List Block}
    (hs : s.blocks = literalBlock a :: literalBlock b :: rest) :
    ∃ merged r', (mergeBlocks config (literalBlock a) (literalBlock b) openingBits).2 =
        some merged ∧ (start s.entries).next config = some (.merge, r') ∧
      .merged 0 15 (merged.bitSize openingBits) ∈ r'.events := by
  obtain ⟨merged, hmerged⟩ := @mergeBlocks_literals config openingBits a b ha hb
  obtain ⟨first, behind, hentries, hfirst, hbehind⟩ := List.map_eq_cons_iff.1 hs
  obtain ⟨second, others, rfl, hsecond, -⟩ := List.map_eq_cons_iff.1 hbehind
  have hstays : ¬(first.block.isEmpty && ((start s.entries).passed.length != 0 ||
      !(second :: others).isEmpty)) = true := by
    rw [hfirst]
    exact Bool.false_ne_true
  have hsearch : search config first.block ((start s.entries).position + openingBits) =
      ((search config first.block openingBits).1, none) := by
    refine Prod.ext rfl ?_
    rw [hfirst]
    exact search_literalBlock ha
  have hfront := hmerged
  rw [← hfirst, ← hsecond] at hfront
  have hnext := next_merge hentries hstays hsearch (Stream.mergeFront_eq_some hmerge hfront)
  refine ⟨merged, _, hmerged, hnext, ?_⟩
  have hsize : first.block.bitSize openingBits = 15 := by rw [hfirst, bitSize_literalBlock ha]
  rw [← hsize]
  exact List.mem_append_right _ (List.mem_append_right _ (List.mem_singleton.2 rfl))

/-- The steps of a pass lead to where the pass leads. -/
theorem steps_visit (r : Run) :
    ∃ moves, .again ∉ moves ∧
      Steps config r moves (r.afterPass (visit config r.passed.length r.position r.ahead)) := by
  generalize hindex : r.passed.length = index
  generalize hposition : r.position = position
  generalize hahead : r.ahead = entries
  -- Each case of the pass is a step, and the rest of the pass goes on from the state behind it.
  fun_induction visit config index position entries generalizing r with
  | case1 index position =>
    refine ⟨[], List.not_mem_nil, ?_⟩
    have hr : r.afterPass ⟨[], false, []⟩ = r := by
      cases r
      cases hahead
      simp [afterPass]
    rw [hr]
    exact .refl r
  | case2 index position e behind start size hgone ih =>
    subst hindex hposition
    have hnext : r.next config = _ := next_remove hahead hgone
    obtain ⟨moves, hpass, hlater⟩ := ih (r.change behind
      [.removed r.passed.length (openingBits + size)]) rfl rfl rfl
    rw [afterPass_change] at hlater
    exact ⟨_, by simp [hpass], .step hnext hlater⟩
  | case3 index position e behind start size hstays events better hbetter hsearch ih =>
    subst hindex hposition
    have hnext := next_replace hahead hstays hsearch
    obtain ⟨moves, hpass, hlater⟩ := ih (r.change (⟨e.id, better⟩ :: behind)
      (events ++ [.replaced r.passed.length size (better.bitSize start)])) rfl rfl rfl
    rw [afterPass_change] at hlater
    exact ⟨_, by simp [hpass], .step hnext hlater⟩
  | case4 index position e behind start size hstays events hsearch further merged rest hrest
      hmerge ih =>
    subst hindex hposition
    have hnext := next_merge hahead hstays hsearch hmerge
    obtain ⟨moves, hpass, hlater⟩ := ih (r.change (⟨e.id, merged⟩ :: rest)
      (events ++ further ++ [.merged r.passed.length size (merged.bitSize start)])) rfl rfl rfl
    rw [afterPass_change] at hlater
    exact ⟨_, by simp [hpass], .step hnext hlater⟩
  | case5 index position e behind start size hstays events hsearch further hmerge ih =>
    subst hindex hposition
    have hnext := next_keep hahead hstays hsearch hmerge
    obtain ⟨moves, hpass, hlater⟩ := ih (r.keep e behind (events ++ further))
      (by simp [keep]) (position_keep ..) rfl
    rw [afterPass_keep] at hlater
    exact ⟨_, by simp [hpass], .step hnext hlater⟩

/-- The steps of a pass over all blocks. -/
theorem steps_pass (config : Config) (pass : Nat) (entries : List Entry) (events : List Event) :
    ∃ moves, .again ∉ moves ∧ Steps config (opening pass entries events) moves
      ⟨pass, (visit config 0 0 entries).changed, (visit config 0 0 entries).entries, [],
        events ++ (visit config 0 0 entries).events⟩ :=
  steps_visit (opening pass entries events)

/-- Behind the last block another pass begins if there was a change and one more is allowed. -/
theorem next_of_ahead_nil (h : r.ahead = []) :
    r.next config =
      if r.changed = true ∧ (config.maxPasses = 0 ∨ r.pass < config.maxPasses) then
        some (.again, r.again)
      else none := by
  rw [next, h]

/-- The steps of all passes lead to where the passes lead, and there is no step after them. -/
theorem steps_settle (config : Config) (pass : Nat) (entries : List Entry) (events : List Event) :
    ∃ moves r, Steps config (opening pass entries events) moves r ∧ r.next config = none ∧
      r.outcome = { settle config pass entries with
        events := events ++ (settle config pass entries).events } := by
  fun_induction settle config pass entries generalizing events with
  | case1 pass entries p told hmore later ih =>
    obtain ⟨moves, -, hpass⟩ := steps_pass config pass entries events
    obtain ⟨moves', r, hlater, hend, houtcome⟩ := ih (events ++ told)
    let last : Run := ⟨pass, p.changed, p.entries, [], events ++ p.events⟩
    have hlast : last.next config = some (.again, last.again) := by
      rw [next_of_ahead_nil rfl, if_pos hmore]
    have hagain : last.again = opening (pass + 1) p.entries (events ++ told) := by
      simp [last, told, again, Run.entries, finished]
    rw [hagain] at hlast
    refine ⟨moves ++ .again :: moves', r, hpass.trans (.step hlast hlater), hend, ?_⟩
    rw [houtcome, List.append_assoc]
  | case2 pass entries p told hstop =>
    obtain ⟨moves, -, hpass⟩ := steps_pass config pass entries events
    refine ⟨moves, _, hpass, ?_, ?_⟩
    · rw [next_of_ahead_nil rfl, if_neg hstop]
    · simp [outcome, Run.entries, finished, told, p]

/-- A run without a bound on its passes has no further step only where the last pass changed
nothing. -/
theorem unchanged_of_next_none (hmax : config.maxPasses = 0) (h : r.next config = none) :
    r.changed = false := by
  unfold next at h
  split at h
  · refine Bool.eq_false_iff.2 fun hchanged => ?_
    rw [if_pos ⟨hchanged, .inl hmax⟩] at h
    cases h
  · dsimp only at h
    split at h
    · cases h
    · split at h
      · cases h
      · split at h <;> cases h

end Run

/-! ## Rounds with fewer matches -/

namespace CodedBlock

/-- The given number of rounds with fewer matches, begun with a block, and their result. A round
that makes the block smaller is followed by another one. -/
inductive Rounds : CodedBlock → Nat → Except Error CodedBlock → Prop
  | failed {b : CodedBlock} {e : Error} (h : b.recodePruned = .error e) : Rounds b 1 (.error e)
  | last {b next : CodedBlock} (h : b.recodePruned = .ok next)
      (hstop : ¬next.bitSize < b.bitSize) : Rounds b 1 (.ok b)
  | more {b next : CodedBlock} {n : Nat} {result : Except Error CodedBlock}
      (h : b.recodePruned = .ok next) (hsmaller : next.bitSize < b.bitSize)
      (later : Rounds next n result) : Rounds b (n + 1) result

/-- There are no more rounds than the block has bits, and one. -/
theorem Rounds.length_le {b : CodedBlock} {n : Nat} {result : Except Error CodedBlock}
    (h : Rounds b n result) : n ≤ b.bitSize + 1 := by
  induction h with
  | failed | last => exact Nat.le_add_left 1 _
  | more _ hsmaller _ ih => exact Nat.succ_le_succ (Nat.le_trans ih hsmaller)

/-- The rounds lead to what shrinking leads to. -/
theorem rounds_shrink (b : CodedBlock) : ∃ n, Rounds b n b.shrink := by
  fun_induction shrink b with
  | case1 b e h => exact ⟨1, .failed h⟩
  | case2 b next h hsmaller ih =>
    obtain ⟨n, hlater⟩ := ih
    exact ⟨n + 1, .more h hsmaller hlater⟩
  | case3 b next h hstop => exact ⟨1, .last h hstop⟩

end CodedBlock

/-! ## The end of the search -/

namespace Stream

open Run

/-- Repeated passes over a stream, without a bound on their number, come to an end.

Wherever the steps have led, the next step that changes blocks leaves fewer of them, or as many for
which the sum of the bits at which they end is smaller, and any other step leaves them as they are.
The number of blocks and the sum of their ends before the first step bound the number of passes, the
steps of any one pass, and all steps. There is a point from which no step leads on. The pass that
led there changed nothing, and what it left is what optimising leaves. The rounds with which a block
is shrunk are bounded by the size of the block. -/
theorem optimise_ends (s : Stream) {config : Config} (hmax : config.maxPasses = 0) :
    (∀ moves r, Steps config (start s.entries) moves r →
      (∀ m r', r.next config = some (m, r') →
        if m.changes then Prod.Lex (· < ·) (· < ·) r'.weight r.weight
        else r'.entries = r.entries) ∧
      r.pass ≤ endSum 0 s.entries + 1 ∧
      (∀ moves' r', .again ∉ moves' → Steps config r moves' r' →
        moves'.length ≤ endSum 0 s.entries + s.length) ∧
      moves.length ≤ 2 * endSum 0 s.entries * (s.length + 1) + s.length) ∧
    (∃ moves r, Steps config (start s.entries) moves r ∧ r.next config = none ∧
      r.changed = false ∧ r.outcome = settle config 1 s.entries ∧
      r.entries = (s.optimise config).stream.entries) ∧
    ∀ b : CodedBlock, ∃ n, n ≤ b.bitSize + 1 ∧ b.Rounds n b.shrink := by
  refine ⟨fun moves r hsteps => ⟨fun m r' hnext => ?_, pass_le hsteps, ?_, length_steps_le hsteps⟩,
    ?_, fun b => ?_⟩
  · split
    · next hm => exact weight_next hnext hm
    · next hm => exact entries_next hnext (Bool.eq_false_iff.2 hm)
  · intro moves' r' hpass hsteps'
    have hsum : endSum 0 r.entries ≤ endSum 0 s.entries := hsteps.amount_le endSum_next
    have hfewer : r.entries.length ≤ s.length := hsteps.amount_le length_next
    exact Nat.le_trans (length_pass_le hsteps' hpass) (Nat.add_le_add hsum hfewer)
  · obtain ⟨moves, r, hsteps, hend, houtcome⟩ := steps_settle config 1 s.entries []
    have hsettled : r.outcome = settle config 1 s.entries := houtcome
    exact ⟨moves, r, hsteps, hend, unchanged_of_next_none hmax hend, hsettled,
      congrArg Settled.entries hsettled⟩
  · obtain ⟨n, hrounds⟩ := CodedBlock.rounds_shrink b
    exact ⟨n, hrounds.length_le, hrounds⟩

/-- Two literals in blocks of their own, of which the first step makes one block, and a stored
byte. -/
theorem optimise_ends_several :
    let s := ofBlocks "" [literalBlock 97, literalBlock 98, .stored ⟨[65], by decide⟩]
    parse "" [74, 4, 40, 9, 144, 1, 0, 254, 255, 65, 7] = .ok s ∧ endSum 0 s.entries = 134 ∧
      ∃ moves r, Steps {} (start s.entries) (.merge :: moves) r ∧ r.next {} = none ∧
        r.entries = (s.optimise {}).stream.entries ∧ r.pass ≤ 135 ∧ moves.length < 1075 := by
  intro s
  have hsum : endSum 0 s.entries = 134 := by decide +kernel
  obtain ⟨hbounds, ⟨moves, r, hsteps, hend, -, -, hentries⟩, -⟩ := @optimise_ends s {} rfl
  obtain ⟨-, hpass, -, hlength⟩ := hbounds moves r hsteps
  rw [hsum] at hpass hlength
  obtain ⟨_, _, -, hfirst, -⟩ := @exists_next_start_of_literals {} rfl 97 98 (by decide) (by decide)
    s _ rfl
  cases hsteps with
  | refl => exact absurd (hend.symm.trans hfirst) (Option.some_ne_none _).symm
  | step hnext hlater =>
    cases hnext.symm.trans hfirst
    exact ⟨parse_several, hsum, _, r, .step hnext hlater, hend, hentries, hpass, hlength⟩

end Stream

end DeflateRecoder
