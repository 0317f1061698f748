import DeflateRecoder.Proofs.Stream.Obtained

/-!
# What a saving comes to behind stored blocks

If a block becomes smaller, everything behind it opens earlier. Coded blocks move by as many bits as
were saved. The first stored block begins with other padding, so that it ends at a byte
boundary as before, and moves by whole bytes; and from there on whatever comes moves by as many
(`Stream.endOfBlocks_add_of_dvd`). So what becomes of `d` bits that are saved in front of blocks is
decided by the padding of the first stored one: `Stream.saving` (`Stream.endOfBlocks_add_saving`).
They are `d` rounded down or up to whole bytes (`Stream.saving_of_stored`).
-/

namespace DeflateRecoder

/-! ## One block -/

namespace Block

/-- A coded block ends as much later as it opens. -/
theorem endOf_coded_add (b : CodedBlock) (position d : Nat) :
    (coded b).endOf (position + d) = (coded b).endOf position + d := by
  simp only [endOf, bitSize]
  omega

/-- What is saved in front of a stored block goes into its padding. Of the two together, the whole
bytes are saved behind it. -/
theorem endOf_stored_add (b : StoredBlock) (position d : Nat) :
    (stored b).endOf (position + d) =
      (stored b).endOf position + (d + paddingAt (position + d + openingBits)) / 8 * 8 := by
  simp only [endOf, bitSize, StoredBlock.bitSize, paddingAt]
  omega

/-- A block that is moved by whole bytes keeps its padding. -/
theorem endOf_add_of_dvd {d : Nat} (h : 8 ∣ d) (b : Block) (position : Nat) :
    b.endOf (position + d) = b.endOf position + d := by
  cases b with
  | coded b => exact endOf_coded_add b position d
  | stored b =>
    have hpad := paddingAt_lt (position + d + openingBits)
    rw [endOf_stored_add]
    omega

end Block

namespace Stream

/-! ## Blocks one behind the other -/

/-- Blocks in two parts: the second opens where the first ends. -/
theorem endOfBlocks_append (position : Nat) (before behind : List Block) :
    endOfBlocks position (before ++ behind) = endOfBlocks (endOfBlocks position before) behind :=
  List.foldl_append

/-- Whole bytes move the ends of all blocks. -/
theorem endOfBlocks_add_of_dvd {d : Nat} (h : 8 ∣ d) (position : Nat) (blocks : List Block) :
    endOfBlocks (position + d) blocks = endOfBlocks position blocks + d := by
  induction blocks generalizing position with
  | nil => rfl
  | cons b rest ih =>
    have hrest := ih (b.endOf position)
    rw [← Block.endOf_add_of_dvd h] at hrest
    exact hrest

/-- By how much blocks end earlier, the first of which opened at bit `position`, when it opens `d`
bits earlier. -/
def saving (d position : Nat) : List Block → Nat
  | [] => d
  | .coded b :: rest => saving d ((Block.coded b).endOf position) rest
  | .stored _ :: _ => (d + paddingAt (position + openingBits)) / 8 * 8

/-- What is saved in front of blocks is saved in the end: all of it up to a stored block, and there
the whole bytes of it and of the padding. -/
theorem endOfBlocks_add_saving (d position : Nat) (blocks : List Block) :
    endOfBlocks position blocks + saving d (position + d) blocks =
      endOfBlocks (position + d) blocks := by
  induction blocks generalizing position with
  | nil => rfl
  | cons b rest ih =>
    cases b with
    | coded b =>
      have hrest := ih ((Block.coded b).endOf position)
      rw [← Block.endOf_coded_add] at hrest
      exact hrest
    | stored b =>
      -- Here it is settled what is saved: all that is behind moves by these whole bytes.
      have hrest := endOfBlocks_add_of_dvd
        (Nat.dvd_mul_left 8 ((d + paddingAt (position + d + openingBits)) / 8))
        ((Block.stored b).endOf position) rest
      rw [← Block.endOf_stored_add] at hrest
      exact hrest.symm

/-- In front of coded blocks everything saved is saved in the end. -/
theorem saving_of_coded {blocks : List Block} (h : ∀ b ∈ blocks, b.kind ≠ .stored)
    (d position : Nat) : saving d position blocks = d := by
  induction blocks generalizing position with
  | nil => rfl
  | cons b rest ih =>
    obtain ⟨hb, hrest⟩ := List.forall_mem_cons.1 h
    cases b with
    | coded b => exact ih hrest _
    | stored b => exact absurd rfl hb

/-- In front of a stored block what is saved is rounded to whole bytes, up or down. -/
theorem saving_of_stored {blocks : List Block} (h : ∃ b ∈ blocks, b.kind = .stored)
    (d position : Nat) : saving d position blocks = d / 8 * 8 ∨
      saving d position blocks = (d + 7) / 8 * 8 := by
  induction blocks generalizing position with
  | nil => obtain ⟨b, hb, -⟩ := h; cases hb
  | cons b rest ih =>
    cases b with
    | coded b =>
      obtain ⟨c, hc, hkind⟩ := h
      rcases List.mem_cons.1 hc with rfl | hc
      · exact absurd hkind (Block.kind_coded_ne_stored b)
      · exact ih ⟨c, hc, hkind⟩ _
    | stored b =>
      have hpad := paddingAt_lt (position + openingBits)
      rw [saving]
      omega

/-! ## A block that is replaced or taken out -/

variable {s : Stream} {before behind : List Entry} {e : Entry}

/-- A stream ends where its second part does, which opens where the first ends. -/
theorem bitSize_of_entries (h : s.entries = before ++ behind) :
    s.bitSize = endOfBlocks (endOfBlocks 0 (before.map (·.block))) (behind.map (·.block)) := by
  rw [bitSize, blocks, h, List.map_append, endOfBlocks_append]

/-- A stream ends where the blocks behind a block do, which open where that ends. -/
theorem Place.bitSize_eq (hp : s.Place before e behind) :
    s.bitSize = endOfBlocks (e.block.endOf (endOfBlocks 0 (before.map (·.block))))
      (behind.map (·.block)) := by
  rw [bitSize_of_entries hp.entries_eq]
  rfl

/-- What the blocks behind a place lose when they open `d` bits earlier, the stream loses. -/
theorem Place.bitSize_eq_add_saving (hp : s.Place before e behind) {stop d : Nat}
    (h : stop + d = e.block.endOf (endOfBlocks 0 (before.map (·.block)))) :
    s.bitSize = endOfBlocks stop (behind.map (·.block)) +
      saving d (e.block.endOf (endOfBlocks 0 (before.map (·.block)))) (behind.map (·.block)) := by
  rw [← h, endOfBlocks_add_saving, h, hp.bitSize_eq]

/-- A stream with distinct handles, in which a block becomes `d` bits smaller. -/
theorem Place.exists_replace? (hp : s.Place before e behind) (hdistinct : s.ids.Nodup)
    {block : Block} {d : Nat} :
    let position := endOfBlocks 0 (before.map (·.block))
    let stop := e.block.endOf position
    block.endOf position + d = stop → ∃ s', s.replace? e.id block = some (e.block, s') ∧
      s.bitSize = s'.bitSize + saving d stop (behind.map (·.block)) := by
  intro position stop hstop
  have hplace : Place { s with entries := before ++ ⟨e.id, block⟩ :: behind } before ⟨e.id, block⟩
    behind := rfl
  refine ⟨_, hp.replace? hdistinct block, ?_⟩
  rw [hplace.bitSize_eq]
  exact hp.bitSize_eq_add_saving hstop

/-- A stream with distinct handles, from which a block is taken out. -/
theorem Place.exists_remove? (hp : s.Place before e behind) (hdistinct : s.ids.Nodup) :
    let position := endOfBlocks 0 (before.map (·.block))
    let stop := e.block.endOf position
    ∃ s', s.remove? e.id = some (e.block, s') ∧
      s.bitSize = s'.bitSize + saving (stop - position) stop (behind.map (·.block)) := by
  intro position stop
  have hstop : position + (stop - position) = stop :=
    Nat.add_sub_cancel' (le_endOf position e.block)
  have hnew : Stream.bitSize { s with entries := before ++ behind } =
      endOfBlocks position (behind.map (·.block)) := bitSize_of_entries rfl
  refine ⟨_, hp.remove? hdistinct, ?_⟩
  rw [hnew]
  exact hp.bitSize_eq_add_saving hstop

/-- If a block is replaced by one that is `d` bits smaller at its place, the stream becomes smaller
by `d` bits when no stored block is behind it, and otherwise by `d` rounded down or up to whole
bytes: by those that `d` and the padding of the first stored block make up. A block that is taken
out is a saving of all its bits. Neither makes the stream bigger, whatever is behind the block. -/
theorem bitSize_of_change (h : s.Obtained) (hp : s.Place before e behind) :
    let position := endOfBlocks 0 (before.map (·.block))
    let start := position + openingBits
    let stop := e.block.endOf position
    let rest := behind.map (·.block)
    (∀ (block : Block) (d : Nat), block.bitSize start + d = e.block.bitSize start →
      let saved := saving d stop rest
      (∃ s', s.replace? e.id block = some (e.block, s') ∧ s'.bitSize ≤ s.bitSize ∧
        s.bitSize - s'.bitSize = saved) ∧
      ((∀ b ∈ rest, b.kind ≠ .stored) → saved = d) ∧
      ((∃ b ∈ rest, b.kind = .stored) → saved = d / 8 * 8 ∨ saved = (d + 7) / 8 * 8)) ∧
    ∃ s', s.remove? e.id = some (e.block, s') ∧ s'.bitSize ≤ s.bitSize ∧
      s.bitSize - s'.bitSize = saving (stop - position) stop rest := by
  intro position start stop rest
  have hdistinct := h.tracked.distinct
  constructor
  · intro block d hsmaller saved
    have hstop : block.endOf position + d = stop := by
      rw [Block.endOf, Nat.add_assoc, hsmaller, ← Block.endOf]
    obtain ⟨s', hreplace, hsize⟩ : ∃ s', s.replace? e.id block = some (e.block, s') ∧
        s.bitSize = s'.bitSize + saved := hp.exists_replace? hdistinct hstop
    exact ⟨⟨s', hreplace, by omega, by omega⟩, fun hcoded => saving_of_coded hcoded d stop,
      fun hstored => saving_of_stored hstored d stop⟩
  · obtain ⟨s', hremove, hsize⟩ : ∃ s', s.remove? e.id = some (e.block, s') ∧
        s.bitSize = s'.bitSize + saving (stop - position) stop rest :=
      hp.exists_remove? hdistinct
    exact ⟨s', hremove, by omega, by omega⟩

/-- Four equal bytes, first as literals and then as a literal and a match, in front of a stored
block with seven bits of padding: 15 bits that are saved become 16. -/
theorem bitSize_of_change_run :
    let old : Block := .coded (.ofCoding .fixed
      [.literal 200, .literal 200, .literal 200, .literal 200, .endOfBlock] [200, 200, 200, 200])
    let new : Block := .coded (.ofCoding .fixed
      [.literal 200, .copy 3 1 [200, 200, 200], .endOfBlock] [200, 200, 200, 200])
    let last : Block := .stored ⟨[1], by decide⟩
    let s := (((empty.push old).2.push last).2)
    s.Obtained ∧ s.Place [] ⟨⟨0⟩, old⟩ [⟨⟨1⟩, last⟩] ∧ new.bitSize 3 + 15 = old.bitSize 3 ∧
      ∃ s', s.replace? ⟨0⟩ new = some (old, s') ∧ s'.bitSize ≤ s.bitSize ∧
        s.bitSize - s'.bitSize = 16 := by
  intro old new last s
  have hobtained : s.Obtained := (Obtained.empty.perform (.push old)).perform (.push last)
  have hplace : s.Place [] ⟨⟨0⟩, old⟩ [⟨⟨1⟩, last⟩] := rfl
  have hsmaller : new.bitSize 3 + 15 = old.bitSize 3 := by decide +kernel
  have hsaved : saving 15 (old.endOf 0) [last] = 16 := by decide +kernel
  obtain ⟨⟨s', hreplace, hle, hsub⟩, -, -⟩ :=
    (bitSize_of_change hobtained hplace).1 new 15 hsmaller
  exact ⟨hobtained, hplace, hsmaller, s', hreplace, hle, hsub.trans hsaved⟩

end Stream

end DeflateRecoder
