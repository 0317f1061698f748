import DeflateRecoder.Proofs.Search.Trials
import DeflateRecoder.Search.Best

/-!
# What the search finds

A block that the search puts in the place of another one refines it (`search_refines`), and one in
the place of two stands for the bytes of both (`mergeBlocks_spec`).
-/

namespace DeflateRecoder

/-! ## One block in the place of another -/

/-- What is smaller than a block is the candidate that was tried. -/
theorem Trial.smaller?_eq_some {t : Trial} {block : Block} {position : Nat}
    {found : Smaller block position} (h : t.smaller? block position = some found) :
    ∃ attempt, t = offer attempt found.1 := by
  cases t with
  | offer attempt b =>
    rw [smaller?] at h
    split at h
    · cases h
      exact ⟨attempt, rfl⟩
    · cases h
  | failed reason => cases h

/-- What is found among trials that refine a block refines it. -/
theorem best?_refines {block : Block} {position : Nat} {trials : List Trial}
    {found : Smaller block position} (h : SoundTrials block trials)
    (e : best? block position trials = some found) : block.Refines found.1 := by
  obtain ⟨t, ht, hfound⟩ := List.mem_filterMap.1 (List.minOn?_mem e)
  obtain ⟨attempt, rfl⟩ := Trial.smaller?_eq_some hfound
  exact h _ ht

/-- What a search finds refines the block. -/
theorem search_refines {config : Config} {block : Block} {position : Nat}
    {found : Smaller block position} (e : (search config block position).2 = some found) :
    block.Refines found.1 :=
  best?_refines (block.sound_trials config.rules) e

/-! ## One block in the place of two -/

/-- A block stands for the bytes of two others, and is well-formed wherever they are one behind the
other. -/
structure Block.Joins (a b c : Block) : Prop where
  bytes_eq : c.bytes = a.bytes ++ b.bytes
  wellFormed : ∀ w, a.WellFormed w → b.WellFormed (w.pushNewer a.bytes.toArray) → c.WellFormed w

/-- What refines a block that joins two others joins them too. -/
theorem Block.Joins.of_refines {a b c d : Block} (h : a.Joins b c) (hd : c.Refines d) :
    a.Joins b d :=
  ⟨hd.bytes_eq.trans h.bytes_eq, fun w ha hb => hd.wellFormed w (h.wellFormed w ha hb)⟩

/-- Two blocks as one join both. -/
theorem Block.append?_joins {a b c : Block} (e : a.append? b = some (.ok c)) : a.Joins b c := by
  cases a with
  | stored a =>
    cases b with
    | coded b => cases e
    | stored b =>
      obtain ⟨joined, hjoined, hc⟩ := Option.map_eq_some_iff.1 e
      cases hc
      refine ⟨?_, fun w _ _ => trivial⟩
      unfold StoredBlock.append? StoredBlock.ofBytes at hjoined
      split at hjoined
      · cases hjoined
        rfl
      · cases hjoined
  | coded a =>
    cases b with
    | stored b => cases e
    | coded b =>
      cases hjoined : a.append b with
      | error err =>
        rw [append?, hjoined] at e
        cases e
      | ok joined =>
        rw [append?, hjoined] at e
        cases e
        exact ⟨CodedBlock.bytes_append hjoined, fun w => CodedBlock.wellFormed_append hjoined⟩

/-- One block in the place of two ends before they would. -/
theorem mergeBlocks_spec {config : Config} {first second merged : Block} {position : Nat}
    (e : (mergeBlocks config first second position).2 = some merged) :
    first.Joins second merged ∧
      position + merged.bitSize position < second.endOf (position + first.bitSize position) := by
  unfold mergeBlocks at e
  split at e
  · cases e
  · cases e
  · next joined hjoined =>
    have hjoins := Block.append?_joins hjoined
    have hfound : first.Joins second ((search config joined position).2.elim joined (·.1)) := by
      cases hs : (search config joined position).2 with
      | none => exact hjoins
      | some found => exact hjoins.of_refines (search_refines hs)
    dsimp only at e
    split at e
    · next hsmaller =>
      cases e
      exact ⟨hfound, by omega⟩
    · cases e

end DeflateRecoder
