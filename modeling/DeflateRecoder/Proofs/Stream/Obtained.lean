import DeflateRecoder.Proofs.Optimise.Pass
import DeflateRecoder.Proofs.Stream.Handles

/-!
# Streams however they come up

`Stream.Obtained` are the streams that come up when blocks are read, added, replaced and taken out,
and streams are optimised, in any order. What they all have in common is `Stream.Tracked`: new
handles are counted up, and whatever else is done leaves handles where they are or drops them
(`Stream.Tracked.of_sublist`), so no two blocks share one.
-/

namespace DeflateRecoder

namespace Stream

/-- No two blocks share a handle, and the handles still to be given out are new. -/
structure Tracked (s : Stream) : Prop where
  distinct : s.ids.Nodup
  index_lt : ∀ id ∈ s.ids, id.index < s.issued

variable {s t : Stream} {id : BlockId} {old : Block}

/-! ## Handles that are given out -/

/-- The empty stream has given out no handles. -/
theorem tracked_empty : empty.Tracked where
  distinct := List.nodup_nil
  index_lt := nofun

/-- Blocks get the handles from zero on. -/
theorem ids_ofBlocks (name : String) (blocks : List Block) :
    (ofBlocks name blocks).ids = (List.range blocks.length).map BlockId.mk := by
  rw [ids, ofBlocks, List.map_map, List.range_eq_range', ← List.zipIdx_map_snd 0 blocks,
    List.map_map]
  rfl

/-- The handles of a new stream are distinct and given out. -/
theorem tracked_ofBlocks (name : String) (blocks : List Block) :
    (ofBlocks name blocks).Tracked where
  distinct := by
    rw [ids_ofBlocks]
    exact List.Pairwise.map BlockId.mk (fun _ _ hne h => hne (congrArg BlockId.index h))
      List.nodup_range
  index_lt id hid := by
    rw [ids_ofBlocks, List.mem_map] at hid
    obtain ⟨i, hi, rfl⟩ := hid
    exact List.mem_range.1 hi

/-- A stream that was read is made of its blocks. -/
theorem tracked_of_parse {name : String} {bytes : List UInt8} (h : parse name bytes = .ok s) :
    s.Tracked := by
  unfold parse at h
  split at h
  · cases h
    exact tracked_ofBlocks _ _
  · cases h

/-- A block that is added has the next handle. -/
theorem ids_push (s : Stream) (block : Block) : (s.push block).2.ids = s.ids ++ [⟨s.issued⟩] := by
  rw [ids, Stream.push, List.map_append]
  rfl

/-- The next handle is no other's. -/
theorem Tracked.push (h : s.Tracked) (block : Block) : (s.push block).2.Tracked where
  distinct := by
    have hnew : ∀ id ∈ s.ids, id ≠ ⟨s.issued⟩ := by
      rintro id hid rfl
      exact Nat.lt_irrefl _ (h.index_lt _ hid)
    rw [ids_push, List.nodup_append]
    exact ⟨h.distinct, by simp, by simpa using hnew⟩
  index_lt id hid := by
    rw [ids_push, List.mem_append, List.mem_singleton] at hid
    obtain hid | rfl := hid
    · exact Nat.lt_succ_of_lt (h.index_lt id hid)
    · exact Nat.lt_succ_self _

/-! ## Handles that stay, or go -/

/-- Fewer handles are distinct and given out as well. -/
theorem Tracked.of_sublist (h : s.Tracked) (hids : t.ids.Sublist s.ids)
    (hissued : t.issued = s.issued) : t.Tracked where
  distinct := h.distinct.sublist hids
  index_lt id hid := hissued ▸ h.index_lt id (hids.subset hid)

/-- A block that is replaced leaves its handle. -/
theorem ids_replace? {block : Block} (h : s.replace? id block = some (old, t)) :
    t.ids = s.ids ∧ t.issued = s.issued := by
  obtain ⟨_, -, he⟩ := Option.map_eq_some_iff.1 h
  cases he
  refine ⟨?_, rfl⟩
  rw [ids, ids, List.map_map]
  refine List.map_congr_left fun e _ => ?_
  rw [Function.comp_apply]
  split
  · next hid => exact hid.symm
  · rfl

/-- A block that is taken out takes its handle along, and that is not given out again. -/
theorem ids_remove? (h : s.remove? id = some (old, t)) :
    t.ids.Sublist s.ids ∧ t.issued = s.issued := by
  obtain ⟨_, -, he⟩ := Option.map_eq_some_iff.1 h
  cases he
  exact ⟨List.filter_sublist.map _, rfl⟩

/-- Every call keeps handles distinct and given out. -/
theorem Tracked.perform (h : s.Tracked) (call : Call) : (s.perform call).2.Tracked := by
  cases call with
  | push block => exact h.push block
  | replace id block =>
    rw [Stream.perform]
    split
    · exact h
    · next e =>
      obtain ⟨hids, hissued⟩ := ids_replace? e
      exact h.of_sublist (hids ▸ List.Sublist.refl _) hissued
  | remove id =>
    rw [Stream.perform]
    split
    · exact h
    · next e =>
      obtain ⟨hids, hissued⟩ := ids_remove? e
      exact h.of_sublist hids hissued

/-- A block that is replaced or merged keeps its handle in a pass. -/
theorem ids_visit (config : Config) (index position : Nat) (entries : List Entry) :
    ((visit config index position entries).entries.map (·.id)).Sublist (entries.map (·.id)) := by
  fun_induction visit config index position entries with
  | case1 => exact .refl _
  | case2 _ _ _ _ _ _ _ ih => exact ih.cons _
  | case3 _ _ _ _ _ _ _ _ _ _ _ ih => exact ih
  | case4 _ _ e behind _ _ _ _ _ _ _ _ _ hmerge ih =>
    obtain ⟨second, hbehind, -⟩ := mergeFront_spec hmerge
    rw [hbehind]
    exact ih.trans ((List.sublist_cons_self second.id _).cons_cons e.id)
  | case5 _ _ _ _ _ _ _ _ _ _ _ ih => exact ih.cons_cons _

/-- Passes give no new handles. -/
theorem ids_afterPasses (config : Config) (n : Nat) (s : Stream) :
    (s.afterPasses config n).ids.Sublist s.ids := by
  induction n with
  | zero => exact .refl _
  | succ n ih =>
    rw [ids, afterPasses, Function.iterate_succ_apply']
    exact (ids_visit config 0 0 _).trans ih

/-- Optimising keeps handles distinct and given out. -/
theorem Tracked.optimise (h : s.Tracked) (config : Config) :
    (s.optimise config).stream.Tracked := by
  rw [stream_optimise]
  exact h.of_sublist (ids_afterPasses config _ s) rfl

/-! ## All streams -/

/-- The streams that reading, calls and optimising give, in any order. -/
inductive Obtained : Stream → Prop
  | empty : Obtained empty
  | parse {name : String} {bytes : List UInt8} {s : Stream} (h : parse name bytes = .ok s) :
    Obtained s
  | perform {s : Stream} (h : Obtained s) (call : Call) : Obtained (s.perform call).2
  | optimise {s : Stream} (h : Obtained s) (config : Config) :
    Obtained (s.optimise config).stream

/-- However a stream was obtained, its handles are distinct and given out. -/
theorem Obtained.tracked (h : s.Obtained) : s.Tracked := by
  induction h with
  | empty => exact tracked_empty
  | parse h => exact tracked_of_parse h
  | perform _ call ih => exact ih.perform call
  | optimise _ config ih => exact ih.optimise config

end Stream

end DeflateRecoder
