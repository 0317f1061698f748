import DeflateRecoder.Optimise.Pass
import DeflateRecoder.Proofs.Search.Merging
import DeflateRecoder.Proofs.Stream.RoundTrip
import Mathlib.Logic.Function.Iterate

/-!
# Passes keep the bytes and never make a stream bigger

A block that is removed, replaced or merged ends earlier or where it did, and blocks that open
earlier end earlier: padding never takes more than the blocks before it gave. So a pass improves the
blocks it visits (`Stream.visit_improves`), any number of passes does, and what `Stream.optimise`
reports is the difference in size (`Stream.passes_improve`).
-/

namespace DeflateRecoder

namespace Stream

/-! ## Ends of blocks -/

/-- Blocks that open earlier end no later: padding makes up for less than a byte, and a stored block
ends at a whole one. -/
theorem endOfBlocks_mono {p q : Nat} (h : p ≤ q) (blocks : List Block) :
    endOfBlocks p blocks ≤ endOfBlocks q blocks := by
  induction blocks generalizing p q with
  | nil => exact h
  | cons b rest ih => exact ih (Block.endOf_mono h b)

/-- No block ends before it opens. -/
theorem le_endOf (position : Nat) (b : Block) : position ≤ b.endOf position := by
  rw [Block.endOf]
  omega

/-! ## Improvements -/

/-- Blocks in the place of others: they stand for the same bytes, are no more and no bigger, and are
well-formed wherever the others are. -/
structure Improves (position : Nat) (old new : List Block) : Prop where
  bytes_eq : new.flatMap (·.bytes) = old.flatMap (·.bytes)
  length_le : new.length ≤ old.length
  end_le : endOfBlocks position new ≤ endOfBlocks position old
  chain : ∀ w, Chain w old → Chain w new

namespace Improves

variable {position : Nat}

/-- Blocks may stay as they are. -/
theorem refl (position : Nat) (blocks : List Block) : Improves position blocks blocks :=
  ⟨rfl, Nat.le_refl _, Nat.le_refl _, fun _ => id⟩

/-- Improvements follow one another. -/
theorem trans {a b c : List Block} (hb : Improves position a b) (hc : Improves position b c) :
    Improves position a c :=
  ⟨hc.bytes_eq.trans hb.bytes_eq, Nat.le_trans hc.length_le hb.length_le,
    Nat.le_trans hc.end_le hb.end_le, fun w h => hc.chain w (hb.chain w h)⟩

/-- A block may stay in front of blocks that are improved. -/
theorem cons {b : Block} {old new : List Block} (h : Improves (b.endOf position) old new) :
    Improves position (b :: old) (b :: new) where
  bytes_eq := by rw [List.flatMap_cons, List.flatMap_cons, h.bytes_eq]
  length_le := Nat.succ_le_succ h.length_le
  end_le := h.end_le
  chain := fun w hc => ⟨hc.1, h.chain _ hc.2⟩

/-- A block without bytes can go. -/
theorem remove {b : Block} (hb : b.bytes = []) (rest : List Block) :
    Improves position (b :: rest) rest where
  bytes_eq := by rw [List.flatMap_cons, hb, List.nil_append]
  length_le := Nat.le_succ _
  end_le := endOfBlocks_mono (le_endOf position b) rest
  chain := fun w hc => by
    refine hc.2.congr (Window.agrees_of_flatten_eq ?_)
    rw [hb]
    exact List.append_nil _

/-- A block can be replaced by one that refines it and is not bigger. -/
theorem replace {b c : Block} (h : b.Refines c)
    (hsize : c.bitSize (position + openingBits) ≤ b.bitSize (position + openingBits))
    (rest : List Block) : Improves position (b :: rest) (c :: rest) where
  bytes_eq := by rw [List.flatMap_cons, List.flatMap_cons, h.bytes_eq]
  length_le := Nat.le_refl _
  end_le := endOfBlocks_mono (Nat.add_le_add_left hsize _) rest
  chain := fun w hc => ⟨h.wellFormed w hc.1, by rw [h.bytes_eq]; exact hc.2⟩

/-- Two blocks can be replaced by one that joins them and ends no later. -/
theorem merge {a b c : Block} (h : a.Joins b c)
    (hend : c.endOf position ≤ b.endOf (a.endOf position)) (rest : List Block) :
    Improves position (a :: b :: rest) (c :: rest) where
  bytes_eq := by
    rw [List.flatMap_cons, List.flatMap_cons, List.flatMap_cons, h.bytes_eq, List.append_assoc]
  length_le := Nat.le_succ _
  end_le := endOfBlocks_mono hend rest
  chain := fun w hc => by
    obtain ⟨ha, hb, hrest⟩ := hc
    refine ⟨h.wellFormed w ha hb, hrest.congr (Window.agrees_of_flatten_eq ?_)⟩
    show (Window.flatten w.blocks ++ a.bytes) ++ b.bytes = Window.flatten w.blocks ++ c.bytes
    rw [h.bytes_eq, List.append_assoc]

end Improves

/-! ## One pass -/

/-- Merged with the block at hand is the first of those behind it. -/
theorem mergeFront_spec {config : Config} {first merged : Block} {start : Nat} {behind : List Entry}
    {rest : { rest : List Entry // rest.length < behind.length }} {events : List Event}
    (e : mergeFront config first start behind = (events, some (merged, rest))) :
    ∃ second, behind = second :: rest.1 ∧
      mergeBlocks config first second.block start = (events, some merged) := by
  cases behind with
  | nil => cases e
  | cons second behind =>
    rw [mergeFront] at e
    split at e
    · obtain ⟨hevents, hfound⟩ := Prod.mk.inj e
      obtain ⟨m, hm, he⟩ := Option.map_eq_some_iff.1 hfound
      cases he
      exact ⟨second, rfl, Prod.ext hevents hm⟩
    · cases e

/-- Where merging is allowed, it is done with what is found for the first two blocks. -/
theorem mergeFront_eq_some {config : Config} {first merged : Block} {start : Nat} {second : Entry}
    {rest : List Entry} (hmerge : config.merge = true)
    (hmerged : (mergeBlocks config first second.block start).2 = some merged) :
    mergeFront config first start (second :: rest) =
      ((mergeBlocks config first second.block start).1,
        some (merged, ⟨rest, Nat.lt_succ_self _⟩)) := by
  rw [mergeFront, if_pos hmerge]
  exact Prod.ext rfl (congrArg (Option.map _) hmerged)

/-- A pass improves the blocks it visits. -/
theorem visit_improves (config : Config) (index position : Nat) (entries : List Entry) :
    Improves position (entries.map (·.block))
      ((visit config index position entries).entries.map (·.block)) := by
  fun_induction visit config index position entries with
  | case1 => exact .refl _ _
  | case2 index position e behind start size hgone ih =>
    have hbytes : e.block.bytes = [] := List.isEmpty_iff.1 (Bool.and_eq_true _ _ ▸ hgone).1
    exact (Improves.remove hbytes _).trans ih
  | case3 index position e behind start size _ events better hbetter hsearch ih =>
    have hfound : (search config e.block start).2 = some ⟨better, hbetter⟩ := by rw [hsearch]
    exact (Improves.replace (search_refines hfound) (Nat.le_of_lt hbetter) _).trans ih
  | case4 index position e behind start size _ events _ further merged rest hrest hmerge ih =>
    obtain ⟨second, hbehind, hmerged⟩ := mergeFront_spec hmerge
    obtain ⟨hjoins, hend⟩ := mergeBlocks_spec (congrArg Prod.snd hmerged)
    rw [hbehind]
    exact (Improves.merge hjoins (Nat.le_of_lt hend) _).trans ih
  | case5 index position e behind start size _ events _ further _ ih => exact ih.cons

/-- A pass that begins by merging two blocks leaves one block less, or even fewer. -/
theorem length_visit_of_merge {config : Config} {index position : Nat} {first second : Entry}
    {rest : List Entry} {merged : Block} (hmerge : config.merge = true)
    (hstays : first.block.isEmpty = false)
    (hsearch : (search config first.block (position + openingBits)).2 = none)
    (hmerged : (mergeBlocks config first.block second.block (position + openingBits)).2 =
      some merged) :
    (visit config index position (first :: second :: rest)).entries.length ≤ rest.length + 1 := by
  have hsearched : search config first.block (position + openingBits) =
      ((search config first.block (position + openingBits)).1, none) := Prod.ext rfl hsearch
  rw [visit, hstays, Bool.false_and, if_neg Bool.false_ne_true, hsearched]
  dsimp only
  rw [mergeFront_eq_some hmerge hmerged]
  exact (visit_sound config index position (⟨first.id, merged⟩ :: rest)).length_le

/-- A pass over a whole stream leaves blocks. -/
theorem visit_ne_nil (config : Config) (index position : Nat) (entries : List Entry)
    (hindex : index = 0) (hne : entries ≠ []) :
    (visit config index position entries).entries ≠ [] := by
  fun_induction visit config index position entries with
  | case1 => exact absurd rfl hne
  | case2 index position e behind start size hgone ih =>
    refine ih hindex ?_
    rintro rfl
    rw [hindex, Bool.and_eq_true] at hgone
    exact absurd hgone.2 (by decide)
  | case3 _ _ _ _ _ _ _ _ _ _ _ ih => exact ih hindex (List.cons_ne_nil _ _)
  | case4 _ _ _ _ _ _ _ _ _ _ _ _ _ _ ih => exact ih hindex (List.cons_ne_nil _ _)
  | case5 => exact List.cons_ne_nil _ _

/-! ## Any number of passes -/

/-- A stream has as many blocks as are listed. -/
theorem length_eq (s : Stream) : s.length = s.blocks.length := by
  rw [Stream.blocks, List.length_map, Stream.length]

/-- The entries after a pass over all of them. -/
def passOver (config : Config) (entries : List Entry) : List Entry :=
  (visit config 0 0 entries).entries

/-- The stream after a number of passes. -/
def afterPasses (config : Config) (n : Nat) (s : Stream) : Stream :=
  { s with entries := (passOver config)^[n] s.entries }

/-- Passes are made one after the other, as many as are counted. -/
theorem entries_settle (config : Config) (pass : Nat) (entries : List Entry) :
    ∃ n, (settle config pass entries).passes = pass + n ∧
      (settle config pass entries).entries = (passOver config)^[n + 1] entries := by
  fun_induction settle config pass entries with
  | case1 pass entries p events hmore later ih =>
    obtain ⟨n, hpasses, hentries⟩ := ih
    refine ⟨n + 1, ?_, ?_⟩
    · rw [hpasses, Nat.add_assoc, Nat.add_comm 1]
    · rw [Function.iterate_succ_apply]
      exact hentries
  | case2 pass entries p events hstop => exact ⟨0, rfl, rfl⟩

/-- What is left is the stream after all passes. -/
theorem stream_optimise (config : Config) (s : Stream) :
    (s.optimise config).stream = s.afterPasses config (settle config 1 s.entries).passes := by
  obtain ⟨n, hpasses, hentries⟩ := entries_settle config 1 s.entries
  rw [optimise, afterPasses, hpasses, Nat.add_comm, ← hentries]

/-- The next pass goes over the blocks that the last one left. -/
theorem blocks_afterPasses_succ (config : Config) (n : Nat) (s : Stream) :
    (s.afterPasses config (n + 1)).blocks =
      (visit config 0 0 (s.afterPasses config n).entries).entries.map (·.block) := by
  rw [Stream.blocks, afterPasses, Function.iterate_succ_apply']
  rfl

/-- Each pass improves the blocks that the one before it left. -/
theorem pass_improves (config : Config) (n : Nat) (s : Stream) :
    Improves 0 (s.afterPasses config n).blocks (s.afterPasses config (n + 1)).blocks := by
  rw [blocks_afterPasses_succ]
  exact visit_improves config 0 0 _

/-- Any number of passes improves the blocks of a stream. -/
theorem passes_improve (config : Config) (n : Nat) (s : Stream) :
    Improves 0 s.blocks (s.afterPasses config n).blocks := by
  induction n with
  | zero => exact .refl _ _
  | succ n ih => exact ih.trans (pass_improves config n s)

/-- No number of passes leaves a stream without blocks. -/
theorem afterPasses_ne_nil (config : Config) (n : Nat) {s : Stream} (hne : s.entries ≠ []) :
    (s.afterPasses config n).entries ≠ [] := by
  induction n with
  | zero => exact hne
  | succ n ih =>
    rw [afterPasses, Function.iterate_succ_apply']
    exact visit_ne_nil config 0 0 _ rfl ih

/-- Optimising improves the blocks of a stream. -/
theorem optimise_improves (config : Config) (s : Stream) :
    Improves 0 s.blocks (s.optimise config).stream.blocks := by
  rw [stream_optimise]
  exact passes_improve config _ s

/-- Optimising a stream that was read leaves a chain of blocks, and not an empty one. -/
theorem chain_optimise {name : String} {bytes : List UInt8} {s : Stream}
    (h : parse name bytes = .ok s) (config : Config) :
    (s.optimise config).stream.blocks ≠ [] ∧
      Chain Window.empty (s.optimise config).stream.blocks := by
  obtain ⟨hne, hchain, -⟩ := read_of_parse h
  refine ⟨?_, (optimise_improves config s).chain _ hchain⟩
  rw [stream_optimise, Stream.blocks, ne_eq, List.map_eq_nil_iff]
  exact afterPasses_ne_nil config _ (entries_ne_nil hne)

/-- Optimising a stream that was read leaves at least one block, and no more than there were. -/
theorem length_optimise {name : String} {bytes : List UInt8} {s : Stream}
    (h : parse name bytes = .ok s) (config : Config) :
    1 ≤ (s.optimise config).stream.length ∧ (s.optimise config).stream.length ≤ s.length := by
  rw [length_eq, length_eq]
  exact ⟨List.length_pos_iff.2 (chain_optimise h config).1, (optimise_improves config s).length_le⟩

/-- Every pass over a stream that was read keeps its bytes and at least one block, and makes neither
its size nor its number of blocks bigger. What optimising reports is the difference in size between
the stream before the first and after the last pass. -/
theorem optimise_never_grows {name : String} {bytes : List UInt8} {s : Stream}
    (h : parse name bytes = .ok s) (config : Config) :
    (∀ n, (s.afterPasses config (n + 1)).bitSize ≤ (s.afterPasses config n).bitSize ∧
      (s.afterPasses config (n + 1)).bytes = (s.afterPasses config n).bytes ∧
      (s.afterPasses config (n + 1)).length ≤ (s.afterPasses config n).length ∧
      1 ≤ (s.afterPasses config (n + 1)).length) ∧
    (s.optimise config).stream = s.afterPasses config (settle config 1 s.entries).passes ∧
    (s.optimise config).saved + (s.optimise config).stream.bitSize = s.bitSize := by
  have hne := entries_ne_nil (read_of_parse h).1
  refine ⟨fun n => ?_, stream_optimise config s, ?_⟩
  · have hpass := pass_improves config n s
    refine ⟨hpass.end_le, hpass.bytes_eq, ?_, ?_⟩
    · rw [length_eq, length_eq]
      exact hpass.length_le
    · exact List.length_pos_iff.2 (afterPasses_ne_nil config (n + 1) hne)
  · exact Nat.sub_add_cancel (optimise_improves config s).end_le

/-- Two literals in blocks of their own, which the first pass merges, and a stored byte. -/
theorem optimise_never_grows_several :
    let s := ofBlocks "" [literalBlock 97, literalBlock 98, .stored ⟨[65], by decide⟩]
    parse "" [74, 4, 40, 9, 144, 1, 0, 254, 255, 65, 7] = .ok s ∧ s.bitSize = 80 ∧
      (s.afterPasses {} 1).length < s.length ∧ (s.afterPasses {} 1).bytes = [97, 98, 65] ∧
      (s.afterPasses {} 1).bitSize ≤ 80 ∧ 1 ≤ (s.afterPasses {} 1).length ∧
      (s.optimise {}).saved + (s.optimise {}).stream.bitSize = 80 := by
  intro s
  have hsize : s.bitSize = 80 := by decide +kernel
  obtain ⟨merged, hmerged⟩ := @mergeBlocks_literals {} openingBits 97 98 (by decide) (by decide)
  have hfewer : (s.afterPasses {} 1).length < s.length :=
    Nat.lt_succ_of_le (length_visit_of_merge rfl rfl (search_literalBlock (by decide)) hmerged)
  obtain ⟨hpasses, -, hsaved⟩ := optimise_never_grows parse_several {}
  obtain ⟨hle, hbytes, -, hone⟩ := hpasses 0
  exact ⟨parse_several, hsize, hfewer, hbytes, Nat.le_trans hle (Nat.le_of_eq hsize), hone,
    hsaved.trans hsize⟩

end Stream

end DeflateRecoder
