import DeflateRecoder.Proofs.Optimise.Pass

/-!
# What passes end at

A pass visits every block where it stands, so it changes nothing just when there is nothing to do
about any block (`Stream.visit_unchanged_iff`). Passes without a bound on their number end with one
that changes nothing. So nothing is left to do about the blocks of an optimised stream
(`Stream.optimise_exhausts`), and a stream of such blocks is left as it is
(`Stream.optimise_of_exhausted`).
-/

namespace DeflateRecoder

namespace Stream

/-! ## Nothing to do -/

/-- There is nothing to do about a block that opens at bit `position` behind `index` others and in
front of `behind`. -/
structure Stays (config : Config) (index position : Nat) (b : Block) (behind : List Block) :
    Prop where
  alone : b.bytes = [] → index = 0 ∧ behind = []
  search_eq : (search config b (position + openingBits)).2 = none
  merge_eq : config.merge = true → ∀ next ∈ behind.head?,
    (mergeBlocks config b next (position + openingBits)).2 = none

/-- There is nothing to do about any of some blocks, of which the first opens at bit `position`
behind `index` others. -/
def Exhausted (config : Config) : (index position : Nat) → List Block → Prop
  | _, _, [] => True
  | index, position, b :: behind =>
    Stays config index position b behind ∧ Exhausted config (index + 1) (b.endOf position) behind

variable {config : Config}

/-- Each of such blocks has nothing to do about it where the sizes of those before it put it. -/
theorem Exhausted.stays {index position : Nat} {before : List Block} {b : Block}
    {behind : List Block} (h : Exhausted config index position (before ++ b :: behind)) :
    Stays config (index + before.length) (endOfBlocks position before) b behind := by
  induction before generalizing index position with
  | nil => exact h.1
  | cons a before ih =>
    have hlater := ih h.2
    rw [Nat.add_assoc, Nat.add_comm 1] at hlater
    exact hlater

/-! ## A pass that changes nothing -/

/-- A block that is empty only where it is alone does not go. -/
theorem alone_iff {index : Nat} {b : Block} {behind : List Entry} :
    (b.bytes = [] → index = 0 ∧ behind.map (·.block) = []) ↔
      ¬(b.isEmpty && (index != 0 || !behind.isEmpty)) = true := by
  rw [Block.isEmpty, Bool.and_eq_true, Bool.or_eq_true, List.isEmpty_iff, bne_iff_ne,
    Bool.not_eq_true', List.isEmpty_eq_false_iff, not_and, not_or, ne_eq, ne_eq, not_not, not_not,
    List.map_eq_nil_iff]

/-- A block is not merged with what is behind it just when merging is off, nothing is behind it, or
nothing smaller is found for it and the first block there. -/
theorem mergeFront_eq_none_iff {first : Block} {start : Nat} {behind : List Entry} :
    (mergeFront config first start behind).2 = none ↔
      (config.merge = true → ∀ next ∈ (behind.map (·.block)).head?,
        (mergeBlocks config first next start).2 = none) := by
  cases behind with
  | nil => exact ⟨fun _ _ => nofun, fun _ => rfl⟩
  | cons second rest =>
    rw [mergeFront, List.map_cons, List.head?_cons]
    split
    · next hmerge =>
      rw [Option.map_eq_none_iff]
      refine ⟨?_, fun h => h hmerge _ rfl⟩
      rintro h - _ ⟨⟩
      exact h
    · next hmerge => exact ⟨fun _ h => absurd h hmerge, fun _ => rfl⟩

/-- A pass changes nothing just when there is nothing to do about any block. -/
theorem visit_unchanged_iff (config : Config) (index position : Nat) (entries : List Entry) :
    (visit config index position entries).changed = false ↔
      Exhausted config index position (entries.map (·.block)) := by
  -- A pass that begins with a change has changed something.
  have hchange : ∀ (p : Pass) (events : List Event), ¬(p.afterChange events).changed = false :=
    fun _ _ => Bool.noConfusion
  fun_induction visit config index position entries with
  | case1 => exact ⟨fun _ => trivial, fun _ => rfl⟩
  | case2 index position e behind start size hgone ih =>
    exact iff_of_false (hchange _ _) fun h => alone_iff.1 h.1.alone hgone
  | case3 index position e behind start size _ events better hbetter hsearch ih =>
    refine iff_of_false (hchange _ _) fun h => ?_
    have hnone := h.1.search_eq
    rw [hsearch] at hnone
    cases hnone
  | case4 index position e behind start size _ events _ further merged rest hrest hmerge ih =>
    refine iff_of_false (hchange _ _) fun h => ?_
    have hnone := mergeFront_eq_none_iff.2 h.1.merge_eq
    rw [hmerge] at hnone
    cases hnone
  | case5 index position e behind start size hstays events hsearch further hmerge ih =>
    have hfirst : Stays config index position e.block (behind.map (·.block)) :=
      ⟨alone_iff.2 hstays, by rw [hsearch], mergeFront_eq_none_iff.1 (by rw [hmerge])⟩
    exact ih.trans (and_iff_right hfirst).symm

/-- A pass that tells of no change leaves all blocks. -/
theorem visit_entries_of_unchanged {index position : Nat} {entries : List Entry}
    (h : (visit config index position entries).changed = false) :
    (visit config index position entries).entries = entries := by
  have hsound := visit_sound config index position entries
  rwa [Pass.Sound, if_neg (Bool.eq_false_iff.1 h)] at hsound

/-! ## The last pass -/

/-- Passes without a bound on their number end where a further one would change nothing. -/
theorem visit_settle (hmax : config.maxPasses = 0) (pass : Nat) (entries : List Entry) :
    (visit config 0 0 (settle config pass entries).entries).changed = false := by
  fun_induction settle config pass entries with
  | case1 pass entries p events hmore later ih => exact ih
  | case2 pass entries p events hstop =>
    have hunchanged : p.changed = false :=
      Bool.eq_false_iff.2 fun hchanged => hstop ⟨hchanged, .inl hmax⟩
    have hsame : p.entries = entries := visit_entries_of_unchanged hunchanged
    rw [hsame]
    exact hunchanged

/-- Without a bound on the number of passes nothing is left to do about any block. -/
theorem exhausted_optimise (hmax : config.maxPasses = 0) (s : Stream) :
    Exhausted config 0 0 (s.optimise config).stream.blocks :=
  (visit_unchanged_iff config 0 0 _).1 (visit_settle hmax 1 s.entries)

/-- A stream with nothing to do about its blocks is left as it is, whatever the bound on the number
of passes. -/
theorem optimise_of_exhausted {s : Stream} (h : Exhausted config 0 0 s.blocks) :
    (s.optimise config).stream = s ∧ (s.optimise config).saved = 0 := by
  have hunchanged := (visit_unchanged_iff config 0 0 s.entries).2 h
  have hentries : (settle config 1 s.entries).entries = s.entries := by
    rw [settle, dif_neg fun hmore => Bool.eq_false_iff.1 hunchanged hmore.1]
    exact visit_entries_of_unchanged hunchanged
  have hstream : (s.optimise config).stream = s := by
    rw [optimise, hentries]
  refine ⟨hstream, ?_⟩
  have hsaved : (s.optimise config).saved = s.bitSize - (s.optimise config).stream.bitSize := rfl
  rw [hsaved, hstream, Nat.sub_self]

/-- Without a bound on the number of passes, optimising ends with a stream in which no block can be
replaced by a smaller one where it stands, no two neighbours can be merged if merging is allowed,
and no block is without bytes unless it is the only one. -/
theorem optimise_exhausts (s : Stream) {config : Config} (hmax : config.maxPasses = 0)
    (before : List Block) (b : Block) (behind : List Block)
    (h : (s.optimise config).stream.blocks = before ++ b :: behind) :
    let start := endOfBlocks 0 before + openingBits
    (search config b start).2 = none ∧
      (config.merge = true → ∀ next ∈ behind.head?, (mergeBlocks config b next start).2 = none) ∧
      (b.bytes = [] → before = [] ∧ behind = []) := by
  intro start
  have hall := exhausted_optimise hmax s
  rw [h] at hall
  obtain ⟨halone, hsearch, hmerge⟩ := hall.stays
  refine ⟨hsearch, hmerge, fun hempty => ?_⟩
  obtain ⟨hindex, hbehind⟩ := halone hempty
  rw [Nat.zero_add] at hindex
  exact ⟨List.eq_nil_of_length_eq_zero hindex, hbehind⟩

/-- Two literals in blocks of their own and a stored byte end as one block, for which nothing smaller
is found. As long as there are two, something can be done about them. -/
theorem optimise_exhausts_several :
    let s := ofBlocks "" [literalBlock 97, literalBlock 98, .stored ⟨[65], by decide⟩]
    parse "" [74, 4, 40, 9, 144, 1, 0, 254, 255, 65, 7] = .ok s ∧
      ∃ b, (s.optimise {}).stream.blocks = [b] ∧ b.bytes = [97, 98, 65] ∧
        (search {} b openingBits).2 = none := by
  intro s
  obtain ⟨hne, hchain⟩ := chain_optimise parse_several {}
  have hbytes : (s.optimise {}).stream.blocks.flatMap (·.bytes) = [97, 98, 65] :=
    (optimise_improves {} s).bytes_eq
  refine ⟨parse_several, ?_⟩
  match hblocks : (s.optimise {}).stream.blocks with
  | [] => exact absurd hblocks hne
  | [b] =>
    rw [hblocks, List.flatMap_singleton] at hbytes
    exact ⟨b, rfl, hbytes, (optimise_exhausts s rfl [] b [] hblocks).1⟩
  | first :: second :: rest =>
    obtain ⟨hfirst, hmerge, hsome⟩ := optimise_exhausts s rfl [] first (second :: rest) hblocks
    obtain ⟨hsecond, -, hmore⟩ := optimise_exhausts s rfl [first] second rest hblocks
    rw [hblocks] at hchain
    rw [hblocks, List.flatMap_cons, List.flatMap_cons, ← List.append_assoc] at hbytes
    have hshort : ∀ byte ∈ (first.bytes ++ second.bytes) ++ rest.flatMap (·.bytes),
        byte.toNat < 144 := by
      rw [hbytes]
      simp
    -- Neither of the two is without bytes, so the other has no more than two.
    have hlength := congrArg List.length hbytes
    rw [List.length_append, List.length_append] at hlength
    have hpos : 0 < first.bytes.length := List.length_pos_iff.2 fun hnil =>
      List.cons_ne_nil _ _ (hsome hnil).2
    have hpos' : 0 < second.bytes.length := List.length_pos_iff.2 fun hnil =>
      List.cons_ne_nil _ _ (hmore hnil).1
    have hall : [97, 98, 65].length = 3 := rfl
    obtain ⟨merged, hmerged⟩ := exists_mergeBlocks_of_unsearched hchain.1 hchain.2.1 (by omega)
      (by omega) (List.forall_mem_append.1 hshort).1 hfirst hsecond
    rw [hmerge rfl second rfl] at hmerged
    cases hmerged

end Stream

end DeflateRecoder
