import DeflateRecoder.Proofs.Code.Kraft
import DeflateRecoder.Proofs.Code.TreeLimit

/-!
# Codes that use all words

`CodeTree.ofWeights_complete` says for which weights and limits there is a code, and what it is
like. The symbols that have a weight get a word, and if these are fewer than two the first of the
others as well (`mem_symbols_ofWeights`); no word is longer than the limit, and together the words
take all the space there is (`codeSpace_table`).
-/

namespace DeflateRecoder

namespace CodeTree

/-! ## The symbols with leaves -/

/-- There are as many symbols with a property as weights that have it. -/
theorem length_symbolsWhere (p : Nat → Bool) (weights : List Nat) :
    (symbolsWhere p weights).length = weights.countP p := by
  rw [symbolsWhere, List.length_map, ← List.countP_eq_length_filter]
  conv => rhs; rw [← List.zipIdx_map_fst 0 weights, List.countP_map]
  rfl

/-- There are as many leaves as positive weights. -/
theorem length_weightedLeaves (weights : List Nat) :
    (weightedLeaves weights).length = weights.countP (0 < ·) := by
  rw [weightedLeaves_eq, List.length_map, length_symbolsWhere]

/-- The symbols without a weight, in order. -/
theorem symbolsWhere_zero (weights : List Nat) :
    symbolsWhere (· = 0) weights = Decoder.placesOfLength 0 weights 0 := by
  have key : ∀ start, ((weights.zipIdx start).filter fun a => a.1 = 0).map (·.2) =
      Decoder.placesOfLength 0 weights start := by
    induction weights with
    | nil => exact fun _ => rfl
    | cons w weights ih =>
      intro start
      rw [List.zipIdx_cons, Decoder.placesOfLength]
      by_cases hw : w = 0
      · rw [if_pos hw, List.filter_cons_of_pos (by simpa using hw), List.map_cons, ih]
      · rw [if_neg hw, List.filter_cons_of_neg (by simpa using hw), ih]
  exact key 0

/-- The first of the symbols without weight are those in front of which there are few enough
others. -/
theorem mem_take_symbolsWhere_zero {weights : List Nat} {k s : Nat} :
    s ∈ (symbolsWhere (· = 0) weights).take k ↔
      weights[s]? = some 0 ∧ (weights.take s).count 0 < k := by
  simp only [symbolsWhere_zero, List.mem_iff_getElem?, List.getElem?_take,
    Option.ite_none_right_eq_some, Decoder.getElem?_placesOfLength, Nat.zero_add]
  constructor
  · rintro ⟨i, hlt, s', rfl, hs, rfl⟩
    exact ⟨hs, hlt⟩
  · rintro ⟨hs, hlt⟩
    exact ⟨_, hlt, s, rfl, hs, rfl⟩

variable {weights : List Nat} {limit : Nat} {leaves : List Leaf}

/-- Of the symbols without a weight, those get a leaf that come first, so that there are two. -/
theorem mem_symbols_ofWeights (h : ofWeights weights limit = .ok leaves) {s w : Nat}
    (hs : weights[s]? = some w) :
    s ∈ leaves.map (·.symbol) ↔
      0 < w ∨ weights.countP (0 < ·) + (weights.take s).count 0 < 2 := by
  rw [(symbols_ofWeights h).mem_iff, symbols_initialLeaves, List.mem_append,
    mem_take_symbolsWhere_zero, mem_symbolsWhere, length_weightedLeaves, hs]
  simp only [Option.some.injEq, exists_eq_left', decide_eq_true_eq]
  omega

/-! ## The table of complete leaves -/

section

variable {size : Nat}

/-- Just the symbols at the leaves have words. -/
theorem lengthOf_table_pos_iff (h : Covers size limit leaves) {s : Nat} :
    0 < (table size leaves).lengthOf s ↔ s ∈ leaves.map (·.symbol) := by
  constructor
  · intro hpos
    have hmem := (getElem?_lengths_table h (Nat.ne_of_gt hpos)).1
      (CodeTable.getElem?_lengths_of_pos hpos)
    exact List.mem_map.2 ⟨_, (inWordOrder_perm leaves).mem_iff.1 hmem, rfl⟩
  · intro hmem
    obtain ⟨l, hl, rfl⟩ := List.mem_map.1 hmem
    rw [lengthOf_table h hl]
    exact h.depth_pos l hl

/-- The longest word is as long as the deepest leaf is deep. -/
theorem maxLength_table (h : Covers size limit leaves) :
    (table size leaves).maxLength = maxDepth leaves := by
  have hperm := filter_lengths_perm h
  rw [CodeTable.maxLength_eq]
  refine Nat.le_antisymm (CodeTable.foldl_max_le fun n hn => ?_)
    (CodeTable.foldl_max_le fun n hn => ?_)
  · rcases Nat.eq_zero_or_pos n with rfl | hpos
    · exact Nat.zero_le _
    · have hmem := hperm.mem_iff.1 (List.mem_filter.2 ⟨hn, decide_eq_true hpos⟩)
      exact CodeTable.le_foldl_max 0 (.inl hmem)
  · have hmem := List.mem_of_mem_filter (hperm.mem_iff.2 hn)
    exact CodeTable.le_foldl_max 0 (.inl hmem)

/-- The words of a tree take all the space. -/
theorem codeSpace_table (h : Covers size limit leaves) :
    codeSpace ((table size leaves).lengths.filter (0 < ·)) = 1 := by
  obtain ⟨m, hm⟩ := h.complete
  have hle : ∀ n ∈ leaves.map (·.depth), n ≤ m := by
    intro n hn
    obtain ⟨l, hl, rfl⟩ := List.mem_map.1 hn
    exact hm.depth_le l hl
  rw [codeSpace_perm (filter_lengths_perm h), codeSpace_eq_one_iff hle, total_map]
  exact hm.sum_eq

end

/-! ## Leaves for weights -/

/-- Leaves are no more than there are words of the length allowed. -/
theorem Covers.length_le {size : Nat} (h : Covers size limit leaves) :
    leaves.length ≤ 2 ^ limit := by
  obtain ⟨m, hm⟩ := h.complete
  rw [← (hm.of_depth_le h.depth_le).sum_eq]
  generalize leaves = ls
  induction ls with
  | nil => exact Nat.le_refl 0
  | cons l ls ih =>
    have := Nat.two_pow_pos (limit - l.depth)
    rw [List.length_cons, total_cons]
    omega

/-- A code is found just when there are two symbols or more, and the limit leaves words for all that
have weight, or for two where fewer have some. -/
theorem ofWeights_eq_ok_of_room :
    (∃ leaves, ofWeights weights limit = .ok leaves) ↔
      2 ≤ weights.length ∧ max 2 (weights.countP (0 < ·)) ≤ 2 ^ limit := by
  rw [← length_weightedLeaves]
  constructor
  · rintro ⟨leaves, h⟩
    have htwo := (ofWeights_eq_ok_iff.1 h).1
    have hsum := length_weightedLeaves_add weights
    have hlen : 2 ≤ weights.length := by
      rw [initialLeaves, List.length_append, List.length_take] at htwo
      omega
    have hle := (ofWeights_spec h).1.length_le
    rw [length_ofWeights h, length_initialLeaves hlen] at hle
    exact ⟨hlen, hle⟩
  · rintro ⟨hlen, hroom⟩
    exact ofWeights_total hlen hroom

/-- The leaves make up a complete code for weights with no word longer than a limit. -/
structure CompleteCode (weights : List Nat) (limit : Nat) (leaves : List Leaf) : Prop where
  maxDepth_le : maxDepth leaves ≤ limit
  maxLength_eq : (table weights.length leaves).maxLength = maxDepth leaves
  size_eq : (table weights.length leaves).size = weights.length
  coded : ∀ s w, weights[s]? = some w → 0 < w →
    1 ≤ (table weights.length leaves).lengthOf s ∧
      (table weights.length leaves).lengthOf s ≤ limit
  /-- Of the symbols without a weight, just the first ones up to the second leaf have words. -/
  idle : ∀ s, weights[s]? = some 0 → (0 < (table weights.length leaves).lengthOf s ↔
    weights.countP (0 < ·) + (weights.take s).count 0 < 2)
  codeSpace_eq : codeSpace ((table weights.length leaves).lengths.filter (0 < ·)) = 1

/-- Two symbols or more get a code just if there are words enough of the length allowed, and it is
complete then. -/
theorem ofWeights_complete (weights : List Nat) (limit : Nat) :
    ((∃ leaves, ofWeights weights limit = .ok leaves) ↔
      2 ≤ weights.length ∧ max 2 (weights.countP (0 < ·)) ≤ 2 ^ limit) ∧
    ∀ leaves, ofWeights weights limit = .ok leaves → CompleteCode weights limit leaves := by
  refine ⟨ofWeights_eq_ok_of_room, fun leaves h => ?_⟩
  have hc := (ofWeights_spec h).1
  have hlengths := lengths_table_le hc
  refine ⟨?_, maxLength_table hc, size_table, fun s w hs hw => ?_, fun s hs => ?_,
    codeSpace_table hc⟩
  · rw [← maxLength_table hc, CodeTable.maxLength_eq]
    exact CodeTable.foldl_max_le hlengths
  · have hpos := (lengthOf_table_pos_iff hc).2 ((mem_symbols_ofWeights h hs).2 (.inl hw))
    exact ⟨hpos, CodeTable.lengthOf_le_of_lengths hlengths s⟩
  · rw [lengthOf_table_pos_iff hc, mem_symbols_ofWeights h hs, or_iff_right (Nat.lt_irrefl 0)]

/-- Five symbols whose tree of least weight is four deep, under a limit of three. -/
theorem ofWeights_complete_skewed :
    ∃ leaves, ofWeights [1, 1, 2, 4, 8, 0] 3 = .ok leaves ∧
      CompleteCode [1, 1, 2, 4, 8, 0] 3 leaves := by
  obtain ⟨leaves, h⟩ := (ofWeights_complete [1, 1, 2, 4, 8, 0] 3).1.2 (by decide)
  exact ⟨leaves, h, (ofWeights_complete [1, 1, 2, 4, 8, 0] 3).2 leaves h⟩

end CodeTree

end DeflateRecoder
