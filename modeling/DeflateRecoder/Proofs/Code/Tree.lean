import DeflateRecoder.Code.Tree
import DeflateRecoder.Proofs.Code.Canonical
import DeflateRecoder.Proofs.Total

/-!
# The leaves of a code tree

A tree of least weight and what is left of it when its depth is limited have the same symbols, and
their leaves use up the space of words (`CodeTree.Complete`). `ofWeights_spec` puts this together:
whatever the weights, each symbol that needs a word has one leaf, and none is too deep.
-/

namespace DeflateRecoder

namespace CodeTree

/-! ## Symbols -/

/-- The symbols of a tree from left to right. -/
def symbols : CodeTree → List Nat
  | leaf symbol => [symbol]
  | node left right => left.symbols ++ right.symbols

/-- The leaves from left to right hold the symbols from left to right. -/
theorem map_symbol_leaves (t : CodeTree) (d : Nat) :
    (t.leaves d).map (·.symbol) = t.symbols := by
  induction t generalizing d with
  | leaf symbol => rfl
  | node left right ihl ihr => rw [leaves, List.map_append, ihl, ihr, symbols]

/-- Putting a tree into a forest leaves all others there. -/
theorem insert_perm (t : Weighted) (forest : List Weighted) :
    (insert t forest).Perm (t :: forest) := by
  induction forest with
  | nil => exact List.Perm.refl _
  | cons u forest ih =>
    unfold insert
    split
    · exact (ih.cons u).trans (.swap _ _ _)
    · exact List.Perm.refl _

/-- Joining trees neither loses nor repeats a symbol. -/
theorem combine_symbols {forest : List Weighted} {t : CodeTree} (h : combine forest = some t) :
    t.symbols.Perm (forest.flatMap (·.tree.symbols)) := by
  fun_induction combine forest with
  | case1 => cases h
  | case2 u =>
    cases h
    rw [List.flatMap_cons, List.flatMap_nil, List.append_nil]
  | case3 a b forest ih =>
    refine (ih h).trans (((insert_perm _ forest).flatMap_right _).trans ?_)
    rw [List.flatMap_cons, List.flatMap_cons, List.flatMap_cons, symbols, List.append_assoc]

/-! ## Complete leaves -/

/-- The leaves use up the space of words of `m` bits, and none lies deeper. -/
structure Complete (m : Nat) (leaves : List Leaf) : Prop where
  depth_le : ∀ l ∈ leaves, l.depth ≤ m
  sum_eq : total (fun l => 2 ^ (m - l.depth)) leaves = 2 ^ m

/-- The leaves of a tree fill all space below its root. -/
theorem total_leaves {t : CodeTree} {m d : Nat} (h : ∀ l ∈ t.leaves d, l.depth ≤ m) :
    d ≤ m ∧ total (fun l => 2 ^ (m - l.depth)) (t.leaves d) = 2 ^ (m - d) := by
  induction t generalizing d with
  | leaf symbol =>
    have hd : d ≤ m := h ⟨symbol, d⟩ (List.mem_singleton.2 rfl)
    refine ⟨hd, ?_⟩
    rw [leaves, total_cons, total_nil, Nat.add_zero]
  | node left right ihl ihr =>
    obtain ⟨hd, hl⟩ := ihl fun l hl => h l (List.mem_append_left _ hl)
    obtain ⟨-, hr⟩ := ihr fun l hl => h l (List.mem_append_right _ hl)
    refine ⟨by omega, ?_⟩
    rw [leaves, total_append, hl, hr, two_pow_sub hd]
    omega

/-- No leaf lies deeper than the deepest. -/
theorem le_maxDepth {leaves : List Leaf} {l : Leaf} (h : l ∈ leaves) :
    l.depth ≤ maxDepth leaves :=
  CodeTable.le_foldl_max 0 (.inl (List.mem_map_of_mem h))

/-- The leaves of a whole tree use up the space of words. -/
theorem complete_leaves (t : CodeTree) : Complete (maxDepth (t.leaves 0)) (t.leaves 0) where
  depth_le := fun _ h => le_maxDepth h
  sum_eq := (total_leaves fun _ h => le_maxDepth h).2

/-- Space may be counted in smaller units. -/
theorem total_two_pow_sub {k m : Nat} (hk : k ≤ m) {leaves : List Leaf}
    (h : ∀ l ∈ leaves, l.depth ≤ k) :
    total (fun l => 2 ^ (m - l.depth)) leaves =
      2 ^ (m - k) * total (fun l => 2 ^ (k - l.depth)) leaves := by
  induction leaves with
  | nil => rfl
  | cons l leaves ih =>
    have hl := h l List.mem_cons_self
    rw [total_cons, total_cons, ih fun l hl => h l (List.mem_cons_of_mem _ hl), Nat.mul_add,
      ← Nat.pow_add]
    congr 2
    omega

/-- How long the words are taken to be does not matter as long as they are long enough. -/
theorem Complete.of_depth_le {m k : Nat} {leaves : List Leaf} (h : Complete m leaves)
    (hle : ∀ l ∈ leaves, l.depth ≤ k) : Complete k leaves where
  depth_le := hle
  sum_eq := by
    have hsum := h.sum_eq
    rcases Nat.le_total k m with hk | hk
    · rw [total_two_pow_sub hk hle, show m = (m - k) + k by omega, Nat.pow_add,
        show m - k + k - k = m - k by omega] at hsum
      exact Nat.eq_of_mul_eq_mul_left (Nat.two_pow_pos _) hsum
    · rw [total_two_pow_sub hk h.depth_le, hsum, ← Nat.pow_add]
      congr 1
      omega

/-- Beside other leaves none is the root. -/
theorem Complete.depth_pos {m : Nat} {leaves : List Leaf} (h : Complete m leaves)
    (hlen : 2 ≤ leaves.length) {l : Leaf} (hl : l ∈ leaves) : 0 < l.depth := by
  obtain ⟨as, bs, rfl⟩ := List.append_of_mem hl
  have hsum := h.sum_eq
  have hpos : ∀ ls : List Leaf, ls ≠ [] → 0 < total (fun l => 2 ^ (m - l.depth)) ls := by
    intro ls hls
    cases ls with
    | nil => exact absurd rfl hls
    | cons a ls =>
      have := Nat.two_pow_pos (m - a.depth)
      rw [total_cons]
      omega
  rw [total_append, total_cons] at hsum
  rw [List.length_append, List.length_cons] at hlen
  refine Nat.pos_of_ne_zero fun h0 => ?_
  rw [h0, Nat.sub_zero] at hsum
  cases as with
  | cons a as =>
    have := hpos (a :: as) (by simp)
    omega
  | nil =>
    cases bs with
    | nil => simp at hlen
    | cons b bs =>
      have := hpos (b :: bs) (by simp)
      omega

/-! ## Limiting the depth -/

/-- Taking a leaf away lets its neighbour have its words; the higher leaves stay. -/
theorem evict_spec {m n s : Nat} {leaves rest : List Leaf} (hm : 0 < m) (hn : m ≤ n)
    (h : evict m leaves = some (s, rest)) :
    (leaves.map (·.symbol)).Perm (s :: rest.map (·.symbol)) ∧
      total (fun l => 2 ^ (n - l.depth)) rest = total (fun l => 2 ^ (n - l.depth)) leaves ∧
      (∀ k, (∀ l ∈ leaves, l.depth ≤ k) → ∀ l ∈ rest, l.depth ≤ k) ∧
      ∀ l ∈ leaves, l.depth + 2 ≤ m → l ∈ rest := by
  fun_induction evict m leaves generalizing rest with
  | case1 a b leaves hd =>
    cases h
    obtain ⟨ha, hb⟩ := hd
    -- The neighbours have as many words between them as the leaf that is left, one level up.
    have hpow : 2 ^ (n - (m - 1)) = 2 * 2 ^ (n - m) := by
      rw [two_pow_sub (by omega), Nat.sub_add_cancel hm]
    refine ⟨List.Perm.refl _, ?_, ?_, ?_⟩
    · rw [total_cons, total_cons, total_cons, ha, hb, hpow]
      omega
    · intro k hk l hl
      rcases List.mem_cons.1 hl with rfl | hl
      · have := hk a List.mem_cons_self
        show m - 1 ≤ k
        omega
      · exact hk l (List.mem_cons_of_mem _ (List.mem_cons_of_mem _ hl))
    · intro l hl hlt
      rcases List.mem_cons.1 hl with rfl | hl
      · omega
      · rcases List.mem_cons.1 hl with rfl | hl
        · omega
        · exact List.mem_cons_of_mem _ hl
  | case2 a b leaves hd ih =>
    obtain ⟨⟨s', rest'⟩, h', he⟩ := Option.map_eq_some_iff.1 h
    cases he
    obtain ⟨h₁, h₂, h₃, h₄⟩ := ih h'
    refine ⟨(h₁.cons a.symbol).trans (.swap _ _ _), ?_, ?_, ?_⟩
    · rw [total_cons, total_cons _ a, h₂]
    · intro k hk l hl
      rcases List.mem_cons.1 hl with rfl | hl
      · exact hk _ List.mem_cons_self
      · exact h₃ k (fun l h => hk l (List.mem_cons_of_mem _ h)) l hl
    · intro l hl hlt
      rcases List.mem_cons.1 hl with rfl | hl
      · exact List.mem_cons_self
      · exact List.mem_cons_of_mem _ (h₄ l hl hlt)
  | case3 => cases h

/-- Grafting a symbol onto a leaf halves the words of that leaf. -/
theorem graft_spec {d n s : Nat} {leaves : List Leaf} (hd : d + 1 ≤ n)
    (h : ∃ c ∈ leaves, c.depth = d) :
    ((graft d s leaves).map (·.symbol)).Perm (s :: leaves.map (·.symbol)) ∧
      total (fun l => 2 ^ (n - l.depth)) (graft d s leaves) =
        total (fun l => 2 ^ (n - l.depth)) leaves ∧
      ((∀ l ∈ leaves, l.depth ≤ n) → ∀ l ∈ graft d s leaves, l.depth ≤ n) := by
  induction leaves with
  | nil =>
    obtain ⟨c, hc, -⟩ := h
    cases hc
  | cons c leaves ih =>
    unfold graft
    by_cases hc : c.depth = d
    · rw [if_pos hc]
      refine ⟨List.Perm.refl _, ?_, ?_⟩
      · rw [total_cons, total_cons, total_cons, hc, two_pow_sub hd]
        dsimp only
        omega
      · intro hn l hl
        rcases List.mem_cons.1 hl with rfl | hl
        · exact hd
        · rcases List.mem_cons.1 hl with rfl | hl
          · exact hd
          · exact hn l (List.mem_cons_of_mem _ hl)
    · rw [if_neg hc]
      have hex : ∃ c ∈ leaves, c.depth = d := by
        obtain ⟨c', hc', hd'⟩ := h
        rcases List.mem_cons.1 hc' with rfl | hc'
        · exact absurd hd' hc
        · exact ⟨c', hc', hd'⟩
      obtain ⟨h₁, h₂, h₃⟩ := ih hex
      refine ⟨(h₁.cons c.symbol).trans (.swap _ _ _), by rw [total_cons, total_cons, h₂], ?_⟩
      intro hn l hl
      rcases List.mem_cons.1 hl with rfl | hl
      · exact hn _ List.mem_cons_self
      · exact h₃ (fun l h => hn l (List.mem_cons_of_mem _ h)) l hl

/-- Some leaf has the greatest depth. -/
theorem exists_depth_eq_maxDepth {leaves : List Leaf} (h : 0 < maxDepth leaves) :
    ∃ l ∈ leaves, l.depth = maxDepth leaves := by
  refine Classical.byContradiction fun hne => ?_
  have hle : maxDepth leaves ≤ maxDepth leaves - 1 := by
    refine CodeTable.foldl_max_le fun n hn => ?_
    obtain ⟨l, hl, rfl⟩ := List.mem_map.1 hn
    have h₁ := le_maxDepth hl
    have h₂ : l.depth ≠ maxDepth leaves := fun hd => hne ⟨l, hl, hd⟩
    omega
  omega

/-- The host is the deepest of the leaves that may be one. -/
theorem hostDepth_eq (m : Nat) (leaves : List Leaf) :
    hostDepth m leaves = maxDepth (leaves.filter fun l => l.depth + 2 ≤ m) := by
  rw [hostDepth, maxDepth, List.foldl_map, List.foldl_filter]
  simp only [decide_eq_true_eq]

/-- The host depth is the depth of a leaf. -/
theorem exists_depth_eq_hostDepth {m : Nat} {leaves : List Leaf} (h : hostDepth m leaves ≠ 0) :
    ∃ l ∈ leaves, l.depth = hostDepth m leaves := by
  rw [hostDepth_eq] at h ⊢
  obtain ⟨l, hl, hdepth⟩ := exists_depth_eq_maxDepth (Nat.pos_of_ne_zero h)
  exact ⟨l, (List.mem_filter.1 hl).1, hdepth⟩

/-- Moving a leaf up keeps the symbols and the space that the leaves take. -/
theorem raise?_spec {m n : Nat} {leaves raised : List Leaf} (hm : 0 < m) (hn : m ≤ n)
    (hc : Complete n leaves) (h : raise? m leaves = some raised) :
    Complete n raised ∧ (raised.map (·.symbol)).Perm (leaves.map (·.symbol)) := by
  unfold raise? at h
  dsimp only at h
  split at h
  · cases h
  · next hd =>
    obtain ⟨⟨s, rest⟩, he, rfl⟩ := Option.map_eq_some_iff.1 h
    obtain ⟨h₁, h₂, h₃, h₄⟩ := evict_spec hm hn he
    obtain ⟨l, hl, hld⟩ := exists_depth_eq_hostDepth hd
    have hle := hostDepth_add_two_le hd
    have hex : ∃ c ∈ rest, c.depth = hostDepth m leaves := ⟨l, h₄ l hl (by omega), hld⟩
    obtain ⟨g₁, g₂, g₃⟩ := @graft_spec _ n s rest (by omega) hex
    refine ⟨⟨g₃ (h₃ n hc.depth_le), ?_⟩, g₁.trans h₁.symm⟩
    rw [g₂, h₂, hc.sum_eq]

/-- Limiting the depth keeps the symbols and the space that the leaves take. -/
theorem limitDepth_spec {limit n : Nat} {leaves limited : List Leaf} (hc : Complete n leaves)
    (h : limitDepth limit leaves = .ok limited) :
    Complete n limited ∧ (limited.map (·.symbol)).Perm (leaves.map (·.symbol)) ∧
      ∀ l ∈ limited, l.depth ≤ limit := by
  fun_induction limitDepth limit leaves with
  | case1 => cases h
  | case2 leaves m hm raised hr ih =>
    have hmn : m ≤ n := by
      refine CodeTable.foldl_max_le fun k hk => ?_
      obtain ⟨l, hl, rfl⟩ := List.mem_map.1 hk
      exact hc.depth_le l hl
    obtain ⟨hc', hp⟩ := raise?_spec (Nat.zero_lt_of_lt hm) hmn hc hr
    obtain ⟨h₁, h₂, h₃⟩ := ih hc' h
    exact ⟨h₁, h₂.trans hp, h₃⟩
  | case3 leaves m hm =>
    cases h
    refine ⟨hc, List.Perm.refl _, fun l hl => ?_⟩
    exact Nat.le_trans (le_maxDepth hl) (Nat.le_of_not_lt hm)

/-! ## Trees for weights -/

/-- The symbols of those entries of a list that have a property. -/
def symbolsWhere (p : Nat → Bool) (weights : List Nat) : List Nat :=
  (weights.zipIdx.filter fun a => p a.1).map (·.2)

/-- A symbol is listed just when its weight has the property. -/
theorem mem_symbolsWhere {p : Nat → Bool} {weights : List Nat} {s : Nat} :
    s ∈ symbolsWhere p weights ↔ ∃ w, weights[s]? = some w ∧ p w := by
  unfold symbolsWhere
  constructor
  · intro h
    obtain ⟨⟨w, s'⟩, ha, rfl⟩ := List.mem_map.1 h
    obtain ⟨hz, hp⟩ := List.mem_filter.1 ha
    exact ⟨w, List.mk_mem_zipIdx_iff_getElem?.1 hz, hp⟩
  · rintro ⟨w, hw, hp⟩
    refine List.mem_map.2 ⟨(w, s), List.mem_filter.2 ⟨?_, hp⟩, rfl⟩
    exact List.mk_mem_zipIdx_iff_getElem?.2 hw

/-- No symbol is listed twice. -/
theorem nodup_symbolsWhere (p : Nat → Bool) (weights : List Nat) :
    (symbolsWhere p weights).Nodup := by
  have hsub : (symbolsWhere p weights).Sublist (weights.zipIdx.map (·.2)) :=
    List.filter_sublist.map _
  rw [List.zipIdx_map_snd] at hsub
  exact hsub.nodup (List.nodup_range' 1)

/-- A tree for each symbol whose weight has a property. -/
theorem filterMap_zipIdx (p : Nat → Bool) (f : Nat → Nat → Weighted) (weights : List Nat) :
    (weights.zipIdx.filterMap fun (w, s) => if p w then some (f w s) else none) =
      (symbolsWhere p weights).map fun s => f (weights.getD s 0) s := by
  have hweight : ∀ a ∈ weights.zipIdx, weights.getD a.2 0 = a.1 := by
    intro a ha
    rw [List.getD_eq_getElem?_getD, List.mk_mem_zipIdx_iff_getElem?.1 ha, Option.getD_some]
  rw [symbolsWhere, List.map_map]
  generalize weights.zipIdx = l at hweight ⊢
  induction l with
  | nil => rfl
  | cons a l ih =>
    obtain ⟨ha, hl⟩ := List.forall_mem_cons.1 hweight
    obtain ⟨w, s⟩ := a
    rw [List.filterMap_cons, List.filter_cons, ih hl]
    by_cases hp : p w = true
    · simp only [hp, if_true, List.map_cons, Function.comp_apply, ha]
    · simp only [hp, if_false, Bool.false_eq_true]

/-- The leaves with weight are those of the symbols that have some. -/
theorem weightedLeaves_eq (weights : List Nat) : weightedLeaves weights =
    (symbolsWhere (0 < ·) weights).map fun s => ⟨weights.getD s 0, leaf s⟩ := by
  rw [weightedLeaves, ← filterMap_zipIdx _ fun w s => ⟨w, leaf s⟩]
  simp only [decide_eq_true_eq]

/-- The leaves without weight of their own are those of the symbols that have none, each of them
given the weight 1. -/
theorem idleLeaves_eq (weights : List Nat) :
    idleLeaves weights = (symbolsWhere (· = 0) weights).map fun s => ⟨1, leaf s⟩ := by
  rw [idleLeaves, ← filterMap_zipIdx _ fun _ s => ⟨1, leaf s⟩]
  simp only [decide_eq_true_eq]

/-- Beside the symbols that have a weight, the first ones without one get a leaf. -/
theorem symbols_initialLeaves (weights : List Nat) :
    (initialLeaves weights).flatMap (·.tree.symbols) = symbolsWhere (0 < ·) weights ++
      (symbolsWhere (· = 0) weights).take (2 - (weightedLeaves weights).length) := by
  rw [initialLeaves, List.flatMap_append, weightedLeaves_eq, idleLeaves_eq, ← List.map_take,
    List.flatMap_map, List.flatMap_map]
  exact congrArg₂ _ (List.flatMap_singleton' _) (List.flatMap_singleton' _)

/-- The leaves have a symbol each, one for each symbol that has a weight. -/
theorem initialLeaves_spec (weights : List Nat) :
    let ss := (initialLeaves weights).flatMap (·.tree.symbols)
    ss.Nodup ∧ (∀ s ∈ ss, s < weights.length) ∧
      ∀ s w, weights[s]? = some w → 0 < w → s ∈ ss := by
  have hidle := List.take_sublist (2 - (weightedLeaves weights).length)
    (symbolsWhere (· = 0) weights)
  have hmem : ∀ {p s}, s ∈ symbolsWhere p weights → s < weights.length := by
    intro p s hs
    obtain ⟨w, hw, -⟩ := mem_symbolsWhere.1 hs
    exact (List.getElem?_eq_some_iff.1 hw).1
  dsimp only
  rw [symbols_initialLeaves]
  refine ⟨?_, ?_, ?_⟩
  · refine List.nodup_append.2 ⟨nodup_symbolsWhere _ _, hidle.nodup (nodup_symbolsWhere _ _), ?_⟩
    rintro s hs s' hs' rfl
    obtain ⟨w, hw, hp⟩ := mem_symbolsWhere.1 hs
    obtain ⟨w', hw', hp'⟩ := mem_symbolsWhere.1 (hidle.subset hs')
    rw [hw] at hw'
    cases hw'
    simp only [decide_eq_true_eq] at hp hp'
    omega
  · intro s hs
    rcases List.mem_append.1 hs with hs | hs
    · exact hmem hs
    · exact hmem (hidle.subset hs)
  · intro s w hw hpos
    exact List.mem_append_left _ (mem_symbolsWhere.2 ⟨w, hw, by simpa using hpos⟩)

/-- A tree is one leaf before it is joined to others. -/
theorem symbols_of_mem_initialLeaves {weights : List Nat} {t : Weighted}
    (h : t ∈ initialLeaves weights) : ∃ s, t.tree.symbols = [s] := by
  rw [initialLeaves, weightedLeaves_eq, idleLeaves_eq, ← List.map_take] at h
  rcases List.mem_append.1 h with h | h
  · obtain ⟨s, -, rfl⟩ := List.mem_map.1 h
    exact ⟨s, rfl⟩
  · obtain ⟨s, -, rfl⟩ := List.mem_map.1 h
    exact ⟨s, rfl⟩

/-- Trees of one symbol each have as many symbols as there are trees. -/
theorem length_flatMap_symbols {forest : List Weighted}
    (h : ∀ u ∈ forest, ∃ s, u.tree.symbols = [s]) :
    (forest.flatMap (·.tree.symbols)).length = forest.length := by
  induction forest with
  | nil => rfl
  | cons u forest ih =>
    obtain ⟨s, hs⟩ := h u List.mem_cons_self
    rw [List.flatMap_cons, hs, List.length_append,
      ih fun v hv => h v (List.mem_cons_of_mem _ hv), List.length_cons, Nat.add_comm]
    rfl

/-- The tree for given weights has a leaf for each initial one. -/
theorem length_leaves_of_ofLeaves? {weights : List Nat} {t : CodeTree}
    (h : ofLeaves? (initialLeaves weights) = some t) :
    (t.leaves 0).length = (initialLeaves weights).length := by
  have hperm := (combine_symbols h).trans ((List.mergeSort_perm _ _).flatMap_right _)
  rw [← List.length_map (f := Leaf.symbol), map_symbol_leaves, hperm.length_eq,
    length_flatMap_symbols fun u hu => symbols_of_mem_initialLeaves hu]

/-- One leaf for each symbol that has a word, none of them too deep. -/
structure Covers (size limit : Nat) (leaves : List Leaf) : Prop where
  complete : ∃ m, Complete m leaves
  depth_pos : ∀ l ∈ leaves, 0 < l.depth
  depth_le : ∀ l ∈ leaves, l.depth ≤ limit
  nodup : (leaves.map (·.symbol)).Nodup
  symbol_lt : ∀ l ∈ leaves, l.symbol < size

/-- Leaves in another order cover the same. -/
theorem Covers.perm {size limit : Nat} {k l : List Leaf} (h : Covers size limit k)
    (hp : k.Perm l) : Covers size limit l where
  complete := by
    obtain ⟨m, hm⟩ := h.complete
    exact ⟨m, fun a ha => hm.depth_le a (hp.mem_iff.2 ha), (total_perm _ hp).symm.trans hm.sum_eq⟩
  depth_pos := fun a ha => h.depth_pos a (hp.mem_iff.2 ha)
  depth_le := fun a ha => h.depth_le a (hp.mem_iff.2 ha)
  nodup := (hp.map _).nodup_iff.1 h.nodup
  symbol_lt := fun a ha => h.symbol_lt a (hp.mem_iff.2 ha)

/-- Leaves for weights are those of the tree, moved up as far as need be. -/
theorem ofWeights_eq_ok_iff {weights : List Nat} {limit : Nat} {leaves : List Leaf} :
    ofWeights weights limit = .ok leaves ↔ 2 ≤ (initialLeaves weights).length ∧
      ∃ t, ofLeaves? (initialLeaves weights) = some t ∧
        limitDepth limit (t.leaves 0) = .ok leaves := by
  unfold ofWeights
  dsimp only
  split
  · next hlen => exact iff_of_false nofun fun h => absurd h.1 (Nat.not_le.2 hlen)
  · next hlen =>
    rw [and_iff_right (Nat.not_lt.1 hlen)]
    cases ofLeaves? (initialLeaves weights) with
    | none => exact iff_of_false nofun fun ⟨_, h, _⟩ => nomatch h
    | some t => simp only [Option.some.injEq, exists_eq_left']

/-- The symbols that get a leaf are those of the initial leaves. -/
theorem symbols_ofWeights {weights : List Nat} {limit : Nat} {leaves : List Leaf}
    (h : ofWeights weights limit = .ok leaves) :
    (leaves.map (·.symbol)).Perm ((initialLeaves weights).flatMap (·.tree.symbols)) := by
  obtain ⟨-, t, ht, hlimit⟩ := ofWeights_eq_ok_iff.1 h
  have hsame := (limitDepth_spec (complete_leaves t) hlimit).2.1
  rw [map_symbol_leaves] at hsame
  exact hsame.trans ((combine_symbols ht).trans ((List.mergeSort_perm _ _).flatMap_right _))

/-- Limiting the depth keeps the number of leaves. -/
theorem length_ofWeights {weights : List Nat} {limit : Nat} {leaves : List Leaf}
    (h : ofWeights weights limit = .ok leaves) :
    leaves.length = (initialLeaves weights).length := by
  obtain ⟨-, t, ht, hlimit⟩ := ofWeights_eq_ok_iff.1 h
  have hsame := (limitDepth_spec (complete_leaves t) hlimit).2.1.length_eq
  rw [List.length_map, List.length_map] at hsame
  exact hsame.trans (length_leaves_of_ofLeaves? ht)

/-- Leaves for weights cover the symbols that have a weight. -/
theorem ofWeights_spec {weights : List Nat} {limit : Nat} {leaves : List Leaf}
    (h : ofWeights weights limit = .ok leaves) :
    Covers weights.length limit leaves ∧
      ∀ s w, weights[s]? = some w → 0 < w → s ∈ leaves.map (·.symbol) := by
  obtain ⟨hnodup, hlt, hmem⟩ := initialLeaves_spec weights
  have hperm := symbols_ofWeights h
  obtain ⟨htwo, t, -, hlimit⟩ := ofWeights_eq_ok_iff.1 h
  obtain ⟨hc, -, hle⟩ := limitDepth_spec (complete_leaves t) hlimit
  have hcount : 2 ≤ leaves.length := by rwa [length_ofWeights h]
  refine ⟨⟨⟨_, hc⟩, fun l hl => hc.depth_pos hcount hl, hle, hperm.nodup_iff.2 hnodup, ?_⟩, ?_⟩
  · intro l hl
    exact hlt _ (hperm.mem_iff.1 (List.mem_map_of_mem hl))
  · intro s w hw hpos
    exact hperm.mem_iff.2 (hmem s w hw hpos)

end CodeTree

end DeflateRecoder
