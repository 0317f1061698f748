import DeflateRecoder.Proofs.Code.TreeTable

/-!
# Codes that can always be built

`CodeTree.limitDepth` works on leaves alone, and gives up when it finds none to move or none to move
them to. Neither happens to the leaves of a tree that has no more of them than there are words of
the length allowed: its first deepest leaf has the leaf beside it (`evict_leaves`), a leaf at
least two levels higher is there because the deepest ones do not use up the space of words
(`exists_depth_add_two_le`), and what comes out are leaves of a tree again (`raise?_leaves`). So
`CodeTable.ofWeights` succeeds for two symbols or more (`CodeTable.ofWeights_total`).
-/

namespace DeflateRecoder

namespace CodeTree

/-! ## Leaves in front of others -/

/-- A leaf is not taken from where none has the depth. -/
theorem evict_append_of_forall_ne {m : Nat} {front : List Leaf} (h : ∀ l ∈ front, l.depth ≠ m)
    (back : List Leaf) :
    evict m (front ++ back) = (evict m back).map fun (symbol, rest) => (symbol, front ++ rest) := by
  induction front with
  | nil => simp
  | cons a front ih =>
    have ih := ih fun l hl => h l (List.mem_cons_of_mem _ hl)
    cases hrest : front ++ back with
    | nil =>
      obtain ⟨rfl, rfl⟩ := List.append_eq_nil_iff.1 hrest
      rfl
    | cons b rest =>
      have ha : ¬(a.depth = m ∧ b.depth = m) := fun hd => h a List.mem_cons_self hd.1
      rw [List.cons_append, hrest, evict, if_neg ha, ← hrest, ih, Option.map_map]
      rfl

/-- A leaf is not grafted where none has the depth. -/
theorem graft_append_of_forall_ne {d s : Nat} {front : List Leaf}
    (h : ∀ l ∈ front, l.depth ≠ d) (back : List Leaf) :
    graft d s (front ++ back) = front ++ graft d s back := by
  induction front with
  | nil => rfl
  | cons a front ih =>
    rw [List.cons_append, graft, if_neg (h a List.mem_cons_self),
      ih fun l hl => h l (List.mem_cons_of_mem _ hl), List.cons_append]

/-- A leaf is grafted onto the first host, so further ones stay. -/
theorem graft_append_of_mem {d s : Nat} {front : List Leaf} (h : ∃ l ∈ front, l.depth = d)
    (back : List Leaf) : graft d s (front ++ back) = graft d s front ++ back := by
  induction front with
  | nil =>
    obtain ⟨l, hl, -⟩ := h
    cases hl
  | cons a front ih =>
    rw [List.cons_append, graft, graft]
    split
    · rfl
    · next ha =>
      obtain ⟨l, hl, hd⟩ := h
      have hl : l ∈ front := (List.mem_cons.1 hl).resolve_left fun he => ha (he ▸ hd)
      rw [ih ⟨l, hl, hd⟩, List.cons_append]

/-! ## Leaves of a tree -/

/-- A tree whose leaves are no deeper than its root is a leaf. -/
theorem eq_leaf_of_depth_le {t : CodeTree} {d : Nat} (h : ∀ l ∈ t.leaves d, l.depth ≤ d) :
    ∃ s, t = leaf s := by
  cases t with
  | leaf s => exact ⟨s, rfl⟩
  | node left right =>
    have := (total_leaves fun l hl => h l (List.mem_append_left _ hl)).1
    omega

/-- Taking out the first of the deepest leaves of a tree leaves those of a tree. -/
theorem evict_leaves {t : CodeTree} {d m : Nat} (hle : ∀ l ∈ t.leaves d, l.depth ≤ m)
    (hex : ∃ l ∈ t.leaves d, l.depth = m) (hd : d < m) (back : List Leaf) :
    ∃ s t', evict m (t.leaves d ++ back) = some (s, leaves t' d ++ back) := by
  induction t generalizing d back with
  | leaf s =>
    obtain ⟨l, hl, hdepth⟩ := hex
    rw [List.mem_singleton.1 hl] at hdepth
    exact absurd hdepth (Nat.ne_of_lt hd)
  | node left right ihl ihr =>
    have hleft : ∀ l ∈ left.leaves (d + 1), l.depth ≤ m := fun l hl =>
      hle l (List.mem_append_left _ hl)
    have hright : ∀ l ∈ right.leaves (d + 1), l.depth ≤ m := fun l hl =>
      hle l (List.mem_append_right _ hl)
    rcases Nat.lt_or_eq_of_le (Nat.succ_le_of_lt hd) with hlt | rfl
    · -- The leaf is in the left subtree if that has one so deep, and else in the right one.
      by_cases hex' : ∃ l ∈ left.leaves (d + 1), l.depth = m
      · obtain ⟨s, left', e⟩ := ihl hleft hex' hlt (right.leaves (d + 1) ++ back)
        refine ⟨s, node left' right, ?_⟩
        rw [leaves, List.append_assoc, e, leaves, List.append_assoc]
      · obtain ⟨l, hl, hdepth⟩ := hex
        have hl : l ∈ right.leaves (d + 1) :=
          (List.mem_append.1 hl).resolve_left fun hl => hex' ⟨l, hl, hdepth⟩
        obtain ⟨s, right', e⟩ := ihr hright ⟨l, hl, hdepth⟩ hlt back
        refine ⟨s, node left right', ?_⟩
        rw [leaves, List.append_assoc,
          evict_append_of_forall_ne fun l hl hdepth => hex' ⟨l, hl, hdepth⟩, e, leaves,
          List.append_assoc]
        rfl
    · -- Both subtrees are leaves, one beside the other.
      obtain ⟨s, rfl⟩ := eq_leaf_of_depth_le hleft
      obtain ⟨s', rfl⟩ := eq_leaf_of_depth_le hright
      exact ⟨s, leaf s', by simp [leaves, evict]⟩

/-- Grafting a symbol onto a leaf of a tree leaves those of a tree. -/
theorem graft_leaves {t : CodeTree} {d k : Nat} (s : Nat)
    (hex : ∃ l ∈ t.leaves d, l.depth = k) : ∃ t', graft k s (t.leaves d) = leaves t' d := by
  induction t generalizing d with
  | leaf s' =>
    obtain ⟨l, hl, hdepth⟩ := hex
    rw [List.mem_singleton.1 hl] at hdepth
    obtain rfl : d = k := hdepth
    exact ⟨node (leaf s) (leaf s'), by simp [leaves, graft]⟩
  | node left right ihl ihr =>
    by_cases hex' : ∃ l ∈ left.leaves (d + 1), l.depth = k
    · obtain ⟨left', e⟩ := ihl hex'
      exact ⟨node left' right, by rw [leaves, graft_append_of_mem hex', e, leaves]⟩
    · obtain ⟨l, hl, hdepth⟩ := hex
      have hl : l ∈ right.leaves (d + 1) :=
        (List.mem_append.1 hl).resolve_left fun hl => hex' ⟨l, hl, hdepth⟩
      obtain ⟨right', e⟩ := ihr ⟨l, hl, hdepth⟩
      refine ⟨node left right', ?_⟩
      rw [leaves, graft_append_of_forall_ne fun l hl hdepth => hex' ⟨l, hl, hdepth⟩, e, leaves]

/-! ## Room for a leaf -/

/-- Leaves that are too deep, and no more than there are words of the length allowed, have one at
least two levels above the deepest. -/
theorem exists_depth_add_two_le {m limit : Nat} {leaves : List Leaf} (hc : Complete m leaves)
    (hdeep : limit < m) (hlen : leaves.length ≤ 2 ^ limit) (hex : ∃ l ∈ leaves, l.depth = m) :
    ∃ l ∈ leaves, l.depth + 2 ≤ m := by
  refine Classical.byContradiction fun hnone => ?_
  have hshare : ∀ l ∈ leaves, 2 ^ (m - l.depth) ≤ 2 := by
    intro l hl
    have h : ¬ l.depth + 2 ≤ m := fun hle => hnone ⟨l, hl, hle⟩
    exact Nat.pow_le_pow_right Nat.two_pos (by omega : m - l.depth ≤ 1)
  -- The deepest leaf takes one word, and any other leaf two at most.
  obtain ⟨l, hl, hdepth⟩ := hex
  obtain ⟨front, back, rfl⟩ := List.append_of_mem hl
  have hfront : total (fun l => 2 ^ (m - l.depth)) front ≤ 2 * front.length :=
    total_le_mul_length fun a ha => hshare a (List.mem_append_left _ ha)
  have hback : total (fun l => 2 ^ (m - l.depth)) back ≤ 2 * back.length :=
    total_le_mul_length fun a ha => hshare a (List.mem_append_right _ (List.mem_cons_of_mem _ ha))
  have hsum := hc.sum_eq
  have hwords : 2 * 2 ^ limit ≤ 2 ^ m := by
    rw [← Nat.pow_succ']
    exact Nat.pow_le_pow_right Nat.two_pos hdeep
  rw [total_append, total_cons, hdepth, Nat.sub_self, Nat.pow_zero] at hsum
  rw [List.length_append, List.length_cons] at hlen
  omega

/-- No leaf that may be a host is deeper than the host. -/
theorem le_hostDepth {m : Nat} {leaves : List Leaf} {l : Leaf} (hl : l ∈ leaves)
    (h : l.depth + 2 ≤ m) : l.depth ≤ hostDepth m leaves := by
  rw [hostDepth_eq]
  exact le_maxDepth (List.mem_filter.2 ⟨hl, decide_eq_true h⟩)

/-! ## Limiting the depth -/

/-- A leaf of a tree that is too deep can be moved up, and the leaves are those of a tree again. -/
theorem raise?_leaves {t : CodeTree} {limit : Nat} (hdeep : limit < maxDepth (t.leaves 0))
    (htwo : 2 ≤ (t.leaves 0).length) (hlen : (t.leaves 0).length ≤ 2 ^ limit) :
    ∃ t', raise? (maxDepth (t.leaves 0)) (t.leaves 0) = some (leaves t' 0) := by
  have hc := complete_leaves t
  have hpos : 0 < maxDepth (t.leaves 0) := Nat.zero_lt_of_lt hdeep
  have hex := exists_depth_eq_maxDepth hpos
  obtain ⟨host, hmem, hhigh⟩ := exists_depth_add_two_le hc hdeep hlen hex
  have hhost : hostDepth (maxDepth (t.leaves 0)) (t.leaves 0) ≠ 0 := by
    have h₁ := hc.depth_pos htwo hmem
    have h₂ := le_hostDepth hmem hhigh
    omega
  obtain ⟨s, rest, e⟩ := evict_leaves (fun _ => le_maxDepth) hex hpos []
  rw [List.append_nil, List.append_nil] at e
  -- The leaf to graft onto is not the one that was taken out, nor the one beside it.
  obtain ⟨l, hl, hdepth⟩ := exists_depth_eq_hostDepth hhost
  have hstays := (evict_spec hpos (Nat.le_refl _) e).2.2.2 l hl
    (by rw [hdepth]; exact hostDepth_add_two_le hhost)
  obtain ⟨t', hgraft⟩ := graft_leaves s ⟨l, hstays, hdepth⟩
  refine ⟨t', ?_⟩
  rw [raise?, if_neg hhost, e]
  exact congrArg some hgraft

/-- The depth of a tree with no more leaves than there are words can be limited. -/
theorem limitDepth_total {limit : Nat} {leaves : List Leaf} (ht : ∃ t : CodeTree, leaves = t.leaves 0)
    (htwo : 2 ≤ leaves.length) (hlen : leaves.length ≤ 2 ^ limit) :
    ∃ limited, limitDepth limit leaves = .ok limited := by
  fun_induction limitDepth limit leaves with
  | case1 leaves m hm hr =>
    obtain ⟨t, rfl⟩ := ht
    obtain ⟨t', e⟩ := raise?_leaves hm htwo hlen
    rw [e] at hr
    cases hr
  | case2 leaves m hm raised hr ih =>
    obtain ⟨t, rfl⟩ := ht
    obtain ⟨t', e⟩ := raise?_leaves hm htwo hlen
    obtain rfl : leaves t' 0 = raised := Option.some.inj (e.symm.trans hr)
    have hsame := (raise?_spec (Nat.zero_lt_of_lt hm) (Nat.le_refl _) (complete_leaves t) hr).2
    have hcount := hsame.length_eq
    rw [List.length_map, List.length_map] at hcount
    rw [hcount] at ih
    exact ih ⟨t', rfl⟩ htwo hlen
  | case3 leaves m hm => exact ⟨leaves, rfl⟩

/-! ## Codes for weights -/

/-- A forest with a tree in it is joined to one tree. -/
theorem combine_total {forest : List Weighted} (h : forest ≠ []) : ∃ t, combine forest = some t := by
  fun_induction combine forest with
  | case1 => exact absurd rfl h
  | case2 t => exact ⟨t.tree, rfl⟩
  | case3 a b forest ih => exact ih (List.ne_nil_of_length_pos (by simp))

/-- Leaves are joined to a tree, if there are any. -/
theorem ofLeaves?_total {leaves : List Weighted} (h : leaves ≠ []) :
    ∃ t, ofLeaves? leaves = some t := by
  refine combine_total (List.ne_nil_of_length_pos ?_)
  rw [List.length_mergeSort]
  exact List.length_pos_iff.2 h

/-- Every symbol either has weight or has none. -/
theorem length_weightedLeaves_add (weights : List Nat) :
    (weightedLeaves weights).length + (idleLeaves weights).length = weights.length := by
  rw [← List.length_zipIdx (l := weights) (i := 0), weightedLeaves, idleLeaves]
  induction weights.zipIdx with
  | nil => rfl
  | cons a l ih =>
    obtain ⟨w, s⟩ := a
    rw [List.length_cons, ← ih]
    rcases Nat.eq_zero_or_pos w with hw | hw
    · simp only [List.filterMap_cons, hw, Nat.lt_irrefl, if_false, if_true, List.length_cons]
      omega
    · simp only [List.filterMap_cons, hw, Nat.ne_of_gt hw, if_false, if_true, List.length_cons]
      omega

/-- The initial leaves are those of the symbols that have a weight, and two if these are fewer. -/
theorem length_initialLeaves {weights : List Nat} (h : 2 ≤ weights.length) :
    (initialLeaves weights).length = max 2 (weightedLeaves weights).length := by
  have hsum := length_weightedLeaves_add weights
  rw [initialLeaves, List.length_append, List.length_take]
  omega

/-- Where there are two symbols, there are leaves to begin with. -/
theorem initialLeaves_ne_nil {weights : List Nat} (h : 2 ≤ weights.length) :
    initialLeaves weights ≠ [] :=
  List.ne_nil_of_length_pos (by rw [length_initialLeaves h]; omega)

/-- Leaves for the weights of two symbols or more are found, if there are words enough. -/
theorem ofWeights_total {weights : List Nat} {limit : Nat} (htwo : 2 ≤ weights.length)
    (hlen : max 2 (weightedLeaves weights).length ≤ 2 ^ limit) :
    ∃ leaves, ofWeights weights limit = .ok leaves := by
  have hcount := length_initialLeaves htwo
  obtain ⟨t, ht⟩ := ofLeaves?_total (initialLeaves_ne_nil htwo)
  have hleaves := length_leaves_of_ofLeaves? ht
  obtain ⟨leaves, e⟩ : ∃ leaves, limitDepth limit (t.leaves 0) = .ok leaves :=
    limitDepth_total ⟨t, rfl⟩ (by omega) (by omega)
  exact ⟨leaves, ofWeights_eq_ok_iff.2 ⟨by omega, t, ht, e⟩⟩

end CodeTree

/-- Two symbols or more get a code, if there are as many words of the length allowed as symbols. -/
theorem CodeTable.ofWeights_total {weights : List Nat} {limit : Nat} (htwo : 2 ≤ weights.length)
    (hlen : weights.length ≤ 2 ^ limit) : ∃ t, CodeTable.ofWeights weights limit = .ok t := by
  have hsum := CodeTree.length_weightedLeaves_add weights
  obtain ⟨leaves, e⟩ : ∃ leaves, CodeTree.ofWeights weights limit = .ok leaves :=
    CodeTree.ofWeights_total htwo (by omega)
  exact ⟨CodeTree.table weights.length leaves, by rw [CodeTable.ofWeights, e]; rfl⟩

end DeflateRecoder
