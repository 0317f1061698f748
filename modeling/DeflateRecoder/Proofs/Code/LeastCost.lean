import DeflateRecoder.Proofs.Code.CompleteCode

/-!
# Codes of least cost

When the tree for some weights is not too deep, no lengths that fit beside each other make the
weighted symbols shorter than the ones that `CodeTable.ofWeights` gives them
(`CodeTable.ofWeights_least`). The argument is an exchange along the recursion of
`CodeTree.combine`: whatever the lengths are, the two lightest symbols may as well have the longest
two, both equally long, and are then as good as one symbol of both their weights with a word that is
one bit shorter (`join_lightest`).
-/

namespace DeflateRecoder

/-- What has been mapped can be put into another order before it is. -/
theorem exists_perm_of_map_perm {α β : Type} {f : α → β} {l : List α} {k : List β}
    (h : (l.map f).Perm k) : ∃ l', l.Perm l' ∧ l'.map f = k := by
  induction k generalizing l with
  | nil => exact ⟨[], List.Perm.of_eq (List.map_eq_nil_iff.1 h.eq_nil), rfl⟩
  | cons b k ih =>
    obtain ⟨a, ha, rfl⟩ := List.mem_map.1 (h.mem_iff.2 List.mem_cons_self)
    obtain ⟨as, bs, rfl⟩ := List.append_of_mem ha
    have hmove := @List.perm_middle _ a as bs
    obtain ⟨l', hl', rfl⟩ := ih ((hmove.symm.map f).trans h).cons_inv
    exact ⟨a :: l', hmove.trans (hl'.cons a), rfl⟩

/-! ## Weights and lengths -/

/-- The size of symbols that are given by their weights and the lengths of their words. -/
def weightedSum (pairs : List (Nat × Nat)) : Nat := total (fun a => a.1 * a.2) pairs

@[simp] theorem weightedSum_cons (a : Nat × Nat) (pairs : List (Nat × Nat)) :
    weightedSum (a :: pairs) = a.1 * a.2 + weightedSum pairs := total_cons _ _ _

/-- The lightest symbol may as well have the longest word. -/
theorem exists_longest_first {x : Nat} (l : Nat) {rest : List (Nat × Nat)}
    (hx : ∀ a ∈ rest, x ≤ a.1) :
    ∃ m rest', rest'.map (·.1) = rest.map (·.1) ∧
      (m :: rest'.map (·.2)).Perm (l :: rest.map (·.2)) ∧ (∀ n ∈ rest'.map (·.2), n ≤ m) ∧
      weightedSum ((x, m) :: rest') ≤ weightedSum ((x, l) :: rest) := by
  induction rest generalizing l with
  | nil => exact ⟨l, [], rfl, List.Perm.refl _, nofun, Nat.le_refl _⟩
  | cons a rest ih =>
    obtain ⟨w, k⟩ := a
    obtain ⟨hw, hrest⟩ := List.forall_mem_cons.1 hx
    -- The longer one of the two lengths goes on, the other one stays with `w`.
    obtain ⟨m, rest', hweights, hlengths, hle, hsum⟩ := ih (max k l) hrest
    have hmax : max k l ≤ m := by
      rcases List.mem_cons.1 (hlengths.mem_iff.2 List.mem_cons_self) with he | hmem
      · exact Nat.le_of_eq he
      · exact hle _ hmem
    refine ⟨m, (w, min k l) :: rest', congrArg (w :: ·) hweights, ?_, ?_, ?_⟩
    · refine (List.Perm.swap _ _ _).trans ((hlengths.cons (min k l)).trans ?_)
      rcases Nat.le_total k l with h | h
      · rw [Nat.min_eq_left h, Nat.max_eq_right h]
        exact List.Perm.swap _ _ _
      · rw [Nat.min_eq_right h, Nat.max_eq_left h]
        exact List.Perm.refl _
    · refine List.forall_mem_cons.2 ⟨?_, hle⟩
      exact Nat.le_trans (Nat.le_trans (Nat.min_le_left k l) (Nat.le_max_left k l)) hmax
    · have hexchange : x * max k l + w * min k l ≤ x * l + w * k := by
        rcases Nat.le_total k l with h | h
        · rw [Nat.min_eq_left h, Nat.max_eq_right h]
        · rw [Nat.min_eq_right h, Nat.max_eq_left h]
          have := mul_add_mul_le_mul_add_mul hw h
          omega
      simp only [weightedSum_cons] at hsum ⊢
      omega

/-- Words as long as the longest one leave room for another one, if there was room for one that is
no shorter. -/
theorem codeSpace_cons_cons_le_one {m n : Nat} {lengths : List Nat} (hle : ∀ k ∈ lengths, k ≤ n)
    (h : codeSpace (m :: n :: lengths) ≤ 1) : codeSpace (n :: n :: lengths) ≤ 1 := by
  refine codeSpace_cons_le_one (List.forall_mem_cons.2 ⟨Nat.le_refl n, hle⟩) ?_
  have hshare : (0 : ℚ) < (1 / 2) ^ m := by positivity
  rw [codeSpace_cons] at h
  linarith

/-- Two words of one length take as much space as one that is a bit shorter. -/
theorem exists_codeSpace_cons {n : Nat} {lengths : List Nat}
    (h : codeSpace (n :: n :: lengths) ≤ 1) :
    ∃ k, n = k + 1 ∧ codeSpace (k :: lengths) ≤ 1 := by
  rw [codeSpace_cons, codeSpace_cons] at h
  cases n with
  | zero =>
    have := codeSpace_nonneg lengths
    rw [pow_zero] at h
    linarith
  | succ k =>
    refine ⟨k, rfl, ?_⟩
    rw [codeSpace_cons]
    rw [pow_succ] at h
    linarith

/-- The first of the first components belongs to the first of the pairs. -/
theorem exists_eq_cons_of_map_fst {x : Nat} {rest : List Nat} {pairs : List (Nat × Nat)}
    (h : pairs.map (·.1) = x :: rest) :
    ∃ l pairs', pairs = (x, l) :: pairs' ∧ pairs'.map (·.1) = rest := by
  obtain ⟨⟨_, l⟩, pairs', rfl, rfl, hrest⟩ := List.map_eq_cons_iff.1 h
  exact ⟨l, pairs', rfl, hrest⟩

/-- The two lightest symbols may as well have the longest two words. -/
theorem exists_longest_two {x y : Nat} {rest : List Nat} {pairs : List (Nat × Nat)} (hxy : x ≤ y)
    (hy : ∀ w ∈ rest, y ≤ w) (hpairs : (pairs.map (·.1)).Perm (x :: y :: rest)) :
    ∃ m n others, others.map (·.1) = rest ∧
      (m :: n :: others.map (·.2)).Perm (pairs.map (·.2)) ∧ n ≤ m ∧
      (∀ k ∈ others.map (·.2), k ≤ n) ∧
      weightedSum ((x, m) :: (y, n) :: others) ≤ weightedSum pairs := by
  obtain ⟨ordered, horder, hfst⟩ := exists_perm_of_map_perm hpairs
  obtain ⟨l, ordered', rfl, hfst'⟩ := exists_eq_cons_of_map_fst hfst
  obtain ⟨k, others, rfl, rfl⟩ := exists_eq_cons_of_map_fst hfst'
  have hbehind : ∀ a ∈ others, y ≤ a.1 := fun a ha => hy _ (List.mem_map_of_mem ha)
  have hfirst : ∀ a ∈ (y, k) :: others, x ≤ a.1 :=
    List.forall_mem_cons.2 ⟨hxy, fun a ha => Nat.le_trans hxy (hbehind a ha)⟩
  -- First the lightest symbol gets the longest word, then the next one that of the others.
  obtain ⟨m, ordered₁, hfst₁, hsnd₁, hle₁, hsum₁⟩ := exists_longest_first l hfirst
  obtain ⟨k₁, others₁, rfl, hothers₁⟩ := exists_eq_cons_of_map_fst hfst₁
  have hbehind₁ : ∀ a ∈ others₁, y ≤ a.1 := by
    rw [← hothers₁] at hy
    exact fun a ha => hy _ (List.mem_map_of_mem ha)
  obtain ⟨n, others₂, hfst₂, hsnd₂, hle₂, hsum₂⟩ := exists_longest_first k₁ hbehind₁
  refine ⟨m, n, others₂, hfst₂.trans hothers₁, ?_, ?_, hle₂, ?_⟩
  · exact ((hsnd₂.cons m).trans hsnd₁).trans (horder.map Prod.snd).symm
  · exact hle₁ n (hsnd₂.mem_iff.1 List.mem_cons_self)
  · have hperm : weightedSum pairs = weightedSum ((x, l) :: (y, k) :: others) :=
      total_perm _ horder
    simp only [weightedSum_cons] at hperm hsum₁ hsum₂ ⊢
    omega

/-- The two lightest symbols may as well be one of both their weights with a word that is a bit
shorter. -/
theorem join_lightest {x y : Nat} {rest : List Nat} {pairs : List (Nat × Nat)} (hxy : x ≤ y)
    (hy : ∀ w ∈ rest, y ≤ w) (hpairs : (pairs.map (·.1)).Perm (x :: y :: rest))
    (hroom : codeSpace (pairs.map (·.2)) ≤ 1) :
    ∃ joined : List (Nat × Nat), (joined.map (·.1)).Perm ((x + y) :: rest) ∧
      codeSpace (joined.map (·.2)) ≤ 1 ∧ weightedSum joined + (x + y) ≤ weightedSum pairs := by
  obtain ⟨m, n, others, rfl, hlengths, hmn, hle, hsum⟩ := exists_longest_two hxy hy hpairs
  rw [← codeSpace_perm hlengths] at hroom
  obtain ⟨d, rfl, hjoined⟩ := exists_codeSpace_cons (codeSpace_cons_cons_le_one hle hroom)
  refine ⟨(x + y, d) :: others, List.Perm.refl _, hjoined, ?_⟩
  have hx : x * (d + 1) ≤ x * m := Nat.mul_le_mul_left x hmn
  simp only [weightedSum_cons] at hsum ⊢
  rw [Nat.mul_succ] at hx hsum
  rw [Nat.add_mul]
  omega

/-- The bits that the symbols of an alphabet take, by their weights and the lengths of their
words. -/
def weightedLength (weights : List Nat) (length : Nat → Nat) : Nat :=
  total (fun a => a.1 * length a.2) weights.zipIdx

/-- Only symbols that have a weight count. -/
theorem weightedLength_eq (weights : List Nat) (length : Nat → Nat) :
    weightedLength weights length =
      total (fun s => weights.getD s 0 * length s) (CodeTree.symbolsWhere (0 < ·) weights) := by
  have hidle : ∀ a ∈ weights.zipIdx, ¬decide (0 < a.1) → a.1 * length a.2 = 0 := by
    intro a _ ha
    rw [decide_eq_true_eq, Nat.not_lt, Nat.le_zero] at ha
    rw [ha, Nat.zero_mul]
  rw [weightedLength, CodeTree.symbolsWhere, total_map, ← total_filter hidle]
  refine total_congr fun a ha => ?_
  rw [List.getD_eq_getElem?_getD,
    List.mk_mem_zipIdx_iff_getElem?.1 (List.mem_of_mem_filter ha), Option.getD_some]

/-- Shorter lengths have a smaller weighted length, whatever those of symbols without weight are. -/
theorem weightedLength_mono {weights : List Nat} {k l : Nat → Nat}
    (h : ∀ s ∈ CodeTree.symbolsWhere (0 < ·) weights, k s ≤ l s) :
    weightedLength weights k ≤ weightedLength weights l := by
  rw [weightedLength_eq, weightedLength_eq]
  exact total_mono fun s hs => Nat.mul_le_mul_left _ (h s hs)

/-- The first symbol counts on its own, and the others one place further. -/
theorem weightedLength_cons (w : Nat) (weights : List Nat) (length : Nat → Nat) :
    weightedLength (w :: weights) length =
      w * length 0 + weightedLength weights fun s => length (s + 1) := by
  rw [weightedLength, List.zipIdx_cons', total_cons, total_map]
  rfl

/-- Behind the zeros at the end nothing else counts. -/
theorem weightedLength_append_zeros (weights : List Nat) {zeros : List Nat}
    (h : ∀ w ∈ zeros, w = 0) (length : Nat → Nat) :
    weightedLength (weights ++ zeros) length = weightedLength weights length := by
  have hzero : total (fun a => a.1 * length a.2) (zeros.zipIdx (0 + weights.length)) = 0 :=
    total_eq_zero fun a ha => by rw [h a.1 (List.fst_mem_of_mem_zipIdx ha), Nat.zero_mul]
  rw [weightedLength, List.zipIdx_append, total_append, hzero]
  rfl

/-- A symbol that occurs once more takes its word once more. -/
theorem weightedLength_modify {weights : List Nat} {s : Nat} (hs : s < weights.length)
    (length : Nat → Nat) :
    weightedLength (weights.modify s (· + 1)) length =
      weightedLength weights length + length s := by
  induction weights generalizing s length with
  | nil => cases hs
  | cons w weights ih =>
    cases s with
    | zero =>
      rw [List.modify_zero_cons, weightedLength_cons, weightedLength_cons, Nat.succ_mul]
      omega
    | succ s =>
      rw [List.modify_succ_cons, weightedLength_cons, weightedLength_cons,
        ih (Nat.lt_of_succ_lt_succ hs)]
      omega

/-- Symbols weighted by how often they occur take as many bits as they take one by one. -/
theorem weightedLength_tally {size : Nat} {symbols : List Nat} (h : ∀ s ∈ symbols, s < size)
    (length : Nat → Nat) : weightedLength (tally size symbols) length = total length symbols := by
  induction symbols using List.reverseRecOn with
  | nil =>
    have hzeros : ∀ w ∈ List.replicate size 0, w = 0 := fun w hw => List.eq_of_mem_replicate hw
    rw [tally_nil]
    exact weightedLength_append_zeros [] hzeros length
  | append_singleton symbols s ih =>
    obtain ⟨hsymbols, hs⟩ := List.forall_mem_append.1 h
    have hlt : s < (tally size symbols).length := by
      rw [length_tally]
      exact hs s (List.mem_singleton.2 rfl)
    rw [tally_concat, weightedLength_modify hlt, ih hsymbols, total_append, total_cons, total_nil,
      Nat.add_zero]

/-! ## The tree of least weight -/

namespace CodeTree

/-- The bits that the symbols of a tree take, by their weights and the depths of their leaves. -/
def weightedDepth (weightOf : Nat → Nat) (t : CodeTree) : Nat :=
  total (fun l => weightOf l.symbol * l.depth) (t.leaves 0)

section

variable {weightOf : Nat → Nat}

/-- One level further down each symbol takes its weight more. -/
theorem total_leaves_succ (t : CodeTree) (d : Nat) :
    total (fun l => weightOf l.symbol * l.depth) (t.leaves (d + 1)) =
      total (fun l => weightOf l.symbol * l.depth) (t.leaves d) + total weightOf t.symbols := by
  induction t generalizing d with
  | leaf s =>
    simp only [leaves, symbols, total_cons, total_nil]
    rw [Nat.mul_succ]
    omega
  | node left right ihl ihr =>
    rw [leaves, leaves, symbols, total_append, total_append, total_append, ihl (d + 1),
      ihr (d + 1)]
    omega

/-- A leaf at the root has no depth. -/
theorem weightedDepth_leaf (s : Nat) : weightedDepth weightOf (leaf s) = 0 := by
  simp only [weightedDepth, leaves, total_cons, total_nil, Nat.mul_zero]

/-- A node moves all symbols below it one level down. -/
theorem weightedDepth_node (left right : CodeTree) :
    weightedDepth weightOf (node left right) = weightedDepth weightOf left +
      weightedDepth weightOf right + total weightOf (node left right).symbols := by
  rw [weightedDepth, leaves, symbols, total_append, total_append, total_leaves_succ,
    total_leaves_succ, weightedDepth, weightedDepth]
  omega

/-- A sorted forest stays sorted when a tree is put into it. -/
theorem pairwise_insert {t : Weighted} {forest : List Weighted}
    (h : forest.Pairwise fun a b => a.weight ≤ b.weight) :
    (insert t forest).Pairwise fun a b => a.weight ≤ b.weight := by
  induction forest with
  | nil => exact List.pairwise_singleton _ _
  | cons u forest ih =>
    obtain ⟨hu, hforest⟩ := List.pairwise_cons.1 h
    unfold insert
    split
    · next hle =>
      refine List.pairwise_cons.2 ⟨fun v hv => ?_, ih hforest⟩
      rcases List.mem_cons.1 ((insert_perm t forest).mem_iff.1 hv) with rfl | hv
      · exact hle
      · exact hu v hv
    · next hlt =>
      refine List.pairwise_cons.2 ⟨fun v hv => ?_, h⟩
      rcases List.mem_cons.1 hv with rfl | hv
      · omega
      · have := hu v hv
        omega

/-- No lengths that fit beside each other make up for joining the lightest trees first. -/
theorem combine_least {forest : List Weighted} {t : CodeTree} (h : combine forest = some t)
    (hsorted : forest.Pairwise fun a b => a.weight ≤ b.weight)
    (hweight : ∀ u ∈ forest, u.weight = total weightOf u.tree.symbols)
    {pairs : List (Nat × Nat)} (hpairs : (pairs.map (·.1)).Perm (forest.map (·.weight)))
    (hroom : codeSpace (pairs.map (·.2)) ≤ 1) :
    weightedDepth weightOf t ≤
      total (fun u => weightedDepth weightOf u.tree) forest + weightedSum pairs := by
  fun_induction combine forest generalizing pairs with
  | case1 => cases h
  | case2 u =>
    cases h
    rw [total_cons, total_nil]
    omega
  | case3 a b forest ih =>
    obtain ⟨ha, hsorted⟩ := List.pairwise_cons.1 hsorted
    obtain ⟨hb, hsorted⟩ := List.pairwise_cons.1 hsorted
    have hbehind : ∀ w ∈ forest.map (·.weight), b.weight ≤ w := by
      intro w hw
      obtain ⟨u, hu, rfl⟩ := List.mem_map.1 hw
      exact hb u hu
    -- The given lengths, exchanged so that the two lightest are neighbours, make lengths for the
    -- forest in which these two are one tree.
    obtain ⟨joined, hjoined, hspace, hsum⟩ :=
      join_lightest (ha b List.mem_cons_self) hbehind hpairs hroom
    have hinsert := insert_perm ⟨a.weight + b.weight, node a.tree b.tree⟩ forest
    have hwa := hweight a List.mem_cons_self
    have hwb := hweight b (List.mem_cons_of_mem _ List.mem_cons_self)
    have hnode : a.weight + b.weight = total weightOf (node a.tree b.tree).symbols := by
      rw [symbols, total_append, hwa, hwb]
    have hjoined : (joined.map (·.1)).Perm ((insert _ forest).map (·.weight)) :=
      hjoined.trans (hinsert.map Weighted.weight).symm
    have hleast := ih h (pairwise_insert hsorted) (fun u hu => ?_) hjoined hspace
    · rw [total_perm _ hinsert, total_cons, weightedDepth_node, ← hnode] at hleast
      rw [total_cons, total_cons]
      omega
    · rcases List.mem_cons.1 (hinsert.mem_iff.1 hu) with rfl | hu
      · exact hnode
      · exact hweight u (List.mem_cons_of_mem _ (List.mem_cons_of_mem _ hu))

/-- The tree that leaves are joined to has the least weighted depth: whatever lengths are given to
the leaves, if they have room, the tree does no worse. Sorting the leaves changes no sum, and from
there on each joining takes the two lightest. -/
theorem ofLeaves?_least {forest : List Weighted} {t : CodeTree} (h : ofLeaves? forest = some t)
    (hweight : ∀ u ∈ forest, u.weight = total weightOf u.tree.symbols)
    {pairs : List (Nat × Nat)} (hpairs : (pairs.map (·.1)).Perm (forest.map (·.weight)))
    (hroom : codeSpace (pairs.map (·.2)) ≤ 1) :
    weightedDepth weightOf t ≤
      total (fun u => weightedDepth weightOf u.tree) forest + weightedSum pairs := by
  have hperm := List.mergeSort_perm forest fun a b => a.weight ≤ b.weight
  have hsorted : (forest.mergeSort fun a b => a.weight ≤ b.weight).Pairwise
      fun a b => a.weight ≤ b.weight := by
    refine (List.pairwise_mergeSort ?_ ?_ forest).imp of_decide_eq_true
    · intro a b c hab hbc
      simp only [decide_eq_true_eq] at hab hbc ⊢
      omega
    · intro a b
      simp only [Bool.or_eq_true, decide_eq_true_eq]
      omega
  rw [← total_perm _ hperm]
  exact combine_least h hsorted (fun u hu => hweight u (hperm.mem_iff.1 hu))
    (hpairs.trans (hperm.map Weighted.weight).symm) hroom

end

/-! ## Weights whose tree is not too deep -/

/-- Every tree has a leaf. -/
theorem length_leaves_pos (t : CodeTree) (d : Nat) : 0 < (t.leaves d).length := by
  induction t generalizing d with
  | leaf s => exact Nat.one_pos
  | node left right ihl ihr =>
    rw [leaves, List.length_append]
    exact Nat.add_pos_left (ihl (d + 1)) _

/-- A tree with some leaves is not as deep as there are leaves. -/
theorem depth_lt_of_mem_leaves {t : CodeTree} {d : Nat} {l : Leaf} (h : l ∈ t.leaves d) :
    l.depth < d + (t.leaves d).length := by
  induction t generalizing d with
  | leaf s =>
    rw [List.mem_singleton.1 h]
    exact Nat.lt_succ_self d
  | node left right ihl ihr =>
    have hleft := length_leaves_pos left (d + 1)
    have hright := length_leaves_pos right (d + 1)
    rw [leaves, List.length_append]
    rcases List.mem_append.1 h with h | h
    · have := ihl h
      omega
    · have := ihr h
      omega

/-- The tree of least weight needs no limiting. -/
def Shallow (weights : List Nat) (limit : Nat) : Prop :=
  ∀ t, ofLeaves? (initialLeaves weights) = some t → maxDepth (t.leaves 0) ≤ limit

/-- A tree of few leaves is not deep. -/
theorem shallow_of_length_le {weights : List Nat} {limit : Nat}
    (h : (initialLeaves weights).length ≤ limit + 1) : Shallow weights limit := by
  intro t ht
  refine CodeTable.foldl_max_le fun n hn => ?_
  obtain ⟨l, hl, rfl⟩ := List.mem_map.1 hn
  have hlt := depth_lt_of_mem_leaves hl
  rw [length_leaves_of_ofLeaves? ht] at hlt
  omega

/-- The leaves for weights whose tree is not too deep are those of the tree. -/
theorem ofWeights_of_shallow {weights : List Nat} {limit : Nat} (htwo : 2 ≤ weights.length)
    (h : Shallow weights limit) :
    ∃ t, ofLeaves? (initialLeaves weights) = some t ∧
      ofWeights weights limit = .ok (t.leaves 0) := by
  have hlen := length_initialLeaves htwo
  obtain ⟨t, ht⟩ := ofLeaves?_total (initialLeaves_ne_nil htwo)
  refine ⟨t, ht, ofWeights_eq_ok_iff.2 ⟨by omega, t, ht, ?_⟩⟩
  rw [limitDepth, dif_neg (Nat.not_lt.2 (h t ht))]

/-- Two symbols with weight or more need no others. -/
theorem initialLeaves_eq {weights : List Nat} (h : 2 ≤ weights.countP (0 < ·)) :
    initialLeaves weights = weightedLeaves weights := by
  rw [← length_weightedLeaves] at h
  rw [initialLeaves, Nat.sub_eq_zero_of_le h, List.take_zero, List.append_nil]

/-- The words of a tree's table take as much as the tree says. -/
theorem weightedLength_table {weights : List Nat} {limit : Nat} {t : CodeTree}
    (hc : Covers weights.length limit (t.leaves 0))
    (hsymbols : t.symbols.Perm (symbolsWhere (0 < ·) weights)) :
    weightedLength weights (table weights.length (t.leaves 0)).lengthOf =
      weightedDepth (fun s => weights.getD s 0) t := by
  rw [weightedLength_eq, ← total_perm _ hsymbols, ← map_symbol_leaves t 0, total_map,
    weightedDepth]
  exact total_congr fun l hl => by rw [lengthOf_table hc hl]

/-- Lengths of words that fit beside each other, one for each symbol that has a weight. -/
structure Fits (weights : List Nat) (length : Nat → Nat) : Prop where
  pos : ∀ s ∈ symbolsWhere (0 < ·) weights, 0 < length s
  codeSpace_le_one : codeSpace ((symbolsWhere (0 < ·) weights).map length) ≤ 1

/-- The words of a tree of least weight are no longer in all than words of lengths that fit. -/
theorem weightedDepth_le {weights : List Nat} {t : CodeTree}
    (htwo : 2 ≤ weights.countP (0 < ·)) (ht : ofLeaves? (initialLeaves weights) = some t)
    {length : Nat → Nat} (hfits : Fits weights length) :
    weightedDepth (fun s => weights.getD s 0) t ≤ weightedLength weights length := by
  rw [initialLeaves_eq htwo, weightedLeaves_eq] at ht
  have hleast := @ofLeaves?_least (fun s => weights.getD s 0) _ _ ht
    (List.forall_mem_map.2 fun s _ => (Nat.zero_add _).symm)
    ((symbolsWhere (0 < ·) weights).map fun s => (weights.getD s 0, length s))
    (by rw [List.map_map, List.map_map]; exact List.Perm.refl _)
    (by rw [List.map_map]; exact hfits.codeSpace_le_one)
  have hflat : total (fun s => weightedDepth (fun s => weights.getD s 0) (leaf s))
      (symbolsWhere (0 < ·) weights) = 0 := total_eq_zero fun s _ => weightedDepth_leaf s
  rw [total_map, hflat, weightedSum, total_map, Nat.zero_add] at hleast
  rw [weightedLength_eq]
  exact hleast

end CodeTree

/-- Weights whose tree is not too deep get words that are no longer in all than words of any lengths
that fit. -/
theorem CodeTable.ofWeights_least {weights : List Nat} {limit : Nat} (htwo : 2 ≤ weights.length)
    (hshallow : CodeTree.Shallow weights limit) :
    ∃ t, CodeTable.ofWeights weights limit = .ok t ∧ ∀ length, CodeTree.Fits weights length →
      weightedLength weights t.lengthOf ≤ weightedLength weights length := by
  obtain ⟨t, ht, e⟩ := CodeTree.ofWeights_of_shallow htwo hshallow
  have hc := (CodeTree.ofWeights_spec e).1
  refine ⟨CodeTree.table weights.length (t.leaves 0), by rw [CodeTable.ofWeights, e]; rfl,
    fun length hfits => ?_⟩
  by_cases hmany : 2 ≤ weights.countP (0 < ·)
  · have hsymbols : t.symbols.Perm (CodeTree.symbolsWhere (0 < ·) weights) := by
      have hperm := CodeTree.symbols_ofWeights e
      rwa [CodeTree.map_symbol_leaves, CodeTree.symbols_initialLeaves,
        CodeTree.length_weightedLeaves, Nat.sub_eq_zero_of_le hmany, List.take_zero,
        List.append_nil] at hperm
    rw [CodeTree.weightedLength_table hc hsymbols]
    exact CodeTree.weightedDepth_le hmany ht hfits
  · -- One symbol with a weight shares the space with another one, and has a word of one bit.
    have hle : ∀ l ∈ t.leaves 0, l.depth ≤ 1 := by
      intro l hl
      have hlt := CodeTree.depth_lt_of_mem_leaves hl
      rw [CodeTree.length_leaves_of_ofLeaves? ht, CodeTree.length_initialLeaves htwo,
        CodeTree.length_weightedLeaves] at hlt
      omega
    have hc : CodeTree.Covers weights.length 1 (t.leaves 0) := { hc with depth_le := hle }
    have hshort := CodeTree.lengths_table_le hc
    refine weightedLength_mono fun s hs => ?_
    exact Nat.le_trans (CodeTable.lengthOf_le_of_lengths hshort s) (hfits.pos s hs)

end DeflateRecoder
