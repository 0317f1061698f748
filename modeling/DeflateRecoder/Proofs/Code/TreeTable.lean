import DeflateRecoder.Proofs.Code.Tree
import Mathlib.Data.List.Induction

/-!
# The table of a tree is canonical

`CodeTree.table` deals out words in the order of depth and symbol. These are the words that the
depths determine as code lengths: `canonical_table`. The word of a leaf is as far behind the first
of its length as there are leaves of its depth before it (`words_enter`), and in the order of the
words those are the leaves of its depth with a smaller symbol (`count_take_lengths`).
-/

namespace DeflateRecoder

/-! ## Words by their lengths -/

/-- First words depend on nothing but how many words there are of each length. -/
theorem firstCode_congr {k l : List Nat} (h : ∀ n, codeCount k n = codeCount l n) (n : Nat) :
    firstCode k n = firstCode l n := by
  induction n with
  | zero => rfl
  | succ n ih => rw [firstCode, firstCode, ih, h]

/-- Where no words lie between two lengths, the first longer word extends the next shorter one. -/
theorem firstCode_of_gap {lengths : List Nat} {n : Nat} (k : Nat)
    (h : ∀ j < k, codeCount lengths (n + (j + 1)) = 0) :
    firstCode lengths (n + (k + 1)) =
      2 ^ (k + 1) * (firstCode lengths n + codeCount lengths n) := by
  induction k with
  | zero => rfl
  | succ k ih =>
    have hstep : firstCode lengths (n + (k + 1 + 1)) =
      2 * (firstCode lengths (n + (k + 1)) + codeCount lengths (n + (k + 1))) := rfl
    rw [hstep, h k (Nat.lt_succ_self k), Nat.add_zero, ih fun j hj => h j (by omega),
      ← Nat.mul_assoc, Nat.pow_succ' (n := k + 1)]

/-- A symbol without a length has no word in the table of its lengths. -/
theorem CodeTable.getElem?_words_ofLengths_zero {lengths : List Nat} {s : Nat}
    (hs : lengths[s]? = some 0) : (ofLengths lengths).words[s]? = some CodeWord.absent := by
  rw [ofLengths, List.getElem?_toArray]
  exact getElem?_assign_zero _ hs

namespace CodeTree

/-! ## Dealing out words -/

@[simp] theorem size_enter (leaves : List Leaf) (code depth : Nat) (words : Array CodeWord) :
    (enter leaves code depth words).size = words.size := by
  induction leaves generalizing code depth words with
  | nil => rfl
  | cons l leaves ih => rw [enter, ih, Array.size_setIfInBounds]

/-- Symbols without a leaf keep the word they have. -/
theorem getElem?_enter_of_notMem {leaves : List Leaf} {s : Nat}
    (h : s ∉ leaves.map (·.symbol)) (code depth : Nat) (words : Array CodeWord) :
    (enter leaves code depth words)[s]? = words[s]? := by
  induction leaves generalizing code depth words with
  | nil => rfl
  | cons l leaves ih =>
    rw [List.map_cons, List.mem_cons, not_or] at h
    rw [enter, ih h.2, Array.getElem?_setIfInBounds_ne (Ne.symm h.1)]

/-- The word that a depth goes on with when its words have been dealt out as far as `pre`. -/
theorem shiftLeft_next {pre post : List Nat} {d e : Nat} (hle : d ≤ e)
    (hpre : ∀ k ∈ pre, k ≤ d) (hpost : ∀ k ∈ post, e ≤ k) (hpos : d = 0 → pre = []) :
    (firstCode (pre ++ post) d + pre.count d) <<< (e - d) =
      firstCode (pre ++ post) e + pre.count e := by
  rcases Nat.lt_or_eq_of_le hle with hlt | rfl
  · obtain ⟨k, rfl⟩ : ∃ k, e = d + (k + 1) := ⟨e - d - 1, by omega⟩
    -- No leaf lies between the two depths, so the word is only made longer.
    have habsent : ∀ j < k, codeCount (pre ++ post) (d + (j + 1)) = 0 := by
      intro j hj
      rw [codeCount_eq_count (by omega), List.count_eq_zero]
      intro hmem
      rcases List.mem_append.1 hmem with hmem | hmem
      · have := hpre _ hmem
        omega
      · have := hpost _ hmem
        omega
    have hcount : pre.count d = codeCount (pre ++ post) d := by
      rcases Nat.eq_zero_or_pos d with h0 | h0
      · rw [hpos h0, h0]
        rfl
      · have hlater : post.count d = 0 := by
          rw [List.count_eq_zero]
          intro hmem
          have := hpost _ hmem
          omega
        rw [codeCount_eq_count (by omega), List.count_append, hlater, Nat.add_zero]
    have hnone : pre.count (d + (k + 1)) = 0 := by
      rw [List.count_eq_zero]
      intro hmem
      have := hpre _ hmem
      omega
    rw [firstCode_of_gap k habsent, hnone, hcount, Nat.shiftLeft_eq, Nat.mul_comm,
      Nat.add_sub_cancel_left]
    rfl
  · rw [Nat.sub_self, Nat.shiftLeft_zero]

/-- A leaf's word is as far behind the first of its length as there are leaves of its depth before
it. -/
theorem words_enter {pre : List Nat} {post as bs : List Leaf} {l : Leaf} {depth : Nat}
    {words : Array CodeWord} (hsplit : post = as ++ l :: bs)
    (hsorted : (post.map (·.depth)).Pairwise (· ≤ ·)) (hpre : ∀ k ∈ pre, k ≤ depth)
    (hpost : ∀ l ∈ post, depth ≤ l.depth) (hpos : depth = 0 → pre = [])
    (hdeep : ∀ l ∈ post, 0 < l.depth) (hnodup : (post.map (·.symbol)).Nodup)
    (hlt : l.symbol < words.size) :
    (enter post (firstCode (pre ++ post.map (·.depth)) depth + pre.count depth) depth
        words)[l.symbol]? =
      some ⟨l.depth, (firstCode (pre ++ post.map (·.depth)) l.depth +
        (pre ++ as.map (·.depth)).count l.depth) % 65536⟩ := by
  induction as generalizing pre post depth words with
  | nil =>
    subst hsplit
    rw [List.nil_append, List.map_cons, List.nodup_cons] at hnodup
    rw [List.nil_append, List.map_cons, List.pairwise_cons] at hsorted
    rw [List.nil_append, enter, shiftLeft_next (hpost l List.mem_cons_self) hpre ?_ hpos,
      getElem?_enter_of_notMem hnodup.1, Array.getElem?_setIfInBounds_self_of_lt hlt, List.map_nil,
      List.append_nil]
    intro k hk
    rcases List.mem_cons.1 hk with rfl | hk
    · exact Nat.le_refl _
    · exact hsorted.1 k hk
  | cons a as ih =>
    subst hsplit
    rw [List.cons_append, List.map_cons, List.nodup_cons] at hnodup
    rw [List.cons_append, List.map_cons, List.pairwise_cons] at hsorted
    have hnext : ∀ k ∈ a.depth :: (as ++ l :: bs).map (·.depth), a.depth ≤ k := by
      intro k hk
      rcases List.mem_cons.1 hk with rfl | hk
      · exact Nat.le_refl _
      · exact hsorted.1 k hk
    -- The leaf dealt with joins those before: the word after its own is the next for its depth.
    have hmore : firstCode (pre ++ a.depth :: (as ++ l :: bs).map (·.depth)) a.depth +
        pre.count a.depth + 1 =
      firstCode (pre ++ [a.depth] ++ (as ++ l :: bs).map (·.depth)) a.depth +
        (pre ++ [a.depth]).count a.depth := by
      rw [List.append_assoc, List.singleton_append, List.count_append, List.count_singleton_self]
      omega
    rw [List.cons_append, enter, List.map_cons,
      shiftLeft_next (hpost a List.mem_cons_self) hpre hnext hpos, hmore,
      ih rfl hsorted.2 ?_ ?_ ?_ ?_ hnodup.2 (by rw [Array.size_setIfInBounds]; exact hlt),
      List.append_assoc, List.singleton_append, List.append_assoc, List.singleton_append,
      List.map_cons]
    · intro k hk
      rcases List.mem_append.1 hk with hk | hk
      · exact Nat.le_trans (hpre k hk) (hpost a List.mem_cons_self)
      · exact Nat.le_of_eq (List.mem_singleton.1 hk)
    · intro b hb
      exact hsorted.1 _ (List.mem_map_of_mem hb)
    · intro h0
      exact absurd h0 (Nat.pos_iff_ne_zero.1 (hdeep a List.mem_cons_self))
    · intro b hb
      exact hdeep b (List.mem_cons_of_mem _ hb)

/-! ## The order of the words -/

/-- Leaves in the order of their words are the same leaves. -/
theorem inWordOrder_perm (leaves : List Leaf) : (inWordOrder leaves).Perm leaves :=
  List.mergeSort_perm _ _

/-- Words go by their length, and within a length by their symbol. -/
theorem pairwise_inWordOrder (leaves : List Leaf) :
    (inWordOrder leaves).Pairwise fun a b =>
      a.depth < b.depth ∨ (a.depth = b.depth ∧ a.symbol ≤ b.symbol) := by
  refine (List.pairwise_mergeSort ?_ ?_ leaves).imp ?_
  · intro a b c hab hbc
    simp only [Bool.or_eq_true, Bool.and_eq_true, decide_eq_true_eq, beq_iff_eq] at hab hbc ⊢
    omega
  · intro a b
    simp only [Bool.or_eq_true, Bool.and_eq_true, decide_eq_true_eq, beq_iff_eq]
    omega
  · intro a b hab
    simp only [Bool.or_eq_true, Bool.and_eq_true, decide_eq_true_eq, beq_iff_eq] at hab
    exact hab

/-- Before a leaf in the order of the words, the leaves of its depth are those with a smaller
symbol. -/
theorem countP_before {as bs : List Leaf} {l : Leaf}
    (hsorted : (as ++ l :: bs).Pairwise fun a b =>
      a.depth < b.depth ∨ (a.depth = b.depth ∧ a.symbol ≤ b.symbol))
    (hnodup : ((as ++ l :: bs).map (·.symbol)).Nodup) :
    (as ++ l :: bs).countP (fun a => decide (a.symbol < l.symbol) && a.depth == l.depth) =
      (as.map (·.depth)).count l.depth := by
  obtain ⟨-, hcons, hcross⟩ := List.pairwise_append.1 hsorted
  have hlater := (List.pairwise_cons.1 hcons).1
  rw [List.map_append, List.map_cons] at hnodup
  have hne := (List.nodup_append.1 hnodup).2.2
  have hzero : (l :: bs).countP
      (fun a => decide (a.symbol < l.symbol) && a.depth == l.depth) = 0 := by
    rw [List.countP_eq_zero]
    intro a ha
    simp only [Bool.and_eq_true, decide_eq_true_eq, beq_iff_eq]
    rcases List.mem_cons.1 ha with rfl | ha
    · omega
    · have := hlater a ha
      omega
  rw [List.countP_append, hzero, Nat.add_zero, List.count_eq_countP, List.countP_map]
  refine List.countP_congr fun a ha => ?_
  have hlt := hcross a ha l List.mem_cons_self
  have hsymbol := hne a.symbol (List.mem_map_of_mem ha) l.symbol List.mem_cons_self
  simp only [Bool.and_eq_true, decide_eq_true_eq, beq_iff_eq, Function.comp_apply]
  omega

/-! ## The table -/

section

variable {size limit : Nat} {leaves : List Leaf}

/-- The words of a table are dealt out in the order of the words. -/
theorem words_table (h : Covers size limit leaves) {as bs : List Leaf} {l : Leaf}
    (hsplit : inWordOrder leaves = as ++ l :: bs) :
    (table size leaves).words[l.symbol]? =
      some ⟨l.depth, (firstCode ((inWordOrder leaves).map (·.depth)) l.depth +
        (as.map (·.depth)).count l.depth) % 65536⟩ := by
  have hS := h.perm (inWordOrder_perm leaves).symm
  have hsorted : ((inWordOrder leaves).map (·.depth)).Pairwise (· ≤ ·) := by
    rw [List.pairwise_map]
    refine (pairwise_inWordOrder leaves).imp fun hab => ?_
    omega
  have hmem : l ∈ inWordOrder leaves := by
    rw [hsplit]
    exact List.mem_append_right _ List.mem_cons_self
  refine @words_enter [] _ _ _ _ _ _ hsplit hsorted ?_ (fun _ _ => Nat.zero_le _) (fun _ => rfl)
    hS.depth_pos hS.nodup ?_
  · intro k hk
    cases hk
  · rw [Array.size_replicate]
    exact hS.symbol_lt l hmem

/-- The table has a place for every symbol. -/
theorem size_table : (table size leaves).size = size := by
  rw [table, CodeTable.size, size_enter, Array.size_replicate]

/-- The table has a word of `n` bits for a symbol if there is such a leaf. -/
theorem getElem?_lengths_table (h : Covers size limit leaves) {s n : Nat} (hn : n ≠ 0) :
    (table size leaves).lengths[s]? = some n ↔ (⟨s, n⟩ : Leaf) ∈ inWordOrder leaves := by
  rw [CodeTable.getElem?_lengths]
  constructor
  · intro hs
    obtain ⟨w, hw, rfl⟩ := Option.map_eq_some_iff.1 hs
    by_cases hmem : s ∈ (inWordOrder leaves).map (·.symbol)
    · obtain ⟨l, hl, rfl⟩ := List.mem_map.1 hmem
      obtain ⟨as, bs, hsplit⟩ := List.append_of_mem hl
      rw [words_table h hsplit, Option.some.injEq] at hw
      rw [← hw]
      exact hl
    · rw [table, getElem?_enter_of_notMem hmem, Array.getElem?_replicate] at hw
      split at hw
      · cases hw
        exact absurd rfl hn
      · cases hw
  · intro hl
    obtain ⟨as, bs, hsplit⟩ := List.append_of_mem hl
    rw [words_table h hsplit]
    rfl

/-- A symbol that is not at a leaf has no word. -/
theorem getElem?_lengths_table_zero {s : Nat} (hs : s < size)
    (hmem : s ∉ (inWordOrder leaves).map (·.symbol)) :
    (table size leaves).words[s]? = some CodeWord.absent := by
  rw [table, getElem?_enter_of_notMem hmem, Array.getElem?_replicate, if_pos hs]

/-- One symbol further, there is one more leaf before it just where it is at a leaf itself. -/
theorem countP_symbol_lt_succ (s n : Nat) (leaves : List Leaf) :
    leaves.countP (fun a => decide (a.symbol < s + 1) && a.depth == n) =
      leaves.countP (fun a => decide (a.symbol < s) && a.depth == n) + leaves.count ⟨s, n⟩ := by
  induction leaves with
  | nil => rfl
  | cons a leaves ih =>
    rw [List.countP_cons, List.countP_cons, List.count_cons, ih]
    have hsame : (a == ⟨s, n⟩) = (decide (a.symbol = s) && a.depth == n) := by
      rw [Bool.eq_iff_iff, beq_iff_eq, Bool.and_eq_true, decide_eq_true_eq, beq_iff_eq]
      cases a
      exact Leaf.mk.injEq .. ▸ Iff.rfl
    rw [hsame]
    by_cases hd : a.depth = n
    · rw [hd, beq_self_eq_true, Bool.and_true, Bool.and_true, Bool.and_true]
      simp only [decide_eq_true_eq]
      split <;> split <;> split <;> omega
    · rw [beq_eq_false_iff_ne.2 hd, Bool.and_false, Bool.and_false, Bool.and_false]
      rfl

/-- The symbols before `s` with words of `n` bits are those of leaves. -/
theorem count_take_lengths (h : Covers size limit leaves) {n : Nat} (hn : n ≠ 0) (s : Nat) :
    ((table size leaves).lengths.take s).count n =
      (inWordOrder leaves).countP fun a => decide (a.symbol < s) && a.depth == n := by
  have hS := h.perm (inWordOrder_perm leaves).symm
  have hnodup : (inWordOrder leaves).Nodup :=
    (List.pairwise_map.1 hS.nodup).imp fun hne heq => hne (congrArg _ heq)
  induction s with
  | zero =>
    rw [List.take_zero, List.count_nil, eq_comm, List.countP_eq_zero]
    simp
  | succ s ih =>
    have hone : ((table size leaves).lengths[s]?.toList).count n =
        (inWordOrder leaves).count ⟨s, n⟩ := by
      rw [hnodup.count]
      simp only [← getElem?_lengths_table h hn]
      cases hs : (table size leaves).lengths[s]? with
      | none => rfl
      | some m =>
        rw [Option.toList_some, List.count_singleton]
        simp only [beq_iff_eq, Option.some.injEq]
    rw [List.take_add_one, List.count_append, ih, hone, countP_symbol_lt_succ]

/-- There are as many words of each length as leaves of that depth. -/
theorem codeCount_table (h : Covers size limit leaves) (n : Nat) :
    codeCount (table size leaves).lengths n =
      codeCount ((inWordOrder leaves).map (·.depth)) n := by
  have hS := h.perm (inWordOrder_perm leaves).symm
  by_cases hn : n = 0
  · rw [hn]
    rfl
  · have hcount := count_take_lengths h hn size
    rw [List.take_of_length_le (Nat.le_of_eq (by rw [CodeTable.length_lengths, size_table]))]
      at hcount
    rw [codeCount_eq_count hn, codeCount_eq_count hn, hcount, List.count_eq_countP,
      List.countP_map]
    refine List.countP_congr fun a ha => ?_
    have := hS.symbol_lt a ha
    simp only [Bool.and_eq_true, decide_eq_true_eq, beq_iff_eq, Function.comp_apply]
    omega

/-- The words of a tree's table are those that its code lengths determine. -/
theorem ofLengths_table (h : Covers size limit leaves) :
    CodeTable.ofLengths (table size leaves).lengths = table size leaves := by
  have hS := h.perm (inWordOrder_perm leaves).symm
  have hwords : (CodeTable.ofLengths (table size leaves).lengths).words =
      (table size leaves).words := by
    refine Array.ext_getElem? fun s => ?_
    rcases Nat.lt_or_ge s size with hs | hs
    · by_cases hmem : s ∈ (inWordOrder leaves).map (·.symbol)
      · -- As many leaves of its depth come before a leaf as symbols of that length before its own.
        obtain ⟨l, hl, rfl⟩ := List.mem_map.1 hmem
        obtain ⟨as, bs, hsplit⟩ := List.append_of_mem hl
        have hpos := Nat.pos_iff_ne_zero.1 (hS.depth_pos l hl)
        have hsorted := pairwise_inWordOrder leaves
        have hnodup := hS.nodup
        have hword := words_table h hsplit
        rw [CodeTable.getElem?_words_ofLengths ((getElem?_lengths_table h hpos).2 hl) hpos,
          count_take_lengths h hpos, firstCode_congr (codeCount_table h), hword]
        rw [hsplit] at hsorted hnodup ⊢
        rw [countP_before hsorted hnodup]
      · have hzero := getElem?_lengths_table_zero hs hmem
        have hlen : (table size leaves).lengths[s]? = some 0 := by
          rw [CodeTable.getElem?_lengths, hzero]
          rfl
        rw [CodeTable.getElem?_words_ofLengths_zero hlen, hzero]
    · have h₁ : (table size leaves).words.size ≤ s := by
        rw [← CodeTable.size, size_table]
        exact hs
      have h₂ : (CodeTable.ofLengths (table size leaves).lengths).words.size ≤ s := by
        rw [← CodeTable.size, ← CodeTable.length_lengths, CodeTable.lengths_ofLengths,
          CodeTable.length_lengths, size_table]
        exact hs
      rw [Array.getElem?_eq_none h₁, Array.getElem?_eq_none h₂]
  exact CodeTable.eq_of_words hwords

/-- The code lengths of a tree's table are the depths of its leaves and zeros. -/
theorem filter_lengths_perm (h : Covers size limit leaves) :
    ((table size leaves).lengths.filter (0 < ·)).Perm (leaves.map (·.depth)) := by
  have hS := h.perm (inWordOrder_perm leaves).symm
  refine List.Perm.trans (List.perm_iff_count.2 fun n => ?_) ((inWordOrder_perm leaves).map _)
  have hcount := codeCount_table h n
  by_cases hn : n = 0
  · subst hn
    rw [List.count_eq_zero.2 (by simp), List.count_eq_zero.2]
    intro hmem
    obtain ⟨l, hl, h0⟩ := List.mem_map.1 hmem
    exact absurd h0 (Nat.pos_iff_ne_zero.1 (hS.depth_pos l hl))
  · rw [codeCount_eq_count hn, codeCount_eq_count hn] at hcount
    rw [← hcount, List.count_filter]
    rw [decide_eq_true_eq]
    exact Nat.pos_of_ne_zero hn

/-- A symbol has a word just if it has a leaf, and the word is as long as the leaf is deep. -/
theorem lengthOf_table (h : Covers size limit leaves) {l : Leaf} (hl : l ∈ leaves) :
    (table size leaves).lengthOf l.symbol = l.depth := by
  have hpos := Nat.pos_iff_ne_zero.1 (h.depth_pos l hl)
  have hmem : (⟨l.symbol, l.depth⟩ : Leaf) ∈ inWordOrder leaves :=
    (inWordOrder_perm leaves).mem_iff.2 hl
  rw [CodeTable.lengthOf_eq, (getElem?_lengths_table h hpos).2 hmem]
  rfl

/-- No word is longer than the limit. -/
theorem lengths_table_le (h : Covers size limit leaves) :
    ∀ n ∈ (table size leaves).lengths, n ≤ limit := by
  intro n hn
  by_cases h0 : n = 0
  · rw [h0]
    exact Nat.zero_le _
  · obtain ⟨s, hs⟩ := List.mem_iff_getElem?.1 hn
    exact (h.perm (inWordOrder_perm leaves).symm).depth_le _ ((getElem?_lengths_table h h0).1 hs)

/-- The table of a tree that is not too deep is canonical. -/
theorem canonical_table (h : Covers size limit leaves) (hlimit : limit ≤ maxCodeLength) :
    (table size leaves).Canonical := by
  refine ⟨?_, ofLengths_table h⟩
  obtain ⟨m, hm⟩ := h.complete
  have hdepth : ∀ l ∈ leaves, l.depth ≤ maxCodeLength := fun l hl =>
    Nat.le_trans (h.depth_le l hl) hlimit
  have hlengths : ∀ n ∈ (table size leaves).lengths, n ≤ maxCodeLength := fun n hn =>
    Nat.le_trans (lengths_table_le h n hn) hlimit
  have hmax : (table size leaves).maxLength ≤ maxCodeLength := by
    rw [CodeTable.maxLength_eq]
    exact CodeTable.foldl_max_le hlengths
  have hsum : (table size leaves).kraftSum = 2 ^ maxCodeLength := by
    rw [CodeTable.kraftSum, total_kraftShare_eq hlengths, total_perm _ (filter_lengths_perm h),
      total_map, (hm.of_depth_le hdepth).sum_eq]
  rw [CodeTable.isValid, hsum, Nat.one_shiftLeft, Bool.and_eq_true, decide_eq_true_eq]
  exact ⟨hmax, decide_eq_true (Nat.le_refl _)⟩

end

end CodeTree

/-- The table for weights is canonical, has a word for every symbol with a weight, and none that is
too long. -/
theorem CodeTable.ofWeights_spec {weights : List Nat} {limit : Nat} {t : CodeTable}
    (hlimit : limit ≤ maxCodeLength) (h : CodeTable.ofWeights weights limit = .ok t) :
    t.Canonical ∧ t.size = weights.length ∧ (∀ n ∈ t.lengths, n ≤ limit) ∧
      ∀ s w, weights[s]? = some w → 0 < w → 0 < t.lengthOf s := by
  unfold CodeTable.ofWeights at h
  cases hw : CodeTree.ofWeights weights limit with
  | error e =>
    rw [hw] at h
    cases h
  | ok leaves =>
    rw [hw] at h
    cases h
    obtain ⟨hc, hmem⟩ := CodeTree.ofWeights_spec hw
    refine ⟨CodeTree.canonical_table hc hlimit, CodeTree.size_table,
      CodeTree.lengths_table_le hc, ?_⟩
    intro s w hs hpos
    obtain ⟨l, hl, rfl⟩ := List.mem_map.1 (hmem s w hs hpos)
    rw [CodeTree.lengthOf_table hc hl]
    exact hc.depth_pos l hl

/-! ## Tallies -/

/-- Without symbols all counts are zero. -/
theorem tally_nil (size : Nat) : tally size [] = List.replicate size 0 := Array.toList_replicate

/-- One more symbol is counted once more. -/
theorem tally_concat (size : Nat) (symbols : List Nat) (s : Nat) :
    tally size (symbols ++ [s]) = (tally size symbols).modify s (· + 1) := by
  rw [tally, List.foldl_append, List.foldl_cons, List.foldl_nil, Array.toList_modify, tally]

@[simp] theorem length_tally (size : Nat) (symbols : List Nat) :
    (tally size symbols).length = size := by
  induction symbols using List.reverseRecOn with
  | nil => rw [tally_nil, List.length_replicate]
  | append_singleton symbols s ih => rw [tally_concat, List.length_modify, ih]

/-- A symbol is counted as often as it occurs. -/
theorem getElem?_tally {size s : Nat} (symbols : List Nat) (hs : s < size) :
    (tally size symbols)[s]? = some (symbols.count s) := by
  induction symbols using List.reverseRecOn with
  | nil => rw [tally_nil, List.getElem?_replicate, if_pos hs, List.count_nil]
  | append_singleton symbols a ih =>
    rw [tally_concat, List.getElem?_modify, ih, List.count_append, List.count_singleton]
    simp only [beq_iff_eq]
    split <;> rfl

/-- No count exceeds the number of the symbols that are counted. -/
theorem le_length_of_mem_tally {size n : Nat} {symbols : List Nat} (h : n ∈ tally size symbols) :
    n ≤ symbols.length := by
  obtain ⟨s, hs⟩ := List.mem_iff_getElem?.1 h
  have hlt : s < size := by
    rw [← length_tally size symbols]
    exact (List.getElem?_eq_some_iff.1 hs).1
  rw [getElem?_tally symbols hlt, Option.some.injEq] at hs
  rw [← hs]
  exact List.count_le_length

/-- Symbols that occur are counted. -/
theorem tally_pos {size s : Nat} {symbols : List Nat} (hs : s < size) (h : s ∈ symbols) :
    ∃ w, (tally size symbols)[s]? = some w ∧ 0 < w :=
  ⟨_, getElem?_tally symbols hs, List.count_pos_iff.2 h⟩

end DeflateRecoder
