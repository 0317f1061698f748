import DeflateRecoder.Code.Table
import DeflateRecoder.Proofs.Bits.Writer
import DeflateRecoder.Proofs.Total

/-!
# Canonical words

A table is canonical when its code lengths determine it (`CodeTable.Canonical`).
`getElem?_words_ofLengths` says which word each symbol gets, and `Canonical.word_eq` that it is the
number one expects, not cut off: the words of `n` bits and those before them take no more than the
space of `n` bits (`firstCode_add_codeCount_le`), which is the inequality of Kraft read length by
length.
-/

namespace DeflateRecoder

/-! ## Numbers of words -/

/-- A word has twice as many extensions as one with a bit more. -/
theorem two_pow_sub {m n : Nat} (h : m < n) : 2 ^ (n - m) = 2 * 2 ^ (n - (m + 1)) := by
  rw [← Nat.pow_succ']
  congr 1
  omega

/-- Lengths are counted as they occur, save for zero. -/
theorem codeCount_eq_count {lengths : List Nat} {n : Nat} (h : n ≠ 0) :
    codeCount lengths n = lengths.count n := if_neg h

/-- Words of `k` more bits begin behind all the extensions of the words of `n` bits. -/
theorem firstCode_add_le (lengths : List Nat) (n k : Nat) :
    2 ^ (k + 1) * (firstCode lengths n + codeCount lengths n) ≤
      firstCode lengths (n + (k + 1)) := by
  induction k with
  | zero => exact Nat.le_refl _
  | succ k ih =>
    have hstep : firstCode lengths (n + (k + 1 + 1)) =
      2 * (firstCode lengths (n + (k + 1)) + codeCount lengths (n + (k + 1))) := rfl
    rw [hstep, Nat.pow_succ, Nat.mul_comm _ 2, Nat.mul_assoc]
    omega

/-- The share of a word that the format allows. -/
theorem kraftShare_eq {n : Nat} (h : n ≤ maxCodeLength) :
    CodeTable.kraftShare n = if n = 0 then 0 else 2 ^ (maxCodeLength - n) := by
  unfold CodeTable.kraftShare
  rw [Nat.one_shiftLeft]
  split <;> split <;> omega

/-- What the words of given lengths take, counted in longest words. -/
theorem total_kraftShare_eq {lengths : List Nat} (h : ∀ n ∈ lengths, n ≤ maxCodeLength) :
    total CodeTable.kraftShare lengths =
      total (fun n => 2 ^ (maxCodeLength - n)) (lengths.filter (0 < ·)) := by
  have hzero : ∀ n ∈ lengths, ¬decide (0 < n) → CodeTable.kraftShare n = 0 := by
    intro n hn hpos
    rw [kraftShare_eq (h n hn), if_pos (by simpa using hpos)]
  rw [← total_filter hzero]
  refine total_congr fun n hn => ?_
  obtain ⟨hmem, hpos⟩ := List.mem_filter.1 hn
  rw [kraftShare_eq (h n hmem), if_neg (Nat.ne_of_gt (of_decide_eq_true hpos))]

/-- Words of one more bit add a share each to those of up to `n` bits. -/
theorem total_kraftShare_succ (lengths : List Nat) {n : Nat} (h : n + 1 ≤ maxCodeLength) :
    total (fun m => if m ≤ n + 1 then CodeTable.kraftShare m else 0) lengths =
      total (fun m => if m ≤ n then CodeTable.kraftShare m else 0) lengths +
        lengths.count (n + 1) * 2 ^ (maxCodeLength - (n + 1)) := by
  induction lengths with
  | nil => rw [total_nil, total_nil, List.count_nil, Nat.zero_mul]
  | cons m lengths ih =>
    rw [total_cons, total_cons, ih]
    by_cases hm : m = n + 1
    · subst hm
      rw [List.count_cons_self, Nat.add_mul, Nat.one_mul, if_pos (Nat.le_refl _),
        if_neg (by omega), kraftShare_eq h, if_neg (Nat.succ_ne_zero n)]
      omega
    · rw [List.count_cons_of_ne hm]
      by_cases hle : m ≤ n
      · rw [if_pos hle, if_pos (by omega)]
        omega
      · rw [if_neg hle, if_neg (by omega)]
        omega

/-- The shares of the words of up to `n` bits, added up. -/
theorem total_kraftShare (lengths : List Nat) {n : Nat} (h : n ≤ maxCodeLength) :
    total (fun m => if m ≤ n then CodeTable.kraftShare m else 0) lengths =
      (firstCode lengths n + codeCount lengths n) * 2 ^ (maxCodeLength - n) := by
  induction n with
  | zero =>
    rw [firstCode, codeCount, if_pos rfl, Nat.zero_mul]
    induction lengths with
    | nil => rfl
    | cons m lengths ih =>
      rw [total_cons, ih]
      cases m with
      | zero => rfl
      | succ m => rfl
  | succ n ih =>
    rw [total_kraftShare_succ lengths h, ih (by omega), two_pow_sub h, firstCode,
      codeCount_eq_count (Nat.succ_ne_zero n), ← Nat.mul_assoc, Nat.mul_comm _ 2, ← Nat.add_mul]

/-! ## Dealing out words -/

namespace CodeTable

/-- The first words of further lengths come behind those that are there, by induction on how many
are still to come. -/
theorem firstCodes_go (lengths : List Nat) (k : Nat) {n : Nat} {acc : Array Nat}
    (hsize : acc.size = n) (hacc : ∀ i < n, acc[i]? = some (firstCode lengths i)) :
    (firstCodes.go lengths k n (firstCode lengths n) acc).1.size = n + k + 1 ∧
      ∀ i < n + k + 1, (firstCodes.go lengths k n (firstCode lengths n) acc).1[i]? =
        some (firstCode lengths i) := by
  have hpush : ∀ i < n + 1, (acc.push (firstCode lengths n))[i]? = some (firstCode lengths i) := by
    intro i hi
    rw [Array.getElem?_push, hsize]
    split
    · next h => rw [h]
    · exact hacc i (by omega)
  have hpsize : (acc.push (firstCode lengths n)).size = n + 1 := by rw [Array.size_push, hsize]
  induction k generalizing n acc with
  | zero => exact ⟨hpsize, hpush⟩
  | succ k ih =>
    rw [firstCodes.go, show n + (k + 1) + 1 = n + 1 + k + 1 by omega]
    refine ih hpsize hpush ?_ (by rw [Array.size_push, hpsize])
    intro i hi
    rw [Array.getElem?_push, hpsize]
    split
    · next h => rw [h]
    · exact hpush i (by omega)

/-- There is a first word for each length up to the greatest, and one for zero. -/
theorem size_firstCodes (lengths : List Nat) (most : Nat) :
    (firstCodes lengths most).size = most + 1 := by
  have h := (@firstCodes_go lengths most 0 #[] rfl (by simp)).1
  rw [Nat.zero_add] at h
  exact h

/-- The first word of each length is found at that length. -/
theorem getD_firstCodes (lengths : List Nat) {n most : Nat} (h : n ≤ most) :
    (firstCodes lengths most).getD n 0 = firstCode lengths n := by
  have hget := (@firstCodes_go lengths most 0 #[] rfl (by simp)).2 n (by omega)
  rw [Array.getD_eq_getD_getElem?]
  exact congrArg (·.getD 0) hget

/-- Words are given to the lengths in their order. -/
theorem map_length_assign (lengths : List Nat) (next : Array Nat) :
    (assign lengths next).map (·.length) = lengths := by
  induction lengths generalizing next with
  | nil => rfl
  | cons m lengths ih =>
    rw [assign]
    split
    · next h => rw [List.map_cons, ih, h]; rfl
    · rw [List.map_cons, ih]

/-- No word is given to a symbol without a length. -/
theorem getElem?_assign_zero {lengths : List Nat} {s : Nat} (next : Array Nat)
    (hs : lengths[s]? = some 0) : (assign lengths next)[s]? = some CodeWord.absent := by
  induction lengths generalizing next s with
  | nil => simp at hs
  | cons m lengths ih =>
    cases s with
    | zero =>
      rw [List.getElem?_cons_zero, Option.some.injEq] at hs
      rw [assign, if_pos hs, List.getElem?_cons_zero]
    | succ s =>
      rw [List.getElem?_cons_succ] at hs
      rw [assign]
      split <;> exact ih _ hs

/-- A symbol gets the next word of its length as soon as those before it have theirs. -/
theorem getElem?_assign {lengths : List Nat} {s n : Nat} {next : Array Nat}
    (hs : lengths[s]? = some n) (hn : n ≠ 0) (hnext : n < next.size) :
    (assign lengths next)[s]? =
      some ⟨n, (next.getD n 0 + (lengths.take s).count n) % 65536⟩ := by
  induction lengths generalizing next s with
  | nil => simp at hs
  | cons m lengths ih =>
    cases s with
    | zero =>
      rw [List.getElem?_cons_zero, Option.some.injEq] at hs
      rw [assign, hs, if_neg hn, List.getElem?_cons_zero]
      rfl
    | succ s =>
      rw [List.getElem?_cons_succ] at hs
      rw [assign, List.take_succ_cons]
      by_cases hm : m = 0
      · rw [if_pos hm, List.getElem?_cons_succ, ih hs hnext, List.count_cons_of_ne (by omega)]
      · rw [if_neg hm, List.getElem?_cons_succ, ih hs (by rw [Array.size_modify]; exact hnext)]
        have hget : (next.modify m (· + 1)).getD n 0 = next.getD n 0 + if m = n then 1 else 0 := by
          rw [Array.getD_eq_getD_getElem?, Array.getD_eq_getD_getElem?, Array.getElem?_modify,
            Array.getElem?_eq_getElem hnext]
          split <;> rfl
        rw [hget, List.count_cons, Nat.add_assoc, Nat.add_comm (List.count _ _)]
        simp only [beq_iff_eq]

/-- A length lies below the greatest one. -/
theorem le_foldl_max {l : List Nat} {n : Nat} (m : Nat) (h : n ∈ l ∨ n ≤ m) :
    n ≤ l.foldl max m := by
  induction l generalizing m with
  | nil => exact h.resolve_left (by simp)
  | cons a l ih =>
    refine ih (max m a) ?_
    rcases h with h | h
    · rcases List.mem_cons.1 h with rfl | h
      · exact .inr (Nat.le_max_right _ _)
      · exact .inl h
    · exact .inr (Nat.le_trans h (Nat.le_max_left _ _))

/-- The greatest of some numbers is at most what bounds all of them. -/
theorem foldl_max_le {l : List Nat} {m : Nat} (h : ∀ n ∈ l, n ≤ m) : l.foldl max 0 ≤ m := by
  have key : ∀ k ≤ m, l.foldl max k ≤ m := by
    induction l with
    | nil => intro k hk; exact hk
    | cons a l ih =>
      intro k hk
      exact ih (fun n hn => h n (List.mem_cons_of_mem _ hn)) _
        (Nat.max_le.2 ⟨hk, h a List.mem_cons_self⟩)
  exact key 0 (Nat.zero_le m)

@[simp] theorem lengths_ofLengths (lengths : List Nat) : (ofLengths lengths).lengths = lengths := by
  rw [CodeTable.lengths, ofLengths, List.toList_toArray, map_length_assign]

/-- A symbol's word is the first one of its length and as many further as symbols before it have
that length. -/
theorem getElem?_words_ofLengths {lengths : List Nat} {s n : Nat} (hs : lengths[s]? = some n)
    (hn : n ≠ 0) : (ofLengths lengths).words[s]? =
      some ⟨n, (firstCode lengths n + (lengths.take s).count n) % 65536⟩ := by
  have hle : n ≤ lengths.foldl max 0 := le_foldl_max 0 (.inl (List.mem_of_getElem? hs))
  rw [ofLengths, List.getElem?_toArray,
    getElem?_assign hs hn (by rw [size_firstCodes]; omega), getD_firstCodes lengths hle]

/-- A table is its words. -/
theorem eq_of_words {t u : CodeTable} (h : t.words = u.words) : t = u := by
  cases t
  cases u
  exact congrArg mk h

/-- The word of a symbol within the table is the one stored for it. -/
theorem word_of_getElem? {t : CodeTable} {s : Nat} {w : CodeWord} (h : t.words[s]? = some w) :
    t.word s = w := by
  rw [word, Array.getD_eq_getD_getElem?, h]
  rfl

/-- The lengths of a table are those of its words. -/
theorem getElem?_lengths (t : CodeTable) (s : Nat) :
    t.lengths[s]? = t.words[s]?.map (·.length) := by
  rw [CodeTable.lengths, List.getElem?_map, Array.getElem?_toList]

@[simp] theorem length_lengths (t : CodeTable) : t.lengths.length = t.size := by
  rw [CodeTable.lengths, List.length_map, Array.length_toList, size]

/-- The code length of a symbol is the entry in the list of code lengths. -/
theorem lengthOf_eq (t : CodeTable) (s : Nat) : t.lengthOf s = t.lengths[s]?.getD 0 := by
  rw [lengthOf, word, Array.getD_eq_getD_getElem?, getElem?_lengths]
  cases t.words[s]? <;> rfl

/-- No symbol has a longer word than the longest length, in the table or not. -/
theorem lengthOf_le_of_lengths {t : CodeTable} {n : Nat} (h : ∀ m ∈ t.lengths, m ≤ n) (s : Nat) :
    t.lengthOf s ≤ n := by
  rw [lengthOf_eq]
  cases hs : t.lengths[s]? with
  | none => exact Nat.zero_le n
  | some m => exact h m (List.mem_of_getElem? hs)

/-- A symbol with a word is within the table. -/
theorem getElem?_lengths_of_pos {t : CodeTable} {s : Nat} (h : 0 < t.lengthOf s) :
    t.lengths[s]? = some (t.lengthOf s) := by
  rw [lengthOf_eq] at h ⊢
  cases hs : t.lengths[s]? with
  | none => rw [hs] at h; exact absurd h (Nat.lt_irrefl 0)
  | some n => rfl

/-- A symbol with a code belongs to the alphabet. -/
theorem lt_size_of_pos {t : CodeTable} {s : Nat} (h : 0 < t.lengthOf s) : s < t.size := by
  have hs := getElem?_lengths_of_pos h
  rw [← length_lengths]
  exact (List.getElem?_eq_some_iff.1 hs).1

/-- The length of the longest word is the greatest of the lengths. -/
theorem maxLength_eq (t : CodeTable) : t.maxLength = t.lengths.foldl max 0 := by
  rw [maxLength, ← Array.foldl_toList, CodeTable.lengths, List.foldl_map]

/-- No length is greater than that of the longest word. -/
theorem le_maxLength {t : CodeTable} {n : Nat} (h : n ∈ t.lengths) : n ≤ t.maxLength := by
  rw [maxLength_eq]
  exact le_foldl_max 0 (.inl h)

/-! ## Canonical tables -/

/-- The code lengths of a table are acceptable, and its words are those that they determine. -/
structure Canonical (t : CodeTable) : Prop where
  valid : t.isValid = true
  words_eq : ofLengths t.lengths = t

/-- Code lengths whose words fit beside each other determine a canonical table. -/
theorem canonical_ofLengths {lengths : List Nat} (hmost : ∀ n ∈ lengths, n ≤ maxCodeLength)
    (hshare : total kraftShare lengths ≤ 1 <<< maxCodeLength) :
    (ofLengths lengths).Canonical where
  valid := by
    rw [isValid, maxLength_eq, kraftSum, lengths_ofLengths, Bool.and_eq_true, decide_eq_true_eq,
      decide_eq_true_eq]
    exact ⟨foldl_max_le hmost, hshare⟩
  words_eq := by rw [lengths_ofLengths]

/-- A table made of lengths that were accepted is canonical and has these lengths. -/
theorem canonical_of_ofLengths? {lengths : List Nat} {t : CodeTable}
    (h : ofLengths? lengths = .ok t) : t.Canonical ∧ t.lengths = lengths := by
  unfold ofLengths? at h
  dsimp only at h
  split at h
  · next hv =>
    cases h
    exact ⟨⟨hv, by rw [lengths_ofLengths]⟩, lengths_ofLengths lengths⟩
  · cases h

namespace Canonical

variable {t : CodeTable}

/-- A canonical table is what its code lengths are read as. -/
theorem ofLengths?_eq (h : t.Canonical) : ofLengths? t.lengths = .ok t := by
  unfold ofLengths?
  dsimp only
  rw [h.words_eq, if_pos h.valid]

/-- No word of a canonical table is too long for the format. -/
theorem maxLength_le (h : t.Canonical) : t.maxLength ≤ maxCodeLength := by
  have hv := h.valid
  rw [isValid, Bool.and_eq_true, decide_eq_true_eq] at hv
  exact hv.1

/-- The words of a canonical table have room. -/
theorem kraftSum_le (h : t.Canonical) : t.kraftSum ≤ 1 <<< maxCodeLength := by
  have hv := h.valid
  rw [isValid, Bool.and_eq_true, decide_eq_true_eq, decide_eq_true_eq] at hv
  exact hv.2

/-- No length of a canonical table is too long for the format. -/
theorem le_of_mem (h : t.Canonical) : ∀ n ∈ t.lengths, n ≤ maxCodeLength :=
  fun _ hn => Nat.le_trans (le_maxLength hn) h.maxLength_le

/-- No symbol of a canonical table has too long a word for the format. -/
theorem lengthOf_le (h : t.Canonical) (s : Nat) : t.lengthOf s ≤ maxCodeLength :=
  lengthOf_le_of_lengths h.le_of_mem s

/-- The words of `n` bits and those before them take no more than the space of `n` bits. -/
theorem firstCode_add_codeCount_le (h : t.Canonical) {n : Nat} (hn : n ≤ maxCodeLength) :
    firstCode t.lengths n + codeCount t.lengths n ≤ 2 ^ n := by
  have hsum := h.kraftSum_le
  rw [Nat.one_shiftLeft, kraftSum] at hsum
  have hle : total (fun m => if m ≤ n then kraftShare m else 0) t.lengths ≤
      total kraftShare t.lengths := by
    refine total_mono fun m _ => ?_
    split
    · exact Nat.le_refl _
    · exact Nat.zero_le _
  have hpow : 2 ^ n * 2 ^ (maxCodeLength - n) = 2 ^ maxCodeLength := by
    rw [← Nat.pow_add]
    congr 1
    omega
  refine Nat.le_of_mul_le_mul_right ?_ (Nat.two_pow_pos (maxCodeLength - n))
  rw [← total_kraftShare t.lengths hn, hpow]
  exact Nat.le_trans hle hsum

/-- A symbol's word is as many words behind the first of its length as there are symbols of its
length before it. -/
theorem word_eq (h : t.Canonical) {s : Nat} (hs : 0 < t.lengthOf s) :
    t.word s = ⟨t.lengthOf s,
      firstCode t.lengths (t.lengthOf s) + (t.lengths.take s).count (t.lengthOf s)⟩ ∧
    (t.lengths.take s).count (t.lengthOf s) < codeCount t.lengths (t.lengthOf s) := by
  have hget := getElem?_lengths_of_pos hs
  have hword := getElem?_words_ofLengths hget (Nat.pos_iff_ne_zero.1 hs)
  rw [h.words_eq] at hword
  have hcount : (t.lengths.take s).count (t.lengthOf s) < codeCount t.lengths (t.lengthOf s) := by
    obtain ⟨hlt, heq⟩ := List.getElem?_eq_some_iff.1 hget
    rw [codeCount_eq_count (Nat.pos_iff_ne_zero.1 hs)]
    conv => rhs; rw [← List.take_append_drop s t.lengths, List.drop_eq_getElem_cons hlt, heq]
    rw [List.count_append, List.count_cons_self]
    omega
  have hfit := h.firstCode_add_codeCount_le (h.lengthOf_le s)
  have hpow : 2 ^ t.lengthOf s ≤ 2 ^ maxCodeLength :=
    Nat.pow_le_pow_right (by decide) (h.lengthOf_le s)
  have hmax : 2 ^ maxCodeLength < 65536 := by decide
  refine ⟨?_, hcount⟩
  rw [word_of_getElem? hword, Nat.mod_eq_of_lt (by omega)]

/-- The number of a word has no more bits than the word. -/
theorem code_lt (h : t.Canonical) {s : Nat} (hs : 0 < t.lengthOf s) :
    (t.word s).code < 2 ^ t.lengthOf s := by
  obtain ⟨hword, hcount⟩ := h.word_eq hs
  have hfit := h.firstCode_add_codeCount_le (h.lengthOf_le s)
  rw [hword]
  dsimp only
  omega

end Canonical

/-- The fixed literal/length table has the fixed lengths. -/
theorem lengths_fixedLitlen : fixedLitlen.lengths = fixedLitlenLengths := lengths_ofLengths _

/-- The fixed distance table has the fixed lengths. -/
theorem lengths_fixedDist : fixedDist.lengths = fixedDistLengths := lengths_ofLengths _

/-- The fixed literal/length table has 288 symbols, two of which are never used. -/
theorem size_fixedLitlen : fixedLitlen.size = 288 := by
  rw [← length_lengths, lengths_fixedLitlen, fixedLitlenLengths]
  simp only [List.length_append, List.length_replicate]

/-- The fixed distance table has 32 symbols, two of which are never used. -/
theorem size_fixedDist : fixedDist.size = 32 := by
  rw [← length_lengths, lengths_fixedDist, fixedDistLengths, List.length_replicate]

/-- The fixed literal/length table is canonical. -/
theorem canonical_fixedLitlen : fixedLitlen.Canonical :=
  canonical_ofLengths (by decide +kernel) (by decide +kernel)

/-- The fixed distance table is canonical. -/
theorem canonical_fixedDist : fixedDist.Canonical :=
  canonical_ofLengths (by decide +kernel) (by decide +kernel)

end CodeTable

/-! ## Writing a word -/

/-- The bits of a word, the first of them most significant. -/
def CodeWord.bits (w : CodeWord) : List Bool := (bitsOf w.length w.code).reverse

@[simp] theorem CodeWord.length_bits (w : CodeWord) : w.bits.length = w.length := by
  rw [CodeWord.bits, List.length_reverse, length_bitsOf]

/-- Writing a symbol puts the bits of its word. -/
theorem BitWriter.puts_writeSymbol {t : CodeTable} {s : Nat} {w : BitWriter} (h : w.Valid)
    (hs : 0 < t.lengthOf s) :
    ∃ w', w.writeSymbol t s = .ok w' ∧ w.Puts w' (t.word s).bits := by
  refine ⟨_, ?_, puts_writeReversed (t.word s).length (t.word s).code h⟩
  exact if_neg (Nat.pos_iff_ne_zero.1 hs)

end DeflateRecoder
