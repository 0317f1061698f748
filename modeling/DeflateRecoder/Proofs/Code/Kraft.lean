import DeflateRecoder.Proofs.Code.Decoder
import Mathlib.InformationTheory.Coding.KraftMcMillan

/-!
# The space that code words take

A word of `n` bits takes the share `(1 / 2) ^ n` of the space of all words, and words of which none
begins another one take separate shares. `codeSpace` adds the shares up. A table is a prefix code
for some symbols (`CodeTable.PrefixCode`) when it has such words for them, and the words take no
more than the whole space then (`CodeTable.PrefixCode.codeSpace_le_one`). Canonical tables are
prefix codes for all symbols that they have words for (`CodeTable.Canonical.prefixCode`), and code
lengths whose words do not take too much have one (`CodeTable.exists_ofLengths?_iff`).
-/

namespace DeflateRecoder

/-! ## Shares -/

/-- The share of the space of words that words of the given lengths take. -/
def codeSpace (lengths : List Nat) : ℚ := (lengths.map fun n => (1 / 2 : ℚ) ^ n).sum

@[simp] theorem codeSpace_nil : codeSpace [] = 0 := rfl

@[simp] theorem codeSpace_cons (n : Nat) (lengths : List Nat) :
    codeSpace (n :: lengths) = (1 / 2) ^ n + codeSpace lengths := List.sum_cons

/-- The space of a code does not depend on the order of its lengths. -/
theorem codeSpace_perm {k l : List Nat} (h : k.Perm l) : codeSpace k = codeSpace l :=
  (h.map _).sum_eq

/-- No code takes less than no space. -/
theorem codeSpace_nonneg (lengths : List Nat) : 0 ≤ codeSpace lengths := by
  refine List.sum_nonneg fun q hq => ?_
  obtain ⟨n, -, rfl⟩ := List.mem_map.1 hq
  positivity

/-- The space that words take, counted in words of `m` bits. -/
theorem codeSpace_mul_two_pow {m : Nat} {lengths : List Nat} (h : ∀ n ∈ lengths, n ≤ m) :
    codeSpace lengths * 2 ^ m = (total (fun n => 2 ^ (m - n)) lengths : Nat) := by
  induction lengths with
  | nil => simp
  | cons n lengths ih =>
    obtain ⟨hn, hlengths⟩ := List.forall_mem_cons.1 h
    have hshare : (1 / 2 : ℚ) ^ n * 2 ^ m = 2 ^ (m - n) := by
      rw [one_div, inv_pow, pow_sub₀ _ two_ne_zero hn, mul_comm]
    rw [codeSpace_cons, add_mul, ih hlengths, hshare, total_cons]
    push_cast
    rfl

/-- A code takes all space just when the words of its greatest length that its words begin are all
there are. -/
theorem codeSpace_eq_one_iff {m : Nat} {lengths : List Nat} (h : ∀ n ∈ lengths, n ≤ m) :
    codeSpace lengths = 1 ↔ total (fun n => 2 ^ (m - n)) lengths = 2 ^ m := by
  have hpos : (2 : ℚ) ^ m ≠ 0 := by positivity
  rw [← mul_left_inj' hpos, codeSpace_mul_two_pow h, one_mul]
  norm_cast

/-- A code has room just when the words of its greatest length that its words begin are no more than
there are. -/
theorem codeSpace_le_one_iff {m : Nat} {lengths : List Nat} (h : ∀ n ∈ lengths, n ≤ m) :
    codeSpace lengths ≤ 1 ↔ total (fun n => 2 ^ (m - n)) lengths ≤ 2 ^ m := by
  have hpos : (0 : ℚ) < 2 ^ m := by positivity
  rw [← mul_le_mul_iff_left₀ hpos, codeSpace_mul_two_pow h, one_mul]
  norm_cast

/-- Words that leave some room leave enough for a word as long as the longest of them. -/
theorem codeSpace_cons_le_one {m : Nat} {lengths : List Nat} (h : ∀ n ∈ lengths, n ≤ m)
    (hroom : codeSpace lengths < 1) : codeSpace (m :: lengths) ≤ 1 := by
  have hle : total (fun n => 2 ^ (m - n)) lengths ≤ 2 ^ m := (codeSpace_le_one_iff h).1 hroom.le
  have hne := mt (codeSpace_eq_one_iff h).2 hroom.ne
  rw [codeSpace_le_one_iff (List.forall_mem_cons.2 ⟨Nat.le_refl m, h⟩), total_cons, Nat.sub_self,
    Nat.pow_zero]
  omega

/-! ## Prefix codes -/

namespace CodeTable

/-- Each of the symbols has a word, and no word begins that of another one. -/
structure PrefixCode (t : CodeTable) (symbols : List Nat) : Prop where
  coded : ∀ s ∈ symbols, 0 < t.lengthOf s
  eq_of_prefix : ∀ s ∈ symbols, ∀ s' ∈ symbols, (t.word s).bits <+: (t.word s').bits → s = s'

variable {t : CodeTable} {symbols : List Nat}

/-- Fewer words make a prefix code too. -/
theorem PrefixCode.mono (h : t.PrefixCode symbols) {fewer : List Nat}
    (hsub : ∀ s ∈ fewer, s ∈ symbols) : t.PrefixCode fewer :=
  ⟨fun s hs => h.coded s (hsub s hs),
    fun s hs s' hs' => h.eq_of_prefix s (hsub s hs) s' (hsub s' hs')⟩

/-- A word has as many bits as the length of its symbol. -/
theorem length_bits_word (t : CodeTable) (s : Nat) : (t.word s).bits.length = t.lengthOf s :=
  CodeWord.length_bits _

/-- No word of a prefix code is empty. -/
theorem PrefixCode.bits_ne_nil (h : t.PrefixCode symbols) {s : Nat} (hs : s ∈ symbols) :
    (t.word s).bits ≠ [] := by
  refine List.ne_nil_of_length_pos ?_
  rw [length_bits_word]
  exact h.coded s hs

/-- Bits begin with no more than one word. -/
theorem PrefixCode.eq_of_begins (h : t.PrefixCode symbols) {s s' : Nat} (hs : s ∈ symbols)
    (hs' : s' ∈ symbols) {u : List Bool} (hu : (t.word s).bits <+: u)
    (hu' : (t.word s').bits <+: u) : s = s' := by
  rcases List.prefix_or_prefix_of_prefix hu hu' with hp | hp
  · exact h.eq_of_prefix s hs s' hs' hp
  · exact (h.eq_of_prefix s' hs' s hs hp).symm

/-- Words of a prefix code, one behind the other, can be told apart. -/
theorem PrefixCode.uniquelyDecodable (h : t.PrefixCode symbols) :
    InformationTheory.UniquelyDecodable {u | ∃ s ∈ symbols, u = (t.word s).bits} := by
  intro k l hk hl heq
  induction k generalizing l with
  | nil =>
    cases l with
    | nil => rfl
    | cons v l =>
      obtain ⟨s, hs, rfl⟩ := hl v List.mem_cons_self
      exact absurd (List.append_eq_nil_iff.1 heq.symm).1 (h.bits_ne_nil hs)
  | cons u k ih =>
    obtain ⟨s, hs, rfl⟩ := hk u List.mem_cons_self
    cases l with
    | nil => exact absurd (List.append_eq_nil_iff.1 heq).1 (h.bits_ne_nil hs)
    | cons v l =>
      obtain ⟨s', hs', rfl⟩ := hl v List.mem_cons_self
      rw [List.flatten_cons, List.flatten_cons] at heq
      obtain rfl := h.eq_of_begins hs hs' ⟨_, heq⟩ (List.prefix_append _ _)
      rw [ih l (fun w hw => hk w (List.mem_cons_of_mem _ hw))
        (fun w hw => hl w (List.mem_cons_of_mem _ hw)) (List.append_cancel_left heq)]

/-- The words of a prefix code take no more than there is. -/
theorem PrefixCode.codeSpace_le_one (h : t.PrefixCode symbols) (hnodup : symbols.Nodup) :
    codeSpace (symbols.map t.lengthOf) ≤ 1 := by
  classical
  have hwords : (symbols.map fun s => (t.word s).bits).Nodup := by
    refine (List.nodup_map_iff_inj_on hnodup).2 fun s hs s' hs' heq => ?_
    exact h.eq_of_prefix s hs s' hs' (heq ▸ List.prefix_refl _)
  have hdecodable : InformationTheory.UniquelyDecodable
      (((symbols.map fun s => (t.word s).bits).toFinset : Finset (List Bool)) :
        Set (List Bool)) := by
    refine fun k l hk hl => h.uniquelyDecodable k l (fun u hu => ?_) fun u hu => ?_
    · simpa [eq_comm] using hk u hu
    · simpa [eq_comm] using hl u hu
  have hkraft := InformationTheory.kraft_mcmillan_inequality hdecodable
  rw [List.sum_toFinset _ hwords, List.map_map, Fintype.card_bool] at hkraft
  have hcast : ((codeSpace (symbols.map t.lengthOf) : ℚ) : ℝ) =
      (symbols.map ((fun w : List Bool => (1 / ((2 : Nat) : ℝ)) ^ w.length) ∘
        fun s => (t.word s).bits)).sum := by
    rw [codeSpace, List.map_map]
    push_cast
    simp [Function.comp_def, lengthOf]
  rw [← hcast] at hkraft
  exact_mod_cast hkraft

/-- Code lengths are accepted just when the format allows them and their words fit beside each
other. -/
theorem exists_ofLengths?_iff {lengths : List Nat} : (∃ t, ofLengths? lengths = .ok t) ↔
    (∀ n ∈ lengths, n ≤ maxCodeLength) ∧ codeSpace (lengths.filter (0 < ·)) ≤ 1 := by
  have hshare (hmost : ∀ n ∈ lengths, n ≤ maxCodeLength) :
      codeSpace (lengths.filter (0 < ·)) ≤ 1 ↔ total kraftShare lengths ≤ 1 <<< maxCodeLength := by
    rw [total_kraftShare_eq hmost, Nat.one_shiftLeft]
    exact codeSpace_le_one_iff fun n hn => hmost n (List.mem_filter.1 hn).1
  constructor
  · rintro ⟨t, ht⟩
    obtain ⟨hcanonical, rfl⟩ := canonical_of_ofLengths? ht
    exact ⟨hcanonical.le_of_mem, (hshare hcanonical.le_of_mem).2 hcanonical.kraftSum_le⟩
  · intro ⟨hmost, hspace⟩
    have hcanonical := canonical_ofLengths hmost ((hshare hmost).1 hspace)
    have ht := hcanonical.ofLengths?_eq
    rw [lengths_ofLengths] at ht
    exact ⟨_, ht⟩

/-- Among the symbols with words of one length, a place belongs to one. -/
theorem eq_of_count_take {lengths : List Nat} {n s s' : Nat} (hs : lengths[s]? = some n)
    (hs' : lengths[s']? = some n)
    (hplace : (lengths.take s).count n = (lengths.take s').count n) : s = s' := by
  have h := Decoder.getElem?_placesOfLength.2 ⟨s, (Nat.zero_add s).symm, hs, rfl⟩
  have h' := Decoder.getElem?_placesOfLength.2 ⟨s', (Nat.zero_add s').symm, hs', rfl⟩
  rw [hplace] at h
  exact Option.some.inj (h.symm.trans h')

/-- The bits of a canonical word spell its number. -/
theorem Canonical.valueOf_bits (h : t.Canonical) {s : Nat} (hs : 0 < t.lengthOf s) :
    valueOf (t.word s).bits.reverse =
      firstCode t.lengths (t.lengthOf s) + (t.lengths.take s).count (t.lengthOf s) := by
  have hcode := h.code_lt hs
  have hword := (h.word_eq hs).1
  rw [lengthOf] at hcode
  rw [CodeWord.bits, List.reverse_reverse, valueOf_bitsOf, Nat.mod_eq_of_lt hcode, hword]

/-- Canonical words of different lengths lie behind each other, so no word begins another. -/
theorem Canonical.prefixCode (h : t.Canonical) (hcoded : ∀ s ∈ symbols, 0 < t.lengthOf s) :
    t.PrefixCode symbols := by
  refine ⟨hcoded, ?_⟩
  rintro s hs s' hs' ⟨tail, htail⟩
  have hwidth := congrArg List.length htail
  rw [List.length_append, length_bits_word, length_bits_word] at hwidth
  have hvalue := h.valueOf_bits (hcoded s' hs')
  rw [← htail, List.reverse_append, valueOf_append, h.valueOf_bits (hcoded s hs),
    List.length_reverse, ← hwidth] at hvalue
  cases tail with
  | nil =>
    have hget := getElem?_lengths_of_pos (hcoded s hs)
    have hget' := getElem?_lengths_of_pos (hcoded s' hs')
    rw [← hwidth] at hget'
    simp only [List.reverse_nil, valueOf_nil, List.length_nil, Nat.pow_zero, Nat.one_mul,
      Nat.zero_add, Nat.add_zero, Nat.add_left_cancel_iff] at hvalue
    exact eq_of_count_take hget hget' hvalue
  | cons b tail =>
    -- The longer word would have to lie before the end of the shorter ones.
    have hplace := (h.word_eq (hcoded s hs)).2
    have hfirst := firstCode_add_le t.lengths (t.lengthOf s) tail.length
    have htail := valueOf_lt (b :: tail).reverse
    have hmul := Nat.mul_le_mul_left (2 ^ (tail.length + 1))
      (Nat.add_lt_add_left hplace (firstCode t.lengths (t.lengthOf s)))
    rw [List.length_reverse, List.length_cons] at htail
    rw [List.length_cons] at hvalue
    rw [Nat.succ_eq_add_one, Nat.mul_succ] at hmul
    omega

end CodeTable

end DeflateRecoder
