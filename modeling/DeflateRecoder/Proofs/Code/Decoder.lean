import DeflateRecoder.Code.Decoder
import DeflateRecoder.Proofs.Bits.Language
import DeflateRecoder.Proofs.Code.Canonical

/-!
# Reading undoes writing for symbols

`Decoder.read_recognises` says that the decoder of a canonical table reads exactly the words of the
table's symbols. Bit by bit the decoder compares what it has read with the words of one length;
what has not matched so far lies behind all words of that length (`readFrom_recognises`), so the
first match is the word that was written.
-/

namespace DeflateRecoder

namespace Decoder

/-- The place that holds a length for the `i`-th time. -/
theorem getElem?_placesOfLength {n i p : Nat} {lengths : List Nat} {start : Nat} :
    (placesOfLength n lengths start)[i]? = some p ↔
      ∃ s, p = start + s ∧ lengths[s]? = some n ∧ (lengths.take s).count n = i := by
  induction lengths generalizing i start with
  | nil => simp [placesOfLength]
  | cons m lengths ih =>
    -- Behind the first length each place is one further on, and that length may count.
    have shift : ∀ i, (∃ s, p = start + 1 + s ∧ lengths[s]? = some n ∧
        (lengths.take s).count n = i) ↔ ∃ s, p = start + (s + 1) ∧
          (m :: lengths)[s + 1]? = some n ∧
          ((m :: lengths).take (s + 1)).count n = i + if m = n then 1 else 0 := by
      intro i
      refine exists_congr fun s => ?_
      rw [List.getElem?_cons_succ, List.take_succ_cons, List.count_cons, Nat.add_assoc start,
        Nat.add_comm 1 s]
      simp only [beq_iff_eq, Nat.add_right_cancel_iff]
    unfold placesOfLength
    by_cases hm : m = n
    · subst hm
      rw [if_pos rfl]
      cases i with
      | zero =>
        rw [List.getElem?_cons_zero, Option.some.injEq]
        constructor
        · rintro rfl
          exact ⟨0, rfl, rfl, rfl⟩
        · rintro ⟨s, rfl, hs, hc⟩
          cases s with
          | zero => rfl
          | succ s => rw [List.take_succ_cons, List.count_cons_self] at hc; omega
      | succ i =>
        rw [List.getElem?_cons_succ, ih, shift, if_pos rfl]
        constructor
        · rintro ⟨s, h⟩
          exact ⟨s + 1, h⟩
        · rintro ⟨s, rfl, hs, hc⟩
          cases s with
          | zero => simp at hc
          | succ s => exact ⟨s, rfl, hs, hc⟩
    · rw [if_neg hm, ih, shift, if_neg hm]
      constructor
      · rintro ⟨s, h⟩
        exact ⟨s + 1, h⟩
      · rintro ⟨s, rfl, hs, hc⟩
        cases s with
        | zero => exact absurd (Option.some.inj hs) hm
        | succ s => exact ⟨s, rfl, hs, hc⟩

/-! ## Rows -/

/-- The rows for words of `k + 1` to `k + m` bits. -/
def rowsFrom (lengths : List Nat) (k m : Nat) : List Row :=
  (List.range m).map fun n => ⟨firstCode lengths (k + n + 1), symbolsOfLength lengths (k + n + 1)⟩

/-- The first of the rows is that of the next length. -/
theorem rowsFrom_succ (lengths : List Nat) (k m : Nat) :
    rowsFrom lengths k (m + 1) =
      ⟨firstCode lengths (k + 1), symbolsOfLength lengths (k + 1)⟩ ::
        rowsFrom lengths (k + 1) m := by
  rw [rowsFrom, List.range_succ_eq_map, List.map_cons, List.map_map, rowsFrom]
  congr 2
  funext n
  rw [Function.comp_apply, show k + 1 + n + 1 = k + n.succ + 1 by omega]

/-- The bits `u` go on from the word `code` to a word of `width` bits for the symbol. -/
def Continues (lengths : List Nat) (code width symbol : Nat) (u : List Bool) : Prop :=
  lengths[symbol]? = some width ∧
    code * 2 ^ u.length + valueOf u.reverse =
      firstCode lengths width + (lengths.take symbol).count width

/-- A bit taken from what goes on belongs to the word begun. -/
theorem continues_cons {lengths : List Nat} {code width symbol : Nat} {b : Bool} {u : List Bool} :
    Continues lengths code width symbol (b :: u) ↔
      Continues lengths (2 * code + b.toNat) width symbol u := by
  unfold Continues
  rw [List.reverse_cons, valueOf_append, List.length_reverse, List.length_cons, Nat.pow_succ,
    valueOf_cons, valueOf_nil, Nat.mul_zero, Nat.add_zero, Nat.add_mul, Nat.mul_comm 2 code,
    Nat.mul_assoc code, Nat.mul_comm (2 ^ u.length) 2, Nat.mul_comm (2 ^ u.length) b.toNat,
    Nat.add_comm (valueOf _), Nat.add_assoc]

/-- The symbol whose word is read by now. -/
theorem getElem?_symbolsOfLength {lengths : List Nat} (h : lengths.length ≤ symbolLimit)
    {n i s : Nat} : (symbolsOfLength lengths n)[i]? = some s ↔
      lengths[s]? = some n ∧ (lengths.take s).count n = i := by
  rw [symbolsOfLength_eq h, List.getElem?_toArray, getElem?_placesOfLength]
  constructor
  · rintro ⟨p, rfl, h⟩
    rw [Nat.zero_add]
    exact h
  · intro h
    exact ⟨s, (Nat.zero_add s).symm, h⟩

/-- There are as many places of a length as times that it occurs. -/
theorem length_placesOfLength (n : Nat) (lengths : List Nat) (start : Nat) :
    (placesOfLength n lengths start).length = lengths.count n := by
  induction lengths generalizing start with
  | nil => rfl
  | cons m lengths ih =>
    rw [placesOfLength, List.count_cons]
    by_cases hm : m = n
    · rw [if_pos hm, List.length_cons, ih, if_pos (beq_iff_eq.2 hm)]
    · rw [if_neg hm, ih, if_neg (mt beq_iff_eq.1 hm), Nat.add_zero]

/-- A row has as many symbols as there are words of its length. -/
theorem size_symbolsOfLength (lengths : List Nat) (n : Nat) :
    (symbolsOfLength lengths n).size = lengths.count n := by
  rw [symbolsOfLength, List.size_toArray, List.length_mergeSort, List.length_map,
    length_placesOfLength]

/-- Words go on from a shorter word only if it lies before them. -/
theorem eq_nil_of_continues {lengths : List Nat} {code k symbol : Nat} {u : List Bool}
    (h : Continues lengths code (k + u.length) symbol u)
    (hlt : code < firstCode lengths k + codeCount lengths k) : u = [] := by
  obtain ⟨-, h⟩ := h
  cases u with
  | nil => rfl
  | cons b u =>
    have hfirst := firstCode_add_le lengths k u.length
    have hval := valueOf_lt (b :: u).reverse
    have hmul := Nat.mul_le_mul_left (2 ^ (u.length + 1)) (Nat.succ_le_of_lt hlt)
    rw [List.length_reverse, List.length_cons] at hval
    rw [List.length_cons, Nat.mul_comm code] at h
    rw [Nat.mul_succ] at hmul
    omega

/-- The symbol of a word that is complete. -/
theorem symbol_of_continues {lengths : List Nat} (hlen : lengths.length ≤ symbolLimit)
    {code k symbol : Nat} (hle : firstCode lengths k ≤ code)
    (h : Continues lengths code k symbol []) :
    (symbolsOfLength lengths k)[code - firstCode lengths k]? = some symbol := by
  obtain ⟨h₁, h₂⟩ := h
  rw [List.length_nil, List.reverse_nil, valueOf_nil] at h₂
  refine (getElem?_symbolsOfLength hlen).2 ⟨h₁, ?_⟩
  omega

/-- Where a word ends, no other word goes on. -/
theorem continues_iff_of_found {lengths : List Nat} (hlen : lengths.length ≤ symbolLimit)
    {code k symbol : Nat} (hk : k ≠ 0) (hle : firstCode lengths k ≤ code)
    (hfound : (symbolsOfLength lengths k)[code - firstCode lengths k]? = some symbol)
    {s : Symbol} {u : List Bool} :
    (s.width = k + u.length ∧ Continues lengths code s.width s.symbol u) ↔
      s = ⟨symbol, k⟩ ∧ u = [] := by
  constructor
  · rintro ⟨hw, hc⟩
    rw [hw] at hc
    have hlt := (Array.getElem?_eq_some_iff.1 hfound).1
    rw [size_symbolsOfLength, ← codeCount_eq_count hk] at hlt
    obtain rfl := eq_nil_of_continues hc (by omega)
    have hsame := symbol_of_continues hlen hle hc
    rw [hfound] at hsame
    refine ⟨?_, rfl⟩
    cases s with
    | mk symbol' width =>
      cases hsame
      cases hw
      rfl
  · rintro ⟨rfl, rfl⟩
    obtain ⟨hsymbol, hplace⟩ := (getElem?_symbolsOfLength hlen).1 hfound
    refine ⟨rfl, hsymbol, ?_⟩
    rw [List.length_nil, List.reverse_nil, valueOf_nil, hplace]
    dsimp only
    omega

/-- A parser that begins with a bit. -/
theorem recognises_readBits_one {α : Type} {f : Nat → Parser α} {L : Bool → Language α}
    (hf : ∀ b, (f b.toNat).Recognises (L b)) :
    Parser.Recognises (BitReader.readBits 1 >>= f) fun n a u =>
      ∃ b v, u = b :: v ∧ L b (n + 1) a v := by
  have hmem : ∀ n v u, Language.number 1 n v u → (f v).Recognises (L (v == 1)) := by
    rintro n v u ⟨hv, -⟩
    obtain rfl | rfl : v = 0 ∨ v = 1 := by omega
    · exact hf false
    · exact hf true
  refine ((Parser.Recognises.readBits 1).bind_of_mem hmem).congr fun n a u => ⟨?_, ?_⟩
  · rintro ⟨v, _, w, rfl, ⟨hv, rfl⟩, hL⟩
    obtain rfl | rfl : v = 0 ∨ v = 1 := by omega
    · exact ⟨false, w, rfl, hL⟩
    · exact ⟨true, w, rfl, hL⟩
  · rintro ⟨b, v, rfl, hL⟩
    refine ⟨b.toNat, [b], v, rfl, ⟨?_, ?_⟩, ?_⟩
    · cases b <;> decide
    · cases b <;> rfl
    · cases b <;> exact hL

/-- Behind all words of `k` bits, the decoder reads on to exactly the longer words. -/
theorem readFrom_recognises {lengths : List Nat} (hlen : lengths.length ≤ symbolLimit) (m : Nat)
    {k code : Nat} (hcode : firstCode lengths k + codeCount lengths k ≤ code) :
    (readFrom (rowsFrom lengths k m) code k).Recognises fun _ s u =>
      0 < u.length ∧ u.length ≤ m ∧ s.width = k + u.length ∧
        Continues lengths code s.width s.symbol u := by
  induction m generalizing k code with
  | zero =>
    refine (Parser.Recognises.throw _).congr fun _ s u => ⟨False.elim, ?_⟩
    rintro ⟨h₁, h₂, -⟩
    omega
  | succ m ih =>
    have hfirst : ∀ b : Bool, firstCode lengths (k + 1) ≤ 2 * code + b.toNat := by
      intro b
      rw [firstCode]
      omega
    have hmore : ∀ b : Bool, (symbolsOfLength lengths (k + 1))[2 * code + b.toNat -
          firstCode lengths (k + 1)]? = none →
        firstCode lengths (k + 1) + codeCount lengths (k + 1) ≤ 2 * code + b.toNat := by
      intro b hb
      have hsize := Array.getElem?_eq_none_iff.1 hb
      have := hfirst b
      rw [size_symbolsOfLength] at hsize
      rw [codeCount_eq_count (show k + 1 ≠ 0 by omega)]
      omega
    rw [rowsFrom_succ, readFrom]
    refine (recognises_readBits_one (L := fun b _ s u => u.length ≤ m ∧
      s.width = k + 1 + u.length ∧ Continues lengths (2 * code + b.toNat) s.width s.symbol u)
      ?_).congr fun _ s u => ⟨?_, ?_⟩
    -- Whatever comes behind a bit: the word ends with it, or the bits so far are no word.
    · intro b
      have hle := hfirst b
      dsimp only
      rw [if_neg (Nat.not_lt.2 hle)]
      split
      · next symbol hs =>
        have hend := @continues_iff_of_found lengths hlen _ _ symbol (Nat.succ_ne_zero k) hle hs
        refine (Parser.Recognises.pure _).congr fun _ s u => ⟨?_, ?_⟩
        · rintro ⟨rfl, rfl⟩
          exact ⟨Nat.zero_le m, hend.2 ⟨rfl, rfl⟩⟩
        · rintro ⟨-, h⟩
          exact hend.1 h
      · next hs =>
        refine (ih (hmore b hs)).congr fun _ s u => ⟨?_, ?_⟩
        · rintro ⟨-, h₂, h₃, h₄⟩
          exact ⟨h₂, h₃, h₄⟩
        · rintro ⟨h₂, h₃, h₄⟩
          refine ⟨?_, h₂, h₃, h₄⟩
          cases u with
          | nil =>
            have hsame := symbol_of_continues hlen hle (h₃ ▸ h₄)
            rw [hs] at hsame
            cases hsame
          | cons b u => exact Nat.succ_pos _
    · rintro ⟨b, u, rfl, h₂, h₃, h₄⟩
      refine ⟨Nat.succ_pos _, Nat.succ_le_succ h₂, ?_, continues_cons.2 h₄⟩
      rw [h₃, List.length_cons]
      omega
    · rintro ⟨h₁, h₂, h₃, h₄⟩
      cases u with
      | nil => exact absurd h₁ (Nat.lt_irrefl 0)
      | cons b u =>
        rw [List.length_cons] at h₂ h₃
        exact ⟨b, u, rfl, by omega, by omega, continues_cons.1 h₄⟩

/-! ## Whole words -/

/-- The spellings of a symbol are the words of a table. -/
def words (t : CodeTable) : Language Symbol := fun _ s u =>
  0 < t.lengthOf s.symbol ∧ s.width = t.lengthOf s.symbol ∧ u = (t.word s.symbol).bits

/-- The decoder of a table has the rows of all lengths up to the longest. -/
theorem rows_ofTable (t : CodeTable) :
    (ofTable t).rows = rowsFrom t.lengths 0 (min t.maxLength maxCodeLength) := by
  rw [ofTable, rowsFrom]
  simp only [Nat.zero_add]

/-- The decoder has a row for each length up to that of the longest word. -/
theorem length_rows_ofTable {t : CodeTable} (h : t.Canonical) :
    (ofTable t).rows.length = t.maxLength := by
  rw [rows_ofTable, rowsFrom, List.length_map, List.length_range, Nat.min_eq_left h.maxLength_le]

/-- A decoder is empty just when no symbol has a word. -/
theorem isEmpty_ofTable {t : CodeTable} (h : t.Canonical) :
    (ofTable t).isEmpty = true ↔ ∀ n ∈ t.lengths, n = 0 := by
  have hrows : (ofTable t).isEmpty = true ↔ ∀ n < t.maxLength, n + 1 ∉ t.lengths := by
    simp [isEmpty, rows_ofTable, rowsFrom, Nat.min_eq_left h.maxLength_le, ← Array.size_eq_zero_iff,
      size_symbolsOfLength, List.count_eq_zero]
  rw [hrows]
  constructor
  · intro hnone n hn
    cases n with
    | zero => rfl
    | succ n => exact absurd hn (hnone n (CodeTable.le_maxLength hn))
  · intro hzero n _ hn
    exact Nat.succ_ne_zero n (hzero _ hn)

/-- What goes on from no word at all is a word. -/
theorem continues_iff_words {t : CodeTable} (h : t.Canonical) (n : Nat) (s : Symbol)
    (u : List Bool) : (0 < u.length ∧ u.length ≤ min t.maxLength maxCodeLength ∧
      s.width = 0 + u.length ∧ Continues t.lengths 0 s.width s.symbol u) ↔ words t n s u := by
  constructor
  · rintro ⟨hpos, -, hw, hget, hval⟩
    rw [Nat.zero_add] at hw
    have hlen : t.lengthOf s.symbol = s.width := by rw [CodeTable.lengthOf_eq, hget]; rfl
    have hs : 0 < t.lengthOf s.symbol := by omega
    refine ⟨hs, hlen.symm, ?_⟩
    have heq := eq_bitsOf (u.length_reverse)
    rw [Nat.zero_mul, Nat.zero_add] at hval
    rw [hval] at heq
    rw [(h.word_eq hs).1, CodeWord.bits, hlen]
    dsimp only
    rw [← hw] at heq
    rw [← heq, List.reverse_reverse]
  · rintro ⟨hs, hw, rfl⟩
    have hget := CodeTable.getElem?_lengths_of_pos hs
    have hle := CodeTable.le_maxLength (List.mem_of_getElem? hget)
    have hmax := h.lengthOf_le s.symbol
    have hcode := h.code_lt hs
    have hword := (h.word_eq hs).1
    have hlen : (t.word s.symbol).bits.length = t.lengthOf s.symbol := CodeWord.length_bits _
    refine ⟨by omega, by omega, by omega, by rw [hw]; exact hget, ?_⟩
    rw [Nat.zero_mul, Nat.zero_add, CodeWord.bits, List.reverse_reverse, valueOf_bitsOf]
    show (t.word s.symbol).code % 2 ^ t.lengthOf s.symbol = _
    rw [Nat.mod_eq_of_lt hcode, hw, hword]

/-- The decoder of a canonical table reads exactly the words of the table. -/
theorem read_recognises {t : CodeTable} (h : t.Canonical) (hsize : t.size ≤ symbolLimit) :
    (ofTable t).read.Recognises (words t) := by
  have hlen : t.lengths.length ≤ symbolLimit := by rw [CodeTable.length_lengths]; exact hsize
  have hzero : firstCode t.lengths 0 + codeCount t.lengths 0 ≤ 0 := Nat.le_refl 0
  have hmain := (readFrom_recognises hlen (min t.maxLength maxCodeLength) hzero).congr
    (continues_iff_words h)
  unfold read
  split
  · next hempty =>
    refine (Parser.Recognises.throw _).congr fun n s u => ⟨False.elim, fun ⟨hpos, _⟩ => ?_⟩
    have hmem := List.mem_of_getElem? (CodeTable.getElem?_lengths_of_pos hpos)
    have hzero := (isEmpty_ofTable h).1 hempty _ hmem
    omega
  · rw [rows_ofTable]
    exact hmain

end Decoder

end DeflateRecoder
