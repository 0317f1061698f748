import DeflateRecoder.Proofs.Code.Kraft

/-!
# The codec of a table

A codec is a canonical table for writing together with the decoder that belongs to it.
`CodeTable.IsCodec` puts together what holds of one: which words the symbols get, what the decoder
reads on any bits, right or wrong, and that it reads back what was written. A decoder that fails has
gone through all its rows or has met the end of the input (`Decoder.readFrom_error`), so what it
reports and how far it gets depends on nothing but the length of the longest word.
-/

namespace DeflateRecoder

namespace Decoder

/-! ## Failure -/

/-- What is reported about bits in which no word of up to `width + n` bits was found, `code` being
the `width` of them that were read before. -/
def refusal (n code width : Nat) (bits : List Bool) : Error :=
  if n ≤ bits.length then
    .noMatchingCode (code * 2 ^ n + valueOf (bits.take n).reverse) (width + n)
  else .unexpectedEnd

/-- Each bit that is read before a refusal is added to the word that is told. -/
theorem refusal_cons (n code width : Nat) (b : Bool) (bits : List Bool) :
    refusal (n + 1) code width (b :: bits) = refusal n (2 * code + b.toNat) (width + 1) bits := by
  unfold refusal
  by_cases hn : n ≤ bits.length
  · rw [if_pos hn, if_pos (by simpa using hn), List.take_succ_cons, List.reverse_cons,
      valueOf_append, List.length_reverse, List.length_take, Nat.min_eq_left hn]
    simp only [valueOf_cons, valueOf_nil, Nat.mul_zero, Nat.add_zero]
    congr 1 <;> ring
  · rw [if_neg hn, if_neg (by simpa using hn)]

/-- Wherever a bit leads, the decoder goes on with the other rows or does not fail. -/
theorem readFrom_of_cons_error {row : Row} {rows : List Row} {code width bit : Nat}
    {r r₁ r' : BitReader} {e : Error} (hbit : BitReader.readBits 1 r = .ok bit r₁)
    (h : readFrom (row :: rows) code width r = .error e r') :
    readFrom rows (2 * code + bit) (width + 1) r₁ = .error e r' := by
  simp only [readFrom, Bind.bind, EStateM.bind, hbit] at h
  by_cases hlt : 2 * code + bit < row.first
  · rwa [if_pos hlt] at h
  · rw [if_neg hlt] at h
    cases hfound : row.symbols[2 * code + bit - row.first]? with
    | none => rwa [hfound] at h
    | some s =>
      rw [hfound] at h
      cases h

/-- A decoder that fails has read a bit for each of its rows, or all bits that there were. -/
theorem readFrom_error {rows : List Row} {code width : Nat} {r r' : BitReader} {e : Error}
    (hr : r.Valid) (h : readFrom rows code width r = .error e r') :
    e = refusal rows.length code width r.bits ∧ r'.Valid ∧ r'.bits = r.bits.drop rows.length ∧
      r'.position = r.position + min rows.length r.bits.length := by
  induction rows generalizing code width r with
  | nil =>
    cases h
    simp [refusal, hr]
  | cons row rows ih =>
    cases hbits : r.bits with
    | nil =>
      have hnone : r.remaining < 1 := by simp [← r.length_bits, hbits]
      obtain ⟨r₁, hread, hr₁, hsame, hposition, -⟩ := BitReader.readBits_error hr hnone
      simp only [readFrom, Bind.bind, EStateM.bind, hread] at h
      cases h
      simp [refusal, hr₁, hsame, hposition, hbits]
    | cons b u =>
      obtain ⟨r₁, hread, hr₁, rfl, hposition⟩ := BitReader.readBits_one hr hbits
      obtain ⟨rfl, hr', hdrop, hposition'⟩ := ih hr₁ (readFrom_of_cons_error hread h)
      refine ⟨?_, hr', hdrop, ?_⟩
      · rw [List.length_cons, refusal_cons]
      · rw [hposition', hposition, List.length_cons, List.length_cons]
        omega

/-! ## Whole codes -/

variable {t : CodeTable} {r : BitReader}

/-- A decoder without words refuses everything. -/
theorem read_of_no_words (h : t.Canonical) (hnone : ∀ n ∈ t.lengths, n = 0) :
    (ofTable t).read r = .error .noCodes r := by
  rw [read, if_pos ((isEmpty_ofTable h).2 hnone)]
  rfl

/-- Bits that begin with no word are refused behind as many bits as the longest word has. -/
theorem read_of_no_match (h : t.Canonical) (hsize : t.size ≤ symbolLimit) (hr : r.Valid)
    (hsome : ∃ n ∈ t.lengths, 0 < n) (hno : ∀ s, 0 < t.lengthOf s → ¬(t.word s).bits <+: r.bits) :
    ∃ r', (ofTable t).read r = .error (refusal t.maxLength 0 0 r.bits) r' ∧ r'.Valid ∧
      r'.bits = r.bits.drop t.maxLength ∧
      r'.position = r.position + min t.maxLength r.bits.length := by
  obtain ⟨n, hn, hpos⟩ := hsome
  have hempty : ¬(ofTable t).isEmpty = true := fun hempty =>
    absurd ((isEmpty_ofTable h).1 hempty n hn) (Nat.ne_of_gt hpos)
  rcases hread : (ofTable t).read r with ⟨s, r'⟩ | ⟨e, r'⟩
  · obtain ⟨u, hu, hs, -, rfl⟩ := ((read_recognises h hsize).exists_ok_iff hr).1 ⟨r', hread⟩
    exact absurd hu (hno _ hs)
  · have hfrom := hread
    rw [read, if_neg hempty] at hfrom
    obtain ⟨rfl, hr', hbits, hposition⟩ := readFrom_error hr hfrom
    rw [length_rows_ofTable h] at hbits hposition ⊢
    exact ⟨r', rfl, hr', hbits, hposition⟩

/-- Words one behind the other are read one after the other. -/
theorem mapM_read (h : t.Canonical) (hsize : t.size ≤ symbolLimit) {symbols : List Nat}
    (hcoded : ∀ s ∈ symbols, 0 < t.lengthOf s) (hr : r.Valid) {v : List Bool}
    (hbits : r.bits = symbols.flatMap (fun s => (t.word s).bits) ++ v) :
    ∃ r', symbols.mapM (fun _ => (ofTable t).read) r =
        .ok (symbols.map fun s => ⟨s, t.lengthOf s⟩) r' ∧
      r'.Valid ∧ r'.bits = v ∧
      r'.position = r.position + (symbols.flatMap fun s => (t.word s).bits).length := by
  refine (Parser.Recognises.mapM (fun _ => read_recognises h hsize) symbols).complete_position hr
    hbits ?_
  generalize r.position = p
  clear hbits
  induction symbols generalizing p with
  | nil => exact ⟨rfl, rfl⟩
  | cons s symbols ih =>
    obtain ⟨hs, hsymbols⟩ := List.forall_mem_cons.1 hcoded
    refine ⟨⟨s, t.lengthOf s⟩, (t.word s).bits, symbols.flatMap fun s => (t.word s).bits, rfl,
      ⟨hs, rfl, rfl⟩, symbols.map fun s => ⟨s, t.lengthOf s⟩, _, [], (List.append_nil _).symm,
      ih hsymbols _, rfl, rfl⟩

end Decoder

namespace CodeTable

/-- A table for writing and its decoder, made from code lengths, are a code: a symbol is written by
its canonical word, and the decoder finds exactly the words at the front of whatever it is given. -/
structure IsCodec (t : CodeTable) (lengths : List Nat) : Prop where
  /-- Each symbol has a word of the length asked for. -/
  lengths_eq : t.lengths = lengths
  /-- The words of one length are consecutive, in the order of their symbols. -/
  word_eq : ∀ {s n}, lengths[s]? = some n → 0 < n →
    t.word s = ⟨n, firstCode lengths n + (lengths.take s).count n⟩
  /-- A symbol is written by the reversed word, which has its most significant bit first. -/
  writeSymbol_eq : ∀ {s} (w : BitWriter), 0 < t.lengthOf s →
    w.writeSymbol t s = .ok (w.writeBits (t.lengthOf s) (t.word s).reversed)
  reversed_bits : ∀ s, bitsOf (t.lengthOf s) (t.word s).reversed =
    (bitsOf (t.lengthOf s) (t.word s).code).reverse
  /-- A symbol is read just when its word comes next. -/
  read_ok : ∀ {r : BitReader}, r.Valid → ∀ s n, (∃ r', (Decoder.ofTable t).read r = .ok ⟨s, n⟩ r') ↔
    0 < n ∧ t.lengthOf s = n ∧ bitsOf n (t.word s).reversed <+: r.bits
  /-- Reading a symbol takes its word. -/
  read_takes : ∀ {r s n r'}, r.Valid → (Decoder.ofTable t).read r = .ok ⟨s, n⟩ r' →
    r'.Valid ∧ r'.position = r.position + n ∧ r'.bits = r.bits.drop n
  /-- No more than one word comes next. -/
  unique : ∀ {s s' : Nat} {u : List Bool}, 0 < t.lengthOf s → 0 < t.lengthOf s' →
    bitsOf (t.lengthOf s) (t.word s).reversed <+: u →
    bitsOf (t.lengthOf s') (t.word s').reversed <+: u → s = s'
  /-- Without words nothing is taken. -/
  read_noCodes : (∀ n ∈ lengths, n = 0) → ∀ r, (Decoder.ofTable t).read r = .error .noCodes r
  /-- When no word comes next, as many bits are taken as the longest word has. -/
  read_noMatch : (∃ n ∈ lengths, 0 < n) → ∀ {r : BitReader}, r.Valid →
    (∀ s, 0 < t.lengthOf s → ¬bitsOf (t.lengthOf s) (t.word s).reversed <+: r.bits) →
    t.maxLength ≤ r.remaining → ∃ r', (Decoder.ofTable t).read r =
        .error (.noMatchingCode (valueOf (r.bits.take t.maxLength).reverse) t.maxLength) r' ∧
      r'.Valid ∧ r'.position = r.position + t.maxLength ∧ r'.bits = r.bits.drop t.maxLength
  /-- When the input ends before that, all of it is taken. -/
  read_end : (∃ n ∈ lengths, 0 < n) → ∀ {r : BitReader}, r.Valid →
    (∀ s, 0 < t.lengthOf s → ¬bitsOf (t.lengthOf s) (t.word s).reversed <+: r.bits) →
    r.remaining < t.maxLength → ∃ r', (Decoder.ofTable t).read r = .error .unexpectedEnd r' ∧
      r'.Valid ∧ r'.position = r.position + r.remaining ∧ r'.bits = []
  /-- What was written is read back, whatever comes behind it. -/
  reread : ∀ {symbols : List Nat}, (∀ s ∈ symbols, 0 < t.lengthOf s) → ∃ w,
    symbols.foldlM (fun w s => w.writeSymbol t s) BitWriter.empty = .ok w ∧
      ∀ rest, ∃ r', symbols.mapM (fun _ => (Decoder.ofTable t).read)
          (.ofBytes (w.finish ++ rest)) = .ok (symbols.map fun s => ⟨s, t.lengthOf s⟩) r' ∧
        r'.position = w.bitLength

/-- Both ends of a codec agree on the bits of a word. -/
theorem bitsOf_reversed (t : CodeTable) (s : Nat) :
    bitsOf (t.lengthOf s) (t.word s).reversed = (t.word s).bits :=
  bitsOf_reverseBits _ _

/-- What a canonical table writes is read back. -/
theorem Canonical.reread {t : CodeTable} (h : t.Canonical) (hsize : t.size ≤ symbolLimit)
    {symbols : List Nat} (hcoded : ∀ s ∈ symbols, 0 < t.lengthOf s) : ∃ w,
    symbols.foldlM (fun w s => w.writeSymbol t s) BitWriter.empty = .ok w ∧
      ∀ rest, ∃ r', symbols.mapM (fun _ => (Decoder.ofTable t).read)
          (.ofBytes (w.finish ++ rest)) = .ok (symbols.map fun s => ⟨s, t.lengthOf s⟩) r' ∧
        r'.position = w.bitLength := by
  obtain ⟨w, hw, hputs⟩ := BitWriter.puts_foldlM (g := fun s => (t.word s).bits)
    (fun s hs w hw => BitWriter.puts_writeSymbol hw (hcoded s hs)) BitWriter.valid_empty
  have hbits : w.bits = symbols.flatMap fun s => (t.word s).bits := by
    simpa [BitWriter.bits, BitWriter.empty] using hputs.2
  refine ⟨w, hw, fun rest => ?_⟩
  obtain ⟨r', hread, -, -, hposition⟩ := Decoder.mapM_read h hsize hcoded
    (BitReader.valid_ofBytes (w.finish ++ rest)) (by
      rw [BitReader.bits_ofBytes, bytesBits_append, BitWriter.bytesBits_finish hputs.1, hbits,
        List.append_assoc])
  refine ⟨r', hread, ?_⟩
  rw [hposition, BitReader.position_ofBytes, Nat.zero_add, ← hbits, BitWriter.length_bits]

/-- A canonical table whose symbols have numbers of their own is a codec of its lengths, put
together from what reading finds, refuses and needs. -/
theorem Canonical.isCodec {t : CodeTable} (h : t.Canonical) (hsize : t.size ≤ symbolLimit) :
    t.IsCodec t.lengths where
  lengths_eq := rfl
  word_eq := by
    intro s n hget hpos
    have hn : t.lengthOf s = n := by rw [lengthOf_eq, hget, Option.getD_some]
    subst hn
    exact (h.word_eq hpos).1
  writeSymbol_eq := fun w hs => if_neg (Nat.ne_of_gt hs)
  reversed_bits := bitsOf_reversed t
  read_ok := by
    intro r hr s n
    rw [(Decoder.read_recognises h hsize).exists_ok_iff hr]
    constructor
    · rintro ⟨_, hu, hpos, hn, rfl⟩
      dsimp only at hpos hn hu
      subst hn
      rw [bitsOf_reversed]
      exact ⟨hpos, rfl, hu⟩
    · rintro ⟨hpos, rfl, hu⟩
      rw [bitsOf_reversed] at hu
      exact ⟨_, hu, hpos, rfl, rfl⟩
  read_takes := by
    intro r s n r' hr hread
    obtain ⟨hr', u, hbits, hposition, -, hn, rfl⟩ :=
      (Decoder.read_recognises h hsize).sound hr hread
    dsimp only at hn
    rw [length_bits_word, ← hn] at hposition
    refine ⟨hr', hposition, ?_⟩
    rw [hbits, List.drop_left' (by rw [length_bits_word, ← hn])]
  unique := by
    intro s s' u hs hs' hu hu'
    rw [bitsOf_reversed] at hu hu'
    have hcode : t.PrefixCode [s, s'] := h.prefixCode (by simp [hs, hs'])
    exact hcode.eq_of_begins (by simp) (by simp) hu hu'
  read_noCodes := fun hnone _ => Decoder.read_of_no_words h hnone
  read_noMatch := by
    intro hsome r hr hno hle
    obtain ⟨r', hread, hr', hbits, hposition⟩ := Decoder.read_of_no_match h hsize hr hsome
      fun s hs => bitsOf_reversed t s ▸ hno s hs
    rw [r.length_bits, Nat.min_eq_left hle] at hposition
    rw [Decoder.refusal, r.length_bits, if_pos hle, Nat.zero_mul, Nat.zero_add, Nat.zero_add]
      at hread
    exact ⟨r', hread, hr', hposition, hbits⟩
  read_end := by
    intro hsome r hr hno hlt
    obtain ⟨r', hread, hr', hbits, hposition⟩ := Decoder.read_of_no_match h hsize hr hsome
      fun s hs => bitsOf_reversed t s ▸ hno s hs
    rw [r.length_bits, Nat.min_eq_right hlt.le] at hposition
    rw [Decoder.refusal, r.length_bits, if_neg (Nat.not_le.2 hlt)] at hread
    rw [List.drop_of_length_le (by rw [r.length_bits]; exact hlt.le)] at hbits
    exact ⟨r', hread, hr', hposition, hbits⟩
  reread := h.reread hsize

/-- Code lengths make a codec just when the format allows them and their words fit beside each
other. -/
theorem isCodec_of_accepted {lengths : List Nat} (hlen : lengths.length ≤ symbolLimit) :
    ((∃ t, ofLengths? lengths = .ok t) ↔
      (∀ n ∈ lengths, n ≤ maxCodeLength) ∧ codeSpace (lengths.filter (0 < ·)) ≤ 1) ∧
    ∀ {t}, ofLengths? lengths = .ok t → t.IsCodec lengths := by
  refine ⟨exists_ofLengths?_iff, fun ht => ?_⟩
  obtain ⟨hcanonical, rfl⟩ := canonical_of_ofLengths? ht
  rw [length_lengths] at hlen
  exact hcanonical.isCodec hlen

/-- The words 0 and 10 leave the bits 11 without a symbol. -/
theorem isCodec_one_zero_two : ∃ t, ofLengths? [1, 0, 2] = .ok t ∧ t.IsCodec [1, 0, 2] ∧
    ∃ r', (Decoder.ofTable t).read (.ofBytes [3]) = .error (.noMatchingCode 3 2) r' := by
  have hok : ofLengths? [1, 0, 2] = .ok (ofLengths [1, 0, 2]) := by decide
  have hcodec := (isCodec_of_accepted (by decide)).2 hok
  have hno : ∀ s, 0 < (ofLengths [1, 0, 2]).lengthOf s →
      ¬bitsOf ((ofLengths [1, 0, 2]).lengthOf s) ((ofLengths [1, 0, 2]).word s).reversed <+:
        bytesBits [3] := by
    intro s hs
    have hlt : s < 3 := lt_size_of_pos hs
    obtain rfl | rfl | rfl : s = 0 ∨ s = 1 ∨ s = 2 := by omega
    · decide
    · exact absurd hs (by decide)
    · decide
  obtain ⟨r', hread, -⟩ :=
    hcodec.read_noMatch (by decide) (BitReader.valid_ofBytes [3]) hno (by decide)
  exact ⟨_, hok, hcodec, r', hread⟩

end CodeTable

end DeflateRecoder
