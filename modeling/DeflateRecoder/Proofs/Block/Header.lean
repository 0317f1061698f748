import DeflateRecoder.Block.Header
import DeflateRecoder.Proofs.Code.Decoder
import DeflateRecoder.Proofs.CodeLengths.Packing

/-!
# Headers, written and read

`TableHeader.WellFormed` says what a header has to be for `TableHeader.bits` to spell it:
`TableHeader.puts_write` writes these bits, and `TableHeader.read_recognises` reads nothing else. In
particular a header that was read is well-formed, and only one header has given bits.
-/

namespace DeflateRecoder

/-- The bits of a symbol of a code length. -/
def LengthSymbol.bits (code : CodeTable) (s : LengthSymbol) : List Bool :=
  (code.word s.symbol).bits ++ bitsOf s.extraBits s.extra

@[simp] theorem LengthSymbol.length_bits (code : CodeTable) (s : LengthSymbol) :
    (s.bits code).length = s.cost code := by
  rw [LengthSymbol.bits, List.length_append, CodeWord.length_bits, length_bitsOf]
  rfl

namespace TableHeader

/-- The bits of a header. -/
def bits (h : TableHeader) : List Bool :=
  bitsOf 5 (h.litlenCount - 257) ++ (bitsOf 5 (h.distCount - 1) ++ (bitsOf 4 (h.orderCount - 4) ++
    ((transmissionOrder.take h.orderCount).flatMap (fun s => bitsOf 3 (h.code.lengthOf s)) ++
      h.symbols.flatMap (·.bits h.code))))

/-- A header that can be transmitted. -/
structure WellFormed (h : TableHeader) : Prop where
  litlenCount_ge : 257 ≤ h.litlenCount
  litlenCount_le : h.litlenCount ≤ 288
  distCount_ge : 1 ≤ h.distCount
  distCount_le : h.distCount ≤ 32
  orderCount_ge : 4 ≤ h.orderCount
  orderCount_le : h.orderCount ≤ 19
  code_canonical : h.code.Canonical
  code_size : h.code.size = 19
  code_le : ∀ n ∈ h.code.lengths, n ≤ 7
  left_out : ∀ s ∈ transmissionOrder.drop h.orderCount, h.code.lengthOf s = 0
  legal : ∀ s ∈ h.symbols, s.Legal
  coded : ∀ s ∈ h.symbols, 0 < h.code.lengthOf s.symbol
  unpacks : ∃ lengths, unpack h.symbols = .ok lengths ∧
    lengths.length = h.litlenCount + h.distCount
  bitSize_eq : h.bitSize = h.recount

/-! ## The code lengths of two tables -/

/-- A header stands for the lengths that its symbols are unpacked to, divided at the count that it
names. -/
theorem lengths_of_unpack {h : TableHeader} {lengths : List Nat}
    (hu : unpack h.symbols = .ok lengths) :
    h.lengths = (lengths.take h.litlenCount, lengths.drop h.litlenCount) := by
  rw [TableHeader.lengths, eq_flatMap_expand hu, List.splitAt_eq]

/-- A header whose symbols are unpacked to the lengths of two tables stands for these. -/
theorem lengths_eq {h : TableHeader} {litlen dist : List Nat}
    (hu : unpack h.symbols = .ok (litlen ++ dist)) (hlen : litlen.length = h.litlenCount) :
    h.lengths = (litlen, dist) := by
  rw [lengths_of_unpack hu, ← hlen, List.take_left, List.drop_left]

/-- There are as many code lengths as the header says. -/
theorem WellFormed.unpack_lengths {h : TableHeader} (hw : h.WellFormed) :
    unpack h.symbols = .ok (h.lengths.1 ++ h.lengths.2) ∧ h.lengths.1.length = h.litlenCount ∧
      h.lengths.2.length = h.distCount := by
  obtain ⟨lengths, hu, hlen⟩ := hw.unpacks
  rw [lengths_of_unpack hu]
  refine ⟨?_, ?_, ?_⟩
  · rw [List.take_append_drop]
    exact hu
  · simp [hlen]
  · simp [hlen]

/-! ## The code for code lengths -/

/-- Among pairs with distinct keys, each key is looked up where it stands. -/
theorem lookup_zip {l vs : List Nat} {i s : Nat} (hn : l.Nodup) (hi : l[i]? = some s) :
    (l.zip vs).lookup s = vs[i]? := by
  induction l generalizing vs i with
  | nil => simp at hi
  | cons a l ih =>
    cases vs with
    | nil => simp
    | cons v vs =>
      rw [List.nodup_cons] at hn
      rw [List.zip_cons_cons, List.lookup_cons]
      cases i with
      | zero =>
        obtain rfl := Option.some.inj hi
        rw [beq_self_eq_true]
        rfl
      | succ i =>
        rw [List.getElem?_cons_succ] at hi ⊢
        have hne : (s == a) = false := by
          rw [beq_eq_false_iff_ne]
          rintro rfl
          exact hn.1 (List.mem_of_getElem? hi)
        rw [hne]
        exact ih hn.2 hi

/-- Each symbol has its place in the order of transmission. -/
theorem exists_getElem?_transmissionOrder :
    ∀ s < 19, ∃ i : Nat, transmissionOrder[i]? = some s := by
  have h : ∀ s < 19, ∃ i < 19, transmissionOrder[i]? = some s := by decide
  intro s hs
  obtain ⟨i, -, hi⟩ := h s hs
  exact ⟨i, hi⟩

/-- Each code length symbol has the length at its place in the order of transmission, or zero if that
was left out. -/
theorem getElem?_placeLengths {vs : List Nat} {i s : Nat} (hi : transmissionOrder[i]? = some s) :
    (placeLengths vs)[s]? = some (vs[i]?.getD 0) := by
  have hs : s < 19 := by
    have h : ∀ s ∈ transmissionOrder, s < 19 := by decide
    exact h s (List.mem_of_getElem? hi)
  rw [placeLengths, List.getElem?_map, List.getElem?_range hs, Option.map_some,
    lookup_zip (by decide) hi]

@[simp] theorem length_placeLengths (vs : List Nat) : (placeLengths vs).length = 19 := by
  rw [placeLengths, List.length_map, List.length_range]

/-- Putting lengths in their places makes none of them longer. -/
theorem placeLengths_le {vs : List Nat} {n : Nat} (h : ∀ v ∈ vs, v ≤ n) :
    ∀ m ∈ placeLengths vs, m ≤ n := by
  intro m hm
  obtain ⟨s, hs⟩ := List.mem_iff_getElem?.1 hm
  have hlt := (List.getElem?_eq_some_iff.1 hs).1
  rw [length_placeLengths] at hlt
  obtain ⟨i, hi⟩ := exists_getElem?_transmissionOrder s hlt
  rw [getElem?_placeLengths hi, Option.some.injEq] at hs
  rw [← hs]
  cases hv : vs[i]? with
  | none => exact Nat.zero_le n
  | some v => exact h v (List.mem_of_getElem? hv)

/-- A code that was read has the lengths that were transmitted. -/
theorem map_lengthOf_order {code : CodeTable} {vs : List Nat} {k : Nat}
    (hcode : code.lengths = placeLengths vs) (hk : k ≤ 19) (hlen : vs.length = k) :
    (transmissionOrder.take k).map code.lengthOf = vs ∧
      ∀ s ∈ transmissionOrder.drop k, code.lengthOf s = 0 := by
  have hget : ∀ {i s : Nat}, transmissionOrder[i]? = some s → code.lengthOf s = vs[i]?.getD 0 := by
    intro i s hi
    rw [CodeTable.lengthOf_eq, hcode, getElem?_placeLengths hi]
    rfl
  refine ⟨List.ext_getElem? fun i => ?_, ?_⟩
  · rw [List.getElem?_map, List.getElem?_take]
    rcases Nat.lt_or_ge i k with hi | hi
    · have h19 : i < transmissionOrder.length := Nat.lt_of_lt_of_le hi hk
      rw [if_pos hi, List.getElem?_eq_getElem h19, Option.map_some,
        hget (List.getElem?_eq_getElem h19), List.getElem?_eq_getElem (by omega)]
      rfl
    · rw [if_neg (Nat.not_lt.2 hi), List.getElem?_eq_none (by omega)]
      rfl
  · intro s hs
    obtain ⟨j, hj⟩ := List.mem_iff_getElem?.1 hs
    rw [List.getElem?_drop] at hj
    rw [hget hj, List.getElem?_eq_none (by omega)]
    rfl

/-- The lengths that are transmitted determine a code whose other lengths are 0. -/
theorem placeLengths_map_lengthOf {code : CodeTable} {k : Nat} (hsize : code.size = 19)
    (hrest : ∀ s ∈ transmissionOrder.drop k, code.lengthOf s = 0) :
    placeLengths ((transmissionOrder.take k).map code.lengthOf) = code.lengths := by
  refine List.ext_getElem? fun s => ?_
  rcases Nat.lt_or_ge s 19 with hs | hs
  · obtain ⟨i, hi⟩ := exists_getElem?_transmissionOrder s hs
    have hlt : s < code.lengths.length := by
      rw [CodeTable.length_lengths, hsize]
      exact hs
    have hcode : code.lengths[s]? = some (code.lengthOf s) := by
      rw [CodeTable.lengthOf_eq, List.getElem?_eq_getElem hlt]
      rfl
    rw [getElem?_placeLengths hi, hcode, List.getElem?_map, List.getElem?_take]
    by_cases hik : i < k
    · rw [if_pos hik, hi]
      rfl
    · rw [if_neg hik]
      have hmem : s ∈ transmissionOrder.drop k := by
        refine List.mem_iff_getElem?.2 ⟨i - k, ?_⟩
        rw [List.getElem?_drop, Nat.add_sub_cancel' (Nat.not_lt.1 hik), hi]
      rw [hrest s hmem]
      rfl
  · rw [List.getElem?_eq_none (by rw [length_placeLengths]; exact hs),
      List.getElem?_eq_none (by rw [CodeTable.length_lengths, hsize]; exact hs)]

/-! ## Writing -/

/-- A header has as many bits as its size says. -/
theorem length_bits {h : TableHeader} (hw : h.WellFormed) : h.bits.length = h.bitSize := by
  have horder : ((transmissionOrder.take h.orderCount).flatMap
      fun s => bitsOf 3 (h.code.lengthOf s)).length = 3 * h.orderCount := by
    have htake : (transmissionOrder.take h.orderCount).length = h.orderCount :=
      List.length_take_of_le hw.orderCount_le
    rw [length_flatMap_eq_total, total_congr fun s _ => length_bitsOf 3 (h.code.lengthOf s),
      total_const, htake]
  have hsymbols : (h.symbols.flatMap (·.bits h.code)).length = total (·.cost h.code) h.symbols := by
    rw [length_flatMap_eq_total]
    exact total_congr fun s _ => s.length_bits h.code
  rw [hw.bitSize_eq, recount, bits, List.length_append, List.length_append, List.length_append,
    List.length_append, length_bitsOf, length_bitsOf, length_bitsOf, horder, hsymbols]
  omega

/-- Writing a header puts its bits. -/
theorem puts_write {h : TableHeader} (hw : h.WellFormed) {w : BitWriter} (hv : w.Valid) :
    ∃ w', h.write w = .ok w' ∧ w.Puts w' h.bits := by
  have p₁ := BitWriter.puts_writeBits 5 (h.litlenCount - 257) hv
  have p₂ := BitWriter.puts_writeBits 5 (h.distCount - 1) p₁.1
  have p₃ := BitWriter.puts_writeBits 4 (h.orderCount - 4) p₂.1
  have p₄ := BitWriter.puts_foldl (transmissionOrder.take h.orderCount)
    (fun s w hv => BitWriter.puts_writeBits 3 (h.code.lengthOf s) hv) p₃.1
  have hsymbol : ∀ s ∈ h.symbols, ∀ w : BitWriter, w.Valid →
      ∃ w', writeSymbol h.code w s = .ok w' ∧ w.Puts w' (s.bits h.code) := by
    intro s hs w hv
    obtain ⟨w₁, e₁, q₁⟩ := BitWriter.puts_writeSymbol hv (hw.coded s hs)
    refine ⟨w₁.writeBits s.extraBits s.extra, ?_, q₁.trans (BitWriter.puts_writeBits _ _ q₁.1)⟩
    rw [writeSymbol, e₁]
    rfl
  obtain ⟨w', e, p₅⟩ := BitWriter.puts_foldlM hsymbol p₄.1
  exact ⟨w', e, p₁.trans (p₂.trans (p₃.trans (p₄.trans p₅)))⟩

/-! ## Reading -/

/-- Symbols as they are spelled after a code length `previous`, if there is one. -/
def spellings (code : CodeTable) (previous : Option Nat) : Language LengthSymbol := fun _ s u =>
  s.Legal ∧ 0 < code.lengthOf s.symbol ∧ (∀ c v, s = .copy c v → previous = some v) ∧
    u = s.bits code

/-- The bits behind the word of a symbol of the alphabet. -/
structure Tail (previous : Option Nat) (symbol : Nat) (s : LengthSymbol) (u : List Bool) :
    Prop where
  symbol_eq : s.symbol = symbol
  legal : s.Legal
  previous_eq : ∀ c v, s = .copy c v → previous = some v
  bits_eq : u = bitsOf s.extraBits s.extra

section

variable {previous : Option Nat} {s : LengthSymbol} {u : List Bool}

/-- A symbol below 16 is a length, with nothing behind it. -/
theorem tail_length {n : Nat} (hn : n ≤ 15) : Tail previous n s u ↔ s = .length n ∧ u = [] := by
  constructor
  · rintro ⟨hs, hl, -, hu⟩
    cases s with
    | length v =>
      cases hs
      exact ⟨rfl, hu⟩
    | copy c v => exact absurd hs (by rw [LengthSymbol.symbol]; omega)
    | zeros c => exact absurd hs (by rw [LengthSymbol.symbol]; omega)
    | longZeros c => exact absurd hs (by rw [LengthSymbol.symbol]; omega)
  · rintro ⟨rfl, rfl⟩
    exact ⟨rfl, ⟨trivial, hn⟩, (fun _ _ h => by cases h), rfl⟩

/-- Symbol 16 behind a length is a copy, with a count of two bits behind it. -/
theorem tail_copy {value : Nat} (hv : value ≤ maxCodeLength) : Tail (some value) 16 s u ↔
    ∃ extra < 2 ^ 2, s = .copy (extra + 3) value ∧ u = bitsOf 2 extra := by
  constructor
  · rintro ⟨hs, hl, hp, hu⟩
    cases s with
    | copy c v =>
      obtain ⟨hge, hle⟩ := hl.count_legal
      cases hp c v rfl
      exact ⟨c - 3, by omega, by rw [Nat.sub_add_cancel hge], hu⟩
    | length v => exact absurd hs (hl.length_symbol_ne (by decide))
    | zeros c => cases hs
    | longZeros c => cases hs
  · rintro ⟨extra, hlt, rfl, rfl⟩
    refine ⟨rfl, ⟨⟨by omega, by omega⟩, hv⟩, ?_, rfl⟩
    intro c v h
    cases h
    rfl

/-- Symbol 16 stands for nothing at the beginning. -/
theorem tail_copy_none : ¬ Tail none 16 s u := by
  rintro ⟨hs, hl, hp, -⟩
  cases s with
  | copy c v => cases hp c v rfl
  | length v => exact absurd hs (hl.length_symbol_ne (by decide))
  | zeros c => cases hs
  | longZeros c => cases hs

/-- Symbol 17 is a short run of zeros, with a count of three bits behind it. -/
theorem tail_zeros : Tail previous 17 s u ↔
    ∃ extra < 2 ^ 3, s = .zeros (extra + 3) ∧ u = bitsOf 3 extra := by
  constructor
  · rintro ⟨hs, hl, -, hu⟩
    cases s with
    | zeros c =>
      obtain ⟨hge, hle⟩ := hl.count_legal
      exact ⟨c - 3, by omega, by rw [Nat.sub_add_cancel hge], hu⟩
    | length v => exact absurd hs (hl.length_symbol_ne (by decide))
    | copy c v => cases hs
    | longZeros c => cases hs
  · rintro ⟨extra, hlt, rfl, rfl⟩
    exact ⟨rfl, ⟨⟨by omega, by omega⟩, Nat.zero_le _⟩, (fun _ _ h => by cases h), rfl⟩

/-- Symbol 18 is a long run of zeros, with a count of seven bits behind it. -/
theorem tail_longZeros : Tail previous 18 s u ↔
    ∃ extra < 2 ^ 7, s = .longZeros (extra + 11) ∧ u = bitsOf 7 extra := by
  constructor
  · rintro ⟨hs, hl, -, hu⟩
    cases s with
    | longZeros c =>
      obtain ⟨hge, hle⟩ := hl.count_legal
      exact ⟨c - 11, by omega, by rw [Nat.sub_add_cancel hge], hu⟩
    | length v => exact absurd hs (hl.length_symbol_ne (by decide))
    | copy c v => cases hs
    | zeros c => cases hs
  · rintro ⟨extra, hlt, rfl, rfl⟩
    exact ⟨rfl, ⟨⟨by omega, by omega⟩, Nat.zero_le _⟩, (fun _ _ h => by cases h), rfl⟩

/-- There are 19 symbols. -/
theorem Tail.symbol_lt {symbol : Nat} (h : Tail previous symbol s u) : symbol < 19 := by
  rw [← h.symbol_eq]
  exact h.legal.symbol_lt

end

/-- A number behind a symbol that stands for a run. -/
theorem readRun_recognises (n k : Nat) (f : Nat → LengthSymbol)
    (hf : ∀ extra, 0 < (f (extra + k)).count) :
    Parser.Recognises (BitReader.readBits n >>= fun extra =>
        (pure ⟨f (extra + k), hf extra⟩ : Parser { s : LengthSymbol // 0 < s.count }))
      fun _ (s : { s : LengthSymbol // 0 < s.count }) u =>
        ∃ extra < 2 ^ n, s.1 = f (extra + k) ∧ u = bitsOf n extra := by
  refine ((Parser.Recognises.readBits n).bind fun extra => Parser.Recognises.pure
    (⟨f (extra + k), hf extra⟩ : { s // 0 < LengthSymbol.count s })).congr
    fun _ s u => ⟨?_, ?_⟩
  · rintro ⟨extra, _, _, rfl, ⟨hlt, rfl⟩, rfl, rfl⟩
    exact ⟨extra, hlt, rfl, List.append_nil _⟩
  · rintro ⟨extra, hlt, hs, rfl⟩
    exact ⟨extra, _, [], (List.append_nil _).symm, ⟨hlt, rfl⟩, Subtype.ext hs, rfl⟩

/-- Reading a symbol undoes writing it. -/
theorem readSymbol_recognises {code : CodeTable} (hc : code.Canonical) (hsize : code.size = 19)
    {previous : Option Nat} (hprev : ∀ v, previous = some v → v ≤ maxCodeLength) :
    (readSymbol (Decoder.ofTable code) previous).Recognises fun n s u =>
      spellings code previous n s.1 u := by
  have hread := Decoder.read_recognises hc (by rw [hsize]; decide)
  refine (hread.bind_of_mem (M := fun symbol _ s u => Tail previous symbol.symbol s.1 u)
    ?_).congr fun n s u => ⟨?_, ?_⟩
  · rintro n ⟨symbol, width⟩ u -
    dsimp only
    split
    · cases previous with
      | none =>
        refine ((Parser.Recognises.readBits 2).bind fun _ => .throw _).congr fun _ s u => ⟨?_, ?_⟩
        · rintro ⟨_, _, _, _, _, hfalse⟩
          exact hfalse.elim
        · intro h
          exact absurd h tail_copy_none
      | some value =>
        exact (readRun_recognises 2 3 (.copy · value) _).congr fun _ s u =>
          (tail_copy (hprev value rfl)).symm
    · exact (readRun_recognises 3 3 .zeros _).congr fun _ s u => tail_zeros.symm
    · exact (readRun_recognises 7 11 .longZeros _).congr fun _ s u => tail_longZeros.symm
    · next h16 h17 h18 =>
      by_cases hle : symbol ≤ 15
      · rw [if_pos hle]
        refine (Parser.Recognises.pure _).congr fun _ s u => Iff.trans ?_ (tail_length hle).symm
        exact and_congr_left' Subtype.ext_iff
      · rw [if_neg hle]
        refine (Parser.Recognises.throw _).congr fun _ s u => ⟨False.elim, fun h => ?_⟩
        have hlt := h.symbol_lt
        have hne : symbol ≠ 16 ∧ symbol ≠ 17 ∧ symbol ≠ 18 := ⟨h16, h17, h18⟩
        omega
  · rintro ⟨symbol, _, _, rfl, ⟨hpos, -, rfl⟩, hs, hl, hp, rfl⟩
    rw [← hs] at hpos ⊢
    exact ⟨hl, hpos, hp, rfl⟩
  · rintro ⟨hl, hpos, hp, rfl⟩
    exact ⟨⟨s.1.symbol, code.lengthOf s.1.symbol⟩, _, _, rfl, ⟨hpos, rfl, rfl⟩, rfl, hl, hp, rfl⟩

/-- Symbols that a code spells and that stand for `left` lengths behind `previous`. -/
def Spells (code : CodeTable) (previous : Option Nat) (left : Nat) (symbols : List LengthSymbol) :
    Prop :=
  (∀ s ∈ symbols, s.Legal ∧ 0 < code.lengthOf s.symbol) ∧
    ∃ lengths, unpackAfter previous symbols = .ok lengths ∧ lengths.length = left

/-- No symbols spell nothing but no lengths. -/
theorem spells_nil {code : CodeTable} {previous : Option Nat} {left : Nat} :
    Spells code previous left [] ↔ left = 0 := by
  constructor
  · rintro ⟨-, lengths, hu, rfl⟩
    cases hu
    rfl
  · rintro rfl
    exact ⟨fun s hs => absurd hs List.not_mem_nil, [], rfl, rfl⟩

/-- The first symbol stands for some of the lengths, and the others go on behind its value. -/
theorem spells_cons {code : CodeTable} {previous : Option Nat} {left : Nat} {s : LengthSymbol}
    {rest : List LengthSymbol} : Spells code previous left (s :: rest) ↔
      (s.Legal ∧ 0 < code.lengthOf s.symbol ∧ ∀ c v, s = .copy c v → previous = some v) ∧
        s.count ≤ left ∧ Spells code (some s.value) (left - s.count) rest := by
  have hnext : s.Legal → (if s.count = 0 then previous else some s.value) = some s.value :=
    fun hl => if_neg (Nat.pos_iff_ne_zero.1 hl.count_pos)
  constructor
  · rintro ⟨hall, lengths, hu, rfl⟩
    obtain ⟨hl, hpos⟩ := hall s List.mem_cons_self
    obtain ⟨hp, lengths, hrest, rfl⟩ := unpackAfter_cons_eq_ok.1 hu
    rw [hnext hl] at hrest
    rw [List.length_append, LengthSymbol.expand, List.length_replicate, Nat.add_sub_cancel_left]
    exact ⟨⟨hl, hpos, hp⟩, Nat.le_add_right _ _, fun t ht => hall t (List.mem_cons_of_mem _ ht),
      lengths, hrest, rfl⟩
  · rintro ⟨⟨hl, hpos, hp⟩, hle, hall, lengths, hrest, hlen⟩
    refine ⟨?_, s.expand ++ lengths, ?_, ?_⟩
    · intro t ht
      rcases List.mem_cons.1 ht with rfl | ht
      · exact ⟨hl, hpos⟩
      · exact hall t ht
    · rw [unpackAfter_cons_eq_ok, hnext hl]
      exact ⟨hp, lengths, hrest, rfl⟩
    · rw [List.length_append, LengthSymbol.expand, List.length_replicate, hlen]
      exact Nat.add_sub_cancel' hle

/-- Where no lengths are left, no symbols follow. -/
theorem spells_zero {code : CodeTable} {previous : Option Nat} {symbols : List LengthSymbol} :
    Spells code previous 0 symbols ↔ symbols = [] := by
  cases symbols with
  | nil => exact iff_of_true (spells_nil.2 rfl) rfl
  | cons s rest =>
    refine iff_of_false (fun h => ?_) (List.cons_ne_nil s rest)
    obtain ⟨⟨hl, -, -⟩, hle, -⟩ := spells_cons.1 h
    exact absurd hl.count_pos (Nat.not_lt.2 hle)

/-- Reading symbols undoes writing them. -/
theorem readSymbols_recognises {code : CodeTable} (hc : code.Canonical) (hsize : code.size = 19)
    (declared left : Nat) {previous : Option Nat}
    (hprev : ∀ v, previous = some v → v ≤ maxCodeLength) :
    (readSymbols (Decoder.ofTable code) declared previous left).Recognises fun _ symbols u =>
      Spells code previous left symbols ∧ u = symbols.flatMap (·.bits code) := by
  induction left using Nat.strongRecOn generalizing previous with
  | ind left ih =>
    rw [readSymbols]
    by_cases h0 : left = 0
    · rw [if_pos h0, h0]
      refine (Parser.Recognises.pure _).congr fun _ symbols u => ?_
      rw [spells_zero]
      refine and_congr_right ?_
      rintro rfl
      exact Iff.rfl
    · rw [if_neg h0]
      refine ((readSymbol_recognises hc hsize hprev).bind_of_mem (M := fun s _ symbols u =>
        ∃ rest, symbols = s.1 :: rest ∧ s.1.count ≤ left ∧
          Spells code (some s.1.value) (left - s.1.count) rest ∧
          u = rest.flatMap (·.bits code)) ?_).congr fun _ symbols u => ⟨?_, ?_⟩
      · rintro n ⟨s, hs⟩ u ⟨hl, -, -, -⟩
        dsimp only
        by_cases hlt : left < s.count
        · -- A symbol for more lengths than are left is refused, and none is spelled there.
          rw [if_pos hlt]
          refine (Parser.Recognises.throw _).congr fun _ symbols u => ⟨False.elim, ?_⟩
          rintro ⟨_, _, hle, -⟩
          exact absurd hlt (Nat.not_lt.2 hle)
        · rw [if_neg hlt]
          have hvalue : ∀ v, some s.value = some v → v ≤ maxCodeLength := by
            intro v hv
            cases hv
            exact hl.value_le
          refine ((ih (left - s.count) (by omega) hvalue).bind fun rest =>
            .pure (s :: rest)).congr fun _ symbols u => ⟨?_, ?_⟩
          · rintro ⟨rest, _, _, rfl, ⟨hrest, rfl⟩, rfl, rfl⟩
            exact ⟨rest, rfl, Nat.not_lt.1 hlt, hrest, List.append_nil _⟩
          · rintro ⟨rest, rfl, -, hrest, rfl⟩
            exact ⟨rest, _, [], (List.append_nil _).symm, ⟨hrest, rfl⟩, rfl, rfl⟩
      · rintro ⟨s, _, _, rfl, ⟨hl, hpos, hp, rfl⟩, rest, rfl, hle, hrest, rfl⟩
        exact ⟨spells_cons.2 ⟨⟨hl, hpos, hp⟩, hle, hrest⟩, rfl⟩
      · rintro ⟨hspells, rfl⟩
        cases symbols with
        | nil => exact absurd (spells_nil.1 hspells) h0
        | cons s rest =>
          obtain ⟨⟨hl, hpos, hp⟩, hle, hrest⟩ := spells_cons.1 hspells
          exact ⟨⟨s, hl.count_pos⟩, _, _, rfl, ⟨hl, hpos, hp, rfl⟩, rest, rfl, hle, hrest, rfl⟩

/-- A count is read as a number of bits above the least count. -/
theorem readCount_recognises (n k : Nat) :
    Parser.Recognises ((· + k) <$> BitReader.readBits n) fun _ v u =>
      k ≤ v ∧ v < k + 2 ^ n ∧ u = bitsOf n (v - k) := by
  refine ((Parser.Recognises.readBits n).map (· + k)).congr fun _ v u => ⟨?_, ?_⟩
  · rintro ⟨a, ⟨ha, rfl⟩, rfl⟩
    exact ⟨by omega, by omega, by rw [Nat.add_sub_cancel]⟩
  · rintro ⟨hge, hlt, rfl⟩
    exact ⟨v - k, ⟨by omega, rfl⟩, by omega⟩

/-- Reading a header undoes writing it, and gives nothing but well-formed headers. -/
theorem read_recognises : read.Recognises fun _ h u => h.WellFormed ∧ u = h.bits := by
  have hcode : ∀ (orderCount : Nat) (vs : List Nat) (n : Nat) (code : CodeTable) (u : List Bool),
      CodeTable.ofLengths? (placeLengths vs) = .ok code ∧ u = [] →
      code.Canonical ∧ code.size = 19 := by
    rintro orderCount vs n code u ⟨h, -⟩
    obtain ⟨hc, hlen⟩ := CodeTable.canonical_of_ofLengths? h
    exact ⟨hc, by rw [← CodeTable.length_lengths, hlen, length_placeLengths]⟩
  have hnone : ∀ v, (none : Option Nat) = some v → v ≤ maxCodeLength := nofun
  refine ((readCount_recognises 5 257).bind fun litlenCount =>
    (readCount_recognises 5 1).bind fun distCount =>
    (readCount_recognises 4 4).bind fun orderCount =>
    (Parser.Recognises.mapM (fun _ => .readBits 3) (transmissionOrder.take orderCount)).bind
      fun transmitted => (Parser.Recognises.ofExcept _).bind_of_mem fun n code u h =>
    (readSymbols_recognises (hcode orderCount transmitted n code u h).1
      (hcode orderCount transmitted n code u h).2 (litlenCount + distCount)
      (litlenCount + distCount) hnone).bind fun symbols => .pure _).congr
    fun n h u => ⟨?_, ?_⟩
  · rintro ⟨lc, _, _, rfl, ⟨hlge, hllt, rfl⟩, dc, _, _, rfl, ⟨hdge, hdlt, rfl⟩, oc, _, _, rfl,
      ⟨hoge, holt, rfl⟩, vs, _, _, rfl, hvs, code, _, _, rfl, ⟨hcode, rfl⟩, symbols, _, _, rfl,
      ⟨⟨hsymbols, lengths, hunpack, hlen⟩, rfl⟩, rfl, rfl⟩
    -- The code was made of the lengths in their places, so the lengths in order are its own again.
    obtain ⟨hvlen, hvlt, rfl⟩ := (Language.mapM_number 3 _ _ _ _).1 hvs
    have h19 : transmissionOrder.length = 19 := rfl
    rw [List.length_take] at hvlen
    obtain ⟨hc, hlengths⟩ := CodeTable.canonical_of_ofLengths? hcode
    obtain ⟨htake, hdrop⟩ := map_lengthOf_order hlengths (k := oc) (by omega) (by omega)
    dsimp only [ofParts]
    refine ⟨⟨hlge, by dsimp only; omega, hdge, by dsimp only; omega, hoge, by dsimp only; omega, hc,
      by rw [← CodeTable.length_lengths, hlengths, length_placeLengths], ?_, hdrop,
      fun s hs => (hsymbols s hs).1, fun s hs => (hsymbols s hs).2, ⟨lengths, hunpack, hlen⟩, rfl⟩,
      ?_⟩
    · intro m hm
      dsimp only at hm
      rw [hlengths] at hm
      exact placeLengths_le (fun v hv => Nat.le_of_lt_succ (hvlt v hv)) m hm
    · rw [bits, ← htake, List.flatMap_map, List.append_nil, List.nil_append]
  · rintro ⟨hw, rfl⟩
    have hle := hw.litlenCount_le
    have hdle := hw.distCount_le
    have hole := hw.orderCount_le
    have h19 : transmissionOrder.length = 19 := rfl
    -- Those left out were zero, so putting the others in their places gives all lengths of the code.
    have hplace := placeLengths_map_lengthOf hw.code_size hw.left_out
    obtain ⟨lengths, hunpack, hlen⟩ := hw.unpacks
    refine ⟨h.litlenCount, _, _, rfl, ⟨hw.litlenCount_ge, by omega, rfl⟩, h.distCount, _, _, rfl,
      ⟨hw.distCount_ge, by omega, rfl⟩, h.orderCount, _, _, rfl, ⟨hw.orderCount_ge, by omega, rfl⟩,
      (transmissionOrder.take h.orderCount).map h.code.lengthOf, _, _, rfl, ?_, h.code, [], _, rfl,
      ⟨by rw [hplace]; exact hw.code_canonical.ofLengths?_eq, rfl⟩, h.symbols, _, [],
      (List.append_nil _).symm, ⟨⟨fun s hs => ⟨hw.legal s hs, hw.coded s hs⟩,
        lengths, hunpack, hlen⟩, rfl⟩, ?_, rfl⟩
    · refine (Language.mapM_number 3 _ _ _ _).2 ⟨List.length_map _, ?_, ?_⟩
      · intro v hv
        obtain ⟨s, -, rfl⟩ := List.mem_map.1 hv
        exact Nat.lt_succ_of_le (CodeTable.lengthOf_le_of_lengths hw.code_le s)
      · rw [List.flatMap_map]
    · cases h
      have hb := hw.bitSize_eq
      dsimp only at hb
      rw [hb]
      rfl

end TableHeader

end DeflateRecoder
