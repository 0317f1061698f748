import DeflateRecoder.Bits.Reader
import DeflateRecoder.Proofs.Bits.Basic

/-!
# The reader as a cursor over bits

`BitReader.bits` are the bits that a reader has left, wherever they are kept. Each read takes bits
off their front: `readBits_ok` and `readBytes_ok` say what comes back, `readBits_error` and
`readBytes_error` when nothing does. The window is right as long as it holds no more than it counts
(`BitReader.Valid`), which every operation keeps.
-/

namespace DeflateRecoder

namespace BitReader

/-- The window has no bits beyond those that count, and they come from bytes that were taken. -/
structure Valid (r : BitReader) : Prop where
  window_lt : r.window < 2 ^ r.held
  held_le : r.held ≤ 8 * r.taken

/-- The bits not yet consumed. -/
def bits (r : BitReader) : List Bool := bitsOf r.held r.window ++ bytesBits r.rest

/-- The number of bytes that the reader was given. -/
def byteCount (r : BitReader) : Nat := r.taken + r.rest.length

@[simp] theorem length_bits (r : BitReader) : r.bits.length = r.remaining := by
  rw [bits, List.length_append, length_bitsOf, length_bytesBits, remaining]
  omega

/-- A new reader is valid. -/
theorem valid_ofBytes (bytes : List UInt8) : (ofBytes bytes).Valid :=
  ⟨Nat.one_pos, Nat.zero_le _⟩

@[simp] theorem bits_ofBytes (bytes : List UInt8) : (ofBytes bytes).bits = bytesBits bytes := rfl

@[simp] theorem position_ofBytes (bytes : List UInt8) : (ofBytes bytes).position = 0 := rfl

/-- What is consumed and what is not make up the input. -/
theorem Valid.position_add {r : BitReader} (h : r.Valid) :
    r.position + r.remaining = 8 * r.byteCount := by
  have := h.held_le
  rw [position, remaining, byteCount]
  omega

/-- The cursor is at a byte boundary when the position is a multiple of eight. -/
theorem Valid.position_mod {r : BitReader} (h : r.Valid) :
    r.held % 8 = paddingAt r.position := by
  have := h.held_le
  rw [position, paddingAt]
  omega

/-! ## The window -/

/-- Moving bytes into the window keeps the bits, and the window then holds that many more unless the
input has ended. -/
theorem load_spec (k : Nat) {r : BitReader} (h : r.Valid) :
    (r.load k).Valid ∧ (r.load k).bits = r.bits ∧ (r.load k).position = r.position ∧
      (r.load k).byteCount = r.byteCount ∧
      ((r.load k).rest = [] ∨ (r.load k).held = r.held + 8 * k) := by
  induction k generalizing r with
  | zero => exact ⟨h, rfl, rfl, rfl, .inr rfl⟩
  | succ k ih =>
    rw [load]
    split
    · next hr => exact ⟨h, rfl, rfl, rfl, .inl hr⟩
    · next b rest hr =>
      have hw := h.window_lt
      have hl := h.held_le
      have hb : b.toNat < 2 ^ 8 := b.toNat_lt
      have hv : Valid ⟨rest, r.taken + 1, r.window + b.toNat <<< r.held, r.held + 8⟩ :=
        ⟨add_shiftLeft_lt hw hb, by dsimp only; omega⟩
      obtain ⟨h₁, h₂, h₃, h₄, h₅⟩ := ih hv
      refine ⟨h₁, ?_, ?_, ?_, ?_⟩
      · rw [h₂, bits, bits, hr, bytesBits_cons, ← List.append_assoc]
        dsimp only
        rw [bitsOf_add_shiftLeft hw]
      · rw [h₃, position, position]
        dsimp only
        omega
      · rw [h₄, byteCount, byteCount, hr, List.length_cons]
        dsimp only
        omega
      · exact h₅.imp id fun h₅ => by rw [h₅]; dsimp only; omega

/-- Filling the window keeps the bits, and enough of them are held unless the input has ended. -/
theorem refill_spec (n : Nat) {r : BitReader} (h : r.Valid) :
    (r.refill n).Valid ∧ (r.refill n).bits = r.bits ∧ (r.refill n).position = r.position ∧
      (r.refill n).byteCount = r.byteCount ∧ ((r.refill n).rest = [] ∨ n ≤ (r.refill n).held) := by
  have top : ∀ {r : BitReader}, r.Valid →
      (r.load ((n - r.held + 7) / 8)).Valid ∧ (r.load ((n - r.held + 7) / 8)).bits = r.bits ∧
      (r.load ((n - r.held + 7) / 8)).position = r.position ∧
      (r.load ((n - r.held + 7) / 8)).byteCount = r.byteCount ∧
      ((r.load ((n - r.held + 7) / 8)).rest = [] ∨
        n ≤ (r.load ((n - r.held + 7) / 8)).held) := by
    intro r h
    obtain ⟨h₁, h₂, h₃, h₄, h₅⟩ := load_spec ((n - r.held + 7) / 8) h
    exact ⟨h₁, h₂, h₃, h₄, h₅.imp id fun h₅ => by rw [h₅]; omega⟩
  unfold refill
  split
  · dsimp only
    split
    · exact top h
    · obtain ⟨h₁, h₂, h₃, h₄, -⟩ := load_spec ((63 - r.held) / 8) h
      obtain ⟨k₁, k₂, k₃, k₄, k₅⟩ := top h₁
      exact ⟨k₁, k₂.trans h₂, k₃.trans h₃, k₄.trans h₄, k₅⟩
  · next hn => exact ⟨h, rfl, rfl, rfl, .inr (Nat.le_of_not_lt hn)⟩

/-- Consuming held bits takes them off the front. -/
theorem consume_spec {n : Nat} {r : BitReader} (h : r.Valid) (hn : n ≤ r.held) :
    (r.consume n).Valid ∧ (r.consume n).bits = r.bits.drop n ∧
      (r.consume n).position = r.position + n ∧ (r.consume n).byteCount = r.byteCount := by
  have hw := h.window_lt
  have hl := h.held_le
  have hsplit : n + (r.held - n) = r.held := by omega
  refine ⟨⟨?_, ?_⟩, ?_, ?_, rfl⟩
  · show r.window >>> n < 2 ^ (r.held - n)
    rw [Nat.shiftRight_eq_div_pow, Nat.div_lt_iff_lt_mul (Nat.two_pow_pos n), ← Nat.pow_add,
      Nat.add_comm, hsplit]
    exact hw
  · show r.held - n ≤ 8 * r.taken
    omega
  · show bitsOf (r.held - n) (r.window >>> n) ++ bytesBits r.rest = _
    rw [bits, ← hsplit, bitsOf_add, List.append_assoc, Nat.shiftRight_eq_div_pow,
      List.drop_append_of_le_length (Nat.le_of_eq (length_bitsOf _ _).symm),
      List.drop_of_length_le (by simp), List.nil_append, hsplit]
  · show 8 * r.taken - (r.held - n) = 8 * r.taken - r.held + n
    omega

/-- The next bits are the low bits of the window when it holds them. -/
theorem take_bits {n : Nat} {r : BitReader} (hn : n ≤ r.held) :
    r.bits.take n = bitsOf n r.window := by
  have hsplit : n + (r.held - n) = r.held := by omega
  rw [bits, ← hsplit, bitsOf_add, List.append_assoc,
    List.take_append_of_le_length (Nat.le_of_eq (length_bitsOf _ _).symm),
    List.take_of_length_le (by simp)]

/-! ## Reads -/

/-- As long as there are enough bits a read gives the number that they spell. -/
theorem readBits_ok {n : Nat} {r : BitReader} (h : r.Valid) (hn : n ≤ r.remaining) :
    ∃ r', readBits n r = .ok (valueOf (r.bits.take n)) r' ∧ r'.Valid ∧
      r'.bits = r.bits.drop n ∧ r'.position = r.position + n ∧ r'.byteCount = r.byteCount := by
  obtain ⟨h₁, h₂, h₃, h₄, h₅⟩ := refill_spec n h
  have hheld : n ≤ (r.refill n).held := by
    rcases h₅ with h₅ | h₅
    · have := remaining_refill n r
      rw [remaining, h₅, List.length_nil] at this
      omega
    · exact h₅
  obtain ⟨k₁, k₂, k₃, k₄⟩ := consume_spec h₁ hheld
  refine ⟨(r.refill n).consume n, ?_, k₁, by rw [k₂, h₂], by rw [k₃, h₃], by rw [k₄, h₄]⟩
  rw [← h₂, take_bits hheld, valueOf_bitsOf, readBits, if_neg (Nat.not_lt.2 hheld),
    Nat.one_shiftLeft]

/-- A read of one bit gives the first bit there is. -/
theorem readBits_one {r : BitReader} (h : r.Valid) {b : Bool} {u : List Bool}
    (hb : r.bits = b :: u) : ∃ r', readBits 1 r = .ok b.toNat r' ∧ r'.Valid ∧ r'.bits = u ∧
      r'.position = r.position + 1 := by
  obtain ⟨r', e, hr', hu, hposition, -⟩ := readBits_ok (n := 1) h (by
    rw [← r.length_bits, hb, List.length_cons]
    omega)
  simp only [hb, List.take_succ_cons, List.take_zero, valueOf_cons, valueOf_nil, Nat.mul_zero,
    Nat.add_zero] at e
  rw [hb, List.drop_one, List.tail_cons] at hu
  exact ⟨r', e, hr', hu, hposition⟩

/-- When there are too few bits a read fails and consumes nothing. -/
theorem readBits_error {n : Nat} {r : BitReader} (h : r.Valid) (hn : r.remaining < n) :
    ∃ r', readBits n r = .error .unexpectedEnd r' ∧ r'.Valid ∧ r'.bits = r.bits ∧
      r'.position = r.position ∧ r'.byteCount = r.byteCount := by
  obtain ⟨h₁, h₂, h₃, h₄, -⟩ := refill_spec n h
  refine ⟨r.refill n, ?_, h₁, h₂, h₃, h₄⟩
  have hr := remaining_refill n r
  have hheld : (r.refill n).held < n := by
    rw [remaining] at hr
    omega
  rw [readBits, if_pos hheld]

/-- Skipping to the next byte boundary drops the padding. -/
theorem align_spec {r : BitReader} (h : r.Valid) :
    r.align.Valid ∧ r.align.bits = r.bits.drop (paddingAt r.position) ∧
      r.align.position = r.position + paddingAt r.position ∧ r.align.byteCount = r.byteCount := by
  rw [← h.position_mod]
  exact consume_spec h (Nat.mod_le _ _)

/-- Bytes taken out of the window are the next ones, and they are all unless fewer than eight bits
stay behind. -/
theorem drain_spec (n : Nat) {r : BitReader} (h : r.Valid) :
    (drain n r).2.Valid ∧ (drain n r).1.length ≤ n ∧
      r.bits = bytesBits (drain n r).1 ++ (drain n r).2.bits ∧
      (drain n r).2.position = r.position + 8 * (drain n r).1.length ∧
      (drain n r).2.byteCount = r.byteCount ∧
      ((drain n r).1.length = n ∨ (drain n r).2.held < 8) := by
  induction n generalizing r with
  | zero => exact ⟨h, Nat.le_refl _, rfl, rfl, rfl, .inl rfl⟩
  | succ n ih =>
    rw [drain]
    split
    · next hh => exact ⟨h, Nat.zero_le _, rfl, rfl, rfl, .inr hh⟩
    · next hh =>
      obtain ⟨k₁, k₂, k₃, k₄⟩ := consume_spec (n := 8) h (by omega)
      obtain ⟨h₁, h₂, h₃, h₄, h₅, h₆⟩ := ih k₁
      refine ⟨h₁, Nat.succ_le_succ h₂, ?_, ?_, by rw [h₅, k₄], h₆.imp (congrArg _) id⟩
      · dsimp only
        rw [bytesBits_cons, bitsOf_toUInt8, ← take_bits (by omega), List.append_assoc, ← h₃, k₂,
          List.take_append_drop]
      · dsimp only
        rw [h₄, k₃, List.length_cons]
        omega

/-- As long as there are enough bytes behind the next byte boundary, a read gives them. -/
theorem readBytes_ok {n : Nat} {r : BitReader} (h : r.Valid)
    (hn : paddingAt r.position + 8 * n ≤ r.remaining) :
    ∃ bytes r', readBytes n r = .ok bytes r' ∧ bytes.length = n ∧ r'.Valid ∧
      r.bits.drop (paddingAt r.position) = bytesBits bytes ++ r'.bits ∧
      r'.position = r.position + paddingAt r.position + 8 * n ∧ r'.byteCount = r.byteCount := by
  obtain ⟨a₁, a₂, a₃, a₄⟩ := align_spec h
  obtain ⟨h₁, h₂, h₃, h₄, h₅, h₆⟩ := drain_spec n a₁
  -- What the bit buffer held of the bytes, and the cursor behind them.
  generalize hdrain : drain n r.align = drained at h₁ h₂ h₃ h₄ h₅ h₆
  obtain ⟨bs, d⟩ := drained
  dsimp only at h₁ h₂ h₃ h₄ h₅ h₆
  have ha := a₁.position_add
  have hb := h.position_add
  have hc := h₁.position_add
  have hm := h₁.position_mod
  have hal := add_paddingAt_mod r.position
  have hz : d.held % 8 = 0 := by
    rw [hm, paddingAt_eq_zero]
    rw [h₄, a₃]
    omega
  have hk : n - bs.length ≤ d.rest.length := by
    rcases h₆ with h₆ | h₆
    · omega
    · rw [h₄, h₅, a₃, a₄, remaining] at hc
      omega
  have hheld : n - bs.length ≠ 0 → d.held = 0 := by
    intro hne
    rcases h₆ with h₆ | h₆ <;> omega
  refine ⟨bs ++ d.rest.take (n - bs.length),
    { d with rest := d.rest.drop (n - bs.length), taken := d.taken + (n - bs.length) },
    ?_, ?_, ?_, ?_, ?_, ?_⟩
  · rw [readBytes, hdrain]
    dsimp only
    rw [if_neg (by rw [List.length_take]; omega)]
  · rw [List.length_append, List.length_take]
    omega
  · refine ⟨h₁.window_lt, ?_⟩
    have := h₁.held_le
    dsimp only
    omega
  · rw [← a₂, h₃, bytesBits_append, List.append_assoc]
    congr 1
    rw [bits, bits]
    dsimp only
    by_cases hne : n - bs.length = 0
    · rw [hne, List.take_zero, List.drop_zero, bytesBits_nil, List.nil_append]
    · rw [hheld hne, bitsOf_zero, List.nil_append, List.nil_append, ← bytesBits_append,
        List.take_append_drop]
  · have hl := h₁.held_le
    have hp : d.position = 8 * d.taken - d.held := rfl
    show 8 * (d.taken + (n - bs.length)) - d.held = _
    rw [h₄, a₃] at hp
    omega
  · rw [← a₄, ← h₅, byteCount, byteCount, List.length_drop]
    dsimp only
    omega

/-- When there are too few bytes behind the next byte boundary, a read fails; the cursor is then at
a byte boundary at or behind that one. -/
theorem readBytes_error {n : Nat} {r : BitReader} (h : r.Valid)
    (hn : r.remaining < paddingAt r.position + 8 * n) :
    ∃ r', readBytes n r = .error .unexpectedEnd r' ∧ r'.Valid ∧ r'.position % 8 = 0 ∧
      r.position + paddingAt r.position ≤ r'.position ∧ r'.byteCount = r.byteCount ∧
      r'.bits = r.bits.drop (r'.position - r.position) := by
  obtain ⟨a₁, a₂, a₃, a₄⟩ := align_spec h
  obtain ⟨h₁, h₂, h₃, h₄, h₅, h₆⟩ := drain_spec n a₁
  have hb := h.position_add
  have hc := h₁.position_add
  have hal := add_paddingAt_mod r.position
  refine ⟨(drain n r.align).2, ?_, h₁, by rw [h₄, a₃]; omega, by rw [h₄, a₃]; omega,
    by rw [h₅, a₄], ?_⟩
  · rw [h₄, h₅, a₃, a₄, remaining] at hc
    rw [readBytes]
    dsimp only
    rw [if_pos (by rw [List.length_take]; omega)]
  · have hdropped := congrArg (List.drop (8 * (drain n r.align).1.length)) h₃
    rw [List.drop_left' (length_bytesBits _), a₂, List.drop_drop] at hdropped
    rw [← hdropped, h₄, a₃]
    congr 1
    omega

end BitReader

end DeflateRecoder
