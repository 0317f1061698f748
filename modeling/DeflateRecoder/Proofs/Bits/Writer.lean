import DeflateRecoder.Error
import DeflateRecoder.Proofs.Bits.Basic

/-!
# What a writer has written

`BitWriter.bits` are the bits that a writer has been given, the padding included. Each operation
puts its bits behind them (`BitWriter.Puts`), and `bytesBits_finish` says that the bytes of a
finished writer have these bits and zeros up to the next byte boundary. The bits of the byte begun
must not be more than are counted and less than a byte (`BitWriter.Valid`), which every operation
keeps.
-/

namespace DeflateRecoder

namespace BitWriter

/-- The byte begun has no bits beyond those that count, and is not complete. -/
structure Valid (w : BitWriter) : Prop where
  acc_lt : w.acc < 2 ^ w.pending
  pending_lt : w.pending < 8

/-- The bits written so far. -/
def bits (w : BitWriter) : List Bool := bytesBits w.bytes.toList ++ bitsOf w.pending w.acc

@[simp] theorem length_bits (w : BitWriter) : w.bits.length = w.bitLength := by
  rw [bits, List.length_append, length_bytesBits, length_bitsOf, Array.length_toList, bitLength]

/-- Writing led from one writer to another by putting bits behind those written. -/
def Puts (w w' : BitWriter) (u : List Bool) : Prop := w'.Valid ∧ w'.bits = w.bits ++ u

/-- Doing nothing puts no bits. -/
theorem Puts.refl {w : BitWriter} (h : w.Valid) : w.Puts w [] := ⟨h, (List.append_nil _).symm⟩

/-- What is put first comes first. -/
theorem Puts.trans {w₁ w₂ w₃ : BitWriter} {u v : List Bool} (h : w₁.Puts w₂ u)
    (k : w₂.Puts w₃ v) : w₁.Puts w₃ (u ++ v) :=
  ⟨k.1, by rw [k.2, h.2, List.append_assoc]⟩

/-- The writer is as much longer as the bits put are many. -/
theorem Puts.bitLength_eq {w w' : BitWriter} {u : List Bool} (h : w.Puts w' u) :
    w'.bitLength = w.bitLength + u.length := by
  rw [← length_bits, h.2, List.length_append, length_bits]

/-- An empty writer is valid. -/
theorem valid_empty : empty.Valid := ⟨Nat.one_pos, by decide⟩

/-- A writer that has begun no byte is valid. -/
theorem valid_of_pending {w : BitWriter} (ha : w.acc = 0) (hp : w.pending = 0) : w.Valid :=
  ⟨by rw [ha, hp]; exact Nat.one_pos, by rw [hp]; decide⟩

/-- Moving whole bytes out of the pending bits keeps the bits. -/
theorem flush_spec {w : BitWriter} (h : w.acc < 2 ^ w.pending) :
    w.flush.Valid ∧ w.flush.bits = w.bits := by
  fun_induction flush w with
  | case1 w hp ih =>
    have hsplit : 8 + (w.pending - 8) = w.pending := by omega
    have hacc : w.acc >>> 8 < 2 ^ (w.pending - 8) := by
      rw [Nat.shiftRight_eq_div_pow, Nat.div_lt_iff_lt_mul (Nat.two_pow_pos 8), ← Nat.pow_add,
        Nat.add_comm, hsplit]
      exact h
    obtain ⟨hv, hb⟩ := ih hacc
    refine ⟨hv, ?_⟩
    rw [hb, bits, bits, ← hsplit, bitsOf_add, ← List.append_assoc, hsplit]
    dsimp only
    rw [Array.toList_push, bytesBits_append, bytesBits_cons, bytesBits_nil, List.append_nil,
      bitsOf_toUInt8, Nat.shiftRight_eq_div_pow]
  | case2 w hp => exact ⟨⟨h, by omega⟩, rfl⟩

/-- Writing bits puts them behind those written. -/
theorem puts_writeBits (n v : Nat) {w : BitWriter} (h : w.Valid) :
    w.Puts (w.writeBits n v) (bitsOf n v) := by
  have ha := h.acc_lt
  have hv : v % (1 <<< n) < 2 ^ n := by
    rw [Nat.one_shiftLeft]
    exact Nat.mod_lt _ (Nat.two_pow_pos n)
  obtain ⟨h₁, h₂⟩ := @flush_spec
    ⟨w.bytes, w.acc + (v % (1 <<< n)) <<< w.pending, w.pending + n⟩ (add_shiftLeft_lt ha hv)
  refine ⟨h₁, ?_⟩
  rw [writeBits, h₂, bits, bits, List.append_assoc]
  dsimp only
  rw [bitsOf_add_shiftLeft ha, Nat.one_shiftLeft, bitsOf_mod]

/-- Writing a bit puts it. -/
theorem puts_writeBit (b : Bool) {w : BitWriter} (h : w.Valid) : w.Puts (w.writeBit b) [b] := by
  obtain ⟨h₁, h₂⟩ := puts_writeBits 1 b.toNat h
  refine ⟨h₁, h₂.trans ?_⟩
  cases b <;> rfl

/-- Writing bits the highest first puts them behind those written in that order. -/
theorem puts_writeReversed (n v : Nat) {w : BitWriter} (h : w.Valid) :
    w.Puts (w.writeReversed n v) (bitsOf n v).reverse := by
  rw [← bitsOf_reverseBits]
  exact puts_writeBits n (reverseBits n v) h

/-- Padding puts zeros behind the bits up to the next byte boundary. -/
theorem alignToByte_spec {w : BitWriter} (h : w.Valid) :
    w.alignToByte.acc = 0 ∧ w.alignToByte.pending = 0 ∧
      w.alignToByte.bits = w.bits ++ List.replicate (paddingAt w.bitLength) false := by
  have ha := h.acc_lt
  have hp := h.pending_lt
  have hb : w.bitLength = 8 * w.bytes.size + w.pending := rfl
  unfold alignToByte
  split
  · next h0 =>
    rw [h0, Nat.pow_zero, Nat.lt_one_iff] at ha
    refine ⟨ha, h0, ?_⟩
    rw [paddingAt_eq_zero (by omega)]
    exact (List.append_nil _).symm
  · next h0 =>
    refine ⟨rfl, rfl, ?_⟩
    have hpad : paddingAt w.bitLength = 8 - w.pending := by
      unfold paddingAt
      omega
    have hsplit : w.pending + (8 - w.pending) = 8 := by omega
    have hbits := bitsOf_add w.pending (8 - w.pending) w.acc
    rw [hsplit, Nat.div_eq_of_lt ha, bitsOf_zero_right] at hbits
    rw [bits, bits, hpad, List.append_assoc, ← hbits]
    dsimp only
    rw [Array.toList_push, bytesBits_append, bytesBits_cons, bytesBits_nil, List.append_nil,
      bitsOf_toUInt8, bitsOf_zero, List.append_nil]

/-- Writing bytes puts padding and the bytes behind the bits written. -/
theorem puts_writeBytes (bs : List UInt8) {w : BitWriter} (h : w.Valid) :
    w.Puts (w.writeBytes bs)
      (List.replicate (paddingAt w.bitLength) false ++ bytesBits bs) := by
  obtain ⟨ha, hp, hb⟩ := alignToByte_spec h
  refine ⟨valid_of_pending ha hp, ?_⟩
  have hlist : (w.writeBytes bs).bytes.toList = w.alignToByte.bytes.toList ++ bs :=
    Array.toList_appendList
  rw [← List.append_assoc, ← hb, bits, bits, hlist, hp, bytesBits_append, List.append_assoc]
  show _ ++ (_ ++ bitsOf w.alignToByte.pending _) = _
  rw [hp, bitsOf_zero, bitsOf_zero, List.append_nil, List.append_nil]

/-- The two bytes of a 16-bit number. -/
theorem bytesBits_word (v : Nat) :
    bytesBits [v.toUInt8, (v / 256).toUInt8] = bitsOf 16 v := by
  have hbase : v / 256 = v / 2 ^ 8 := rfl
  rw [bytesBits_cons, bytesBits_cons, bytesBits_nil, List.append_nil, bitsOf_toUInt8,
    bitsOf_toUInt8, show (16 : Nat) = 8 + 8 from rfl, bitsOf_add, hbase]

/-- Writing a word puts zeros up to the next byte boundary and the 16 bits of the word. -/
theorem puts_writeWord (v : Nat) {w : BitWriter} (h : w.Valid) :
    w.Puts (w.writeWord v) (List.replicate (paddingAt w.bitLength) false ++ bitsOf 16 v) := by
  rw [← bytesBits_word]
  exact puts_writeBytes _ h

/-- Writing the parts of a list one behind the other puts the bits of each. -/
theorem puts_foldlM {α : Type} {f : BitWriter → α → Except Error BitWriter} {g : α → List Bool}
    {l : List α} (hf : ∀ a ∈ l, ∀ w : BitWriter, w.Valid → ∃ w', f w a = .ok w' ∧ w.Puts w' (g a))
    {w : BitWriter} (h : w.Valid) :
    ∃ w', l.foldlM f w = .ok w' ∧ w.Puts w' (l.flatMap g) := by
  induction l generalizing w with
  | nil => exact ⟨w, rfl, .refl h⟩
  | cons a l ih =>
    obtain ⟨w₁, e₁, p₁⟩ := hf a List.mem_cons_self w h
    obtain ⟨w₂, e₂, p₂⟩ := ih (fun a ha => hf a (List.mem_cons_of_mem _ ha)) p₁.1
    refine ⟨w₂, ?_, p₁.trans p₂⟩
    rw [List.foldlM_cons, e₁]
    exact e₂

/-- Writing one element after the other puts their bits in the same order. -/
theorem puts_foldl {α : Type} {f : BitWriter → α → BitWriter} {g : α → List Bool} (l : List α)
    (hf : ∀ a (w : BitWriter), w.Valid → w.Puts (f w a) (g a)) {w : BitWriter} (h : w.Valid) :
    w.Puts (l.foldl f w) (l.flatMap g) := by
  induction l generalizing w with
  | nil => exact .refl h
  | cons a l ih => exact (hf a w h).trans (ih (hf a w h).1)

/-- A finished writer gives its bits and padding. -/
theorem bytesBits_finish {w : BitWriter} (h : w.Valid) :
    bytesBits w.finish = w.bits ++ List.replicate (paddingAt w.bitLength) false := by
  obtain ⟨-, hp, hb⟩ := alignToByte_spec h
  rw [← hb, finish, bits, hp, bitsOf_zero, List.append_nil]

/-- A finished writer gives as many bytes as its bits need. -/
theorem length_finish {w : BitWriter} (h : w.Valid) : w.finish.length = (w.bitLength + 7) / 8 := by
  have hl := congrArg List.length (bytesBits_finish h)
  rw [length_bytesBits, List.length_append, length_bits, List.length_replicate, paddingAt] at hl
  omega

end BitWriter

end DeflateRecoder
