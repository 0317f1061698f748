import DeflateRecoder.Proofs.Bits.Reader

/-!
# Inputs that were cut off

A reader is cut from another one when it is at the same bit of an input that may end earlier
(`BitReader.CutFrom`). A parser is safe to cut when nothing else can come of this than that the
input ends too early: wherever the parser succeeds, it gives the same on a reader that was cut from
the one it was run on, and leaves one that was cut from the one it left, or it fails with
`Error.unexpectedEnd` (`Parser.CutSafe`). All reads are safe to cut, and so are parsers composed of
parsers that are.
-/

namespace DeflateRecoder

/-- A reader `q` at the same bit as `r`, of an input that may have been cut off further on. -/
structure BitReader.CutFrom (r q : BitReader) : Prop where
  valid : r.Valid
  valid_cut : q.Valid
  position_eq : q.position = r.position
  prefix_bits : q.bits <+: r.bits

namespace BitReader.CutFrom

variable {r q r' q' : BitReader} {n : Nat}

/-- An input and its first bytes, from the first bit on. -/
theorem take (bytes : List UInt8) (k : Nat) :
    (BitReader.ofBytes bytes).CutFrom (BitReader.ofBytes (bytes.take k)) where
  valid := BitReader.valid_ofBytes _
  valid_cut := BitReader.valid_ofBytes _
  position_eq := rfl
  prefix_bits := by
    rw [BitReader.bits_ofBytes, BitReader.bits_ofBytes, ← List.take_append_drop k bytes,
      bytesBits_append, List.take_append_drop]
    exact List.prefix_append _ _

/-- The next bits are the same as long as both readers have them. -/
theorem take_bits (h : r.CutFrom q) (hn : n ≤ q.remaining) : q.bits.take n = r.bits.take n := by
  obtain ⟨rest, hrest⟩ := h.prefix_bits
  rw [← hrest, List.take_append_of_le_length (by rw [BitReader.length_bits]; exact hn)]

/-- Behind as many bits the one reader is again cut from the other. -/
theorem drop_bits (h : r.CutFrom q) (hn : n ≤ q.remaining) : q.bits.drop n <+: r.bits.drop n := by
  obtain ⟨rest, hrest⟩ := h.prefix_bits
  rw [← hrest, List.drop_append_of_le_length (by rw [BitReader.length_bits]; exact hn)]
  exact List.prefix_append _ _

end BitReader.CutFrom

/-- Where the parser succeeds, it does the same if the input is cut off, or it fails because the
input ends. -/
def Parser.CutSafe {α : Type} (p : Parser α) : Prop :=
  ∀ ⦃r q a r'⦄, r.CutFrom q → p r = .ok a r' →
    (∃ q', p q = .ok a q' ∧ r'.CutFrom q') ∨ ∃ q', p q = .error .unexpectedEnd q'

namespace Parser.CutSafe

variable {α β : Type} {p : Parser α}

/-! ## Composed parsers -/

/-- A parser that reads nothing is not affected by a cut. -/
theorem pure (a : α) : Parser.CutSafe (Pure.pure a : Parser α) := by
  intro r q _ _ hcut e
  cases e
  exact .inl ⟨q, rfl, hcut⟩

/-- Nor is one that fails whatever comes. -/
theorem throw (e : Error) : Parser.CutSafe (MonadExcept.throw e : Parser α) := by
  intro _ _ _ _ _ he
  cases he

/-- A cut meets the first of two parsers or the second, and each of them runs out of bits or does
what it did. -/
theorem bind {f : α → Parser β} (hp : p.CutSafe) (hf : ∀ a, (f a).CutSafe) :
    Parser.CutSafe (p >>= f) := by
  intro r q b r' hcut e
  simp only [Bind.bind, EStateM.bind] at e ⊢
  split at e
  · next a r₁ h =>
    rcases hp hcut h with ⟨q₁, hq, hcut₁⟩ | ⟨q₁, hq⟩
    · rw [hq]
      exact hf a hcut₁ e
    · rw [hq]
      exact .inr ⟨q₁, rfl⟩
  · cases e

/-- A choice between parsers that are safe is safe. -/
theorem ite {c : Prop} [Decidable c] {q : Parser α} (hp : p.CutSafe) (hq : q.CutSafe) :
    Parser.CutSafe (if c then p else q) := by
  split <;> assumption

/-- Mapping what a safe parser reads is safe. -/
theorem map (f : α → β) (hp : p.CutSafe) : Parser.CutSafe (f <$> p) := by
  rw [map_eq_pure_bind]
  exact hp.bind fun _ => .pure _

/-- Turning a result into a parser reads nothing, so a cut does not affect it. -/
theorem ofExcept (x : Except Error α) : (Parser.ofExcept x).CutSafe := by
  cases x with
  | ok a => exact .pure a
  | error e => exact .throw e

/-- Safe parsers in a row are safe, by induction on the list. -/
theorem mapM {f : α → Parser β} (hf : ∀ a, (f a).CutSafe) (l : List α) :
    Parser.CutSafe (l.mapM f) := by
  induction l with
  | nil => exact .pure []
  | cons a l ih =>
    rw [List.mapM_cons]
    exact (hf a).bind fun _ => ih.bind fun _ => .pure _

/-! ## Reads -/

/-- A number whose bits were cut off is not read, because the input ends. One whose bits are all
there is read as before. -/
theorem readBits (n : Nat) : (BitReader.readBits n).CutSafe := by
  intro r q v r' hcut e
  have hn : n ≤ r.remaining := by
    have := BitReader.readBits_remaining e
    omega
  obtain ⟨r₁, he, hr₁, hb, hpos, -⟩ := BitReader.readBits_ok hcut.valid hn
  rw [he] at e
  cases e
  rcases Nat.lt_or_ge q.remaining n with hq | hq
  · obtain ⟨q', he', -⟩ := BitReader.readBits_error hcut.valid_cut hq
    exact .inr ⟨q', he'⟩
  · obtain ⟨q', he', hq', hb', hpos', -⟩ := BitReader.readBits_ok hcut.valid_cut hq
    rw [hcut.take_bits hq] at he'
    refine .inl ⟨q', he', hr₁, hq', ?_, ?_⟩
    · rw [hpos', hpos, hcut.position_eq]
    · rw [hb', hb]
      exact hcut.drop_bits hq

/-- Reading a bit is safe like reading a number of one bit. -/
theorem readBit : BitReader.readBit.CutSafe := (readBits 1).bind fun _ => .pure _

/-- Padding is never cut off, since an input ends at a byte boundary. -/
theorem alignToByte : BitReader.alignToByte.CutSafe := by
  intro r q _ _ hcut e
  cases e
  obtain ⟨hr, hb, hpos, -⟩ := BitReader.align_spec hcut.valid
  obtain ⟨hq, hb', hpos', -⟩ := BitReader.align_spec hcut.valid_cut
  have hpadding : paddingAt q.position ≤ q.remaining := by
    rw [← hcut.valid_cut.position_mod, BitReader.remaining]
    have := Nat.mod_le q.held 8
    omega
  rw [hcut.position_eq] at hpadding hb' hpos'
  refine .inl ⟨q.align, rfl, hr, hq, hpos'.trans hpos.symm, ?_⟩
  rw [hb, hb']
  exact hcut.drop_bits hpadding

/-- Reading a word is safe: if its padding can be skipped, it is left to read a number. -/
theorem readWord : BitReader.readWord.CutSafe := alignToByte.bind fun _ => readBits 16

/-- Bytes that are not all there are not read, because the input ends. -/
theorem readBytes (n : Nat) : (BitReader.readBytes n).CutSafe := by
  intro r q bytes r' hcut e
  rcases Nat.lt_or_ge r.remaining (paddingAt r.position + 8 * n) with hn | hn
  · obtain ⟨_, he, -⟩ := BitReader.readBytes_error hcut.valid hn
    rw [he] at e
    cases e
  obtain ⟨_, _, he, hlen, hr', hb, hpos, -⟩ := BitReader.readBytes_ok hcut.valid hn
  rw [he] at e
  cases e
  rcases Nat.lt_or_ge q.remaining (paddingAt q.position + 8 * n) with hq | hq
  · obtain ⟨q', he', -⟩ := BitReader.readBytes_error hcut.valid_cut hq
    exact .inr ⟨q', he'⟩
  · obtain ⟨bytes', q', he', hlen', hq', hb', hpos', -⟩ :=
      BitReader.readBytes_ok hcut.valid_cut hq
    rw [hcut.position_eq] at hb' hq hpos'
    obtain ⟨rest, hrest⟩ := hcut.drop_bits (Nat.le_trans (Nat.le_add_right _ _) hq)
    rw [hb, hb', List.append_assoc] at hrest
    obtain ⟨hbytes, hbits⟩ :=
      List.append_inj hrest (by rw [length_bytesBits, length_bytesBits, hlen, hlen'])
    rw [bytesBits_injective hbytes] at he'
    exact .inl ⟨q', he', hr', hq', hpos'.trans hpos.symm, rest, hbits⟩

end Parser.CutSafe

end DeflateRecoder
