import DeflateRecoder.Bits.Reader

/-!
# Progress of parsers

A parser `Consumes n` when every successful run takes `n` bits or more off the input that remains.
Parsers that repeat a step until the input says stop recurse on the remaining bits, and the
lemmas here give the step's progress from that of its parts.
-/

namespace DeflateRecoder

/-- Every successful run takes `n` bits or more off the input. -/
def Parser.Consumes {α : Type} (n : Nat) (p : Parser α) : Prop :=
  ∀ ⦃r a r'⦄, p r = .ok a r' → r'.remaining + n ≤ r.remaining

namespace Parser.Consumes

variable {α β : Type} {m n : Nat} {p : Parser α}

/-- What takes so many bits takes any smaller number of them too. -/
theorem of_le (h : p.Consumes m) (hnm : n ≤ m) : p.Consumes n := fun _ _ _ e => by
  have := h e; omega

/-- A parser that reads nothing takes no bits. -/
theorem pure (a : α) : Parser.Consumes 0 (Pure.pure a : Parser α) := fun _ _ _ e => by
  cases e; exact Nat.le_refl _

/-- A parser that fails may be said to take any number of bits. -/
theorem throw (e : Error) : Parser.Consumes n (MonadExcept.throw e : Parser α) :=
  fun _ _ _ h => by cases h

/-- The bits of a sequence add up. -/
theorem bind {f : α → Parser β} (hp : p.Consumes m) (hf : ∀ a, (f a).Consumes n) :
    Parser.Consumes (m + n) (p >>= f) := fun r b r' e => by
  simp only [Bind.bind, EStateM.bind] at e
  split at e
  · next a r₁ h =>
    have h₁ := hp h
    have h₂ := hf a e
    omega
  · cases e

/-- What follows a step does not give its bits back. -/
theorem bind_left {f : α → Parser β} (hp : p.Consumes m) (hf : ∀ a, (f a).Consumes 0) :
    Parser.Consumes m (p >>= f) := bind hp hf

/-- What follows a step that may read nothing keeps its own progress. -/
theorem bind_right {f : α → Parser β} (hp : p.Consumes 0) (hf : ∀ a, (f a).Consumes n) :
    Parser.Consumes n (p >>= f) := (bind hp hf).of_le (by omega)

/-- Whichever way a parser is chosen, it takes the bits that both choices take. -/
theorem ite {c : Prop} [Decidable c] {q : Parser α} (hp : p.Consumes n) (hq : q.Consumes n) :
    Parser.Consumes n (if c then p else q) := by
  split <;> assumption

/-- Turning a result into a parser takes no bits. -/
theorem ofExcept (x : Except Error α) : (Parser.ofExcept x).Consumes 0 := by
  cases x with
  | ok a => exact pure a
  | error e => exact throw e

/-- Reading a number takes its bits. -/
theorem readBits (n : Nat) : (BitReader.readBits n).Consumes n := fun _ _ _ e =>
  Nat.le_of_eq (BitReader.readBits_remaining e)

/-- Reading a bit takes it. -/
theorem readBit : BitReader.readBit.Consumes 1 := bind_left (readBits 1) fun _ => pure _

/-- Going to the next byte gives no bits back. It takes none where a byte has just ended. -/
theorem alignToByte : BitReader.alignToByte.Consumes 0 := fun r _ _ e => by
  cases e; exact BitReader.remaining_align_le r

/-- A word takes its 16 bits, whatever is skipped in front of it. -/
theorem readWord : BitReader.readWord.Consumes 16 := bind_right alignToByte fun _ => readBits 16

/-- Bytes taken out of the window are consumed. -/
theorem remaining_drain_le (n : Nat) (r : BitReader) :
    (BitReader.drain n r).2.remaining ≤ r.remaining := by
  induction n generalizing r with
  | zero => exact Nat.le_refl _
  | succ n ih =>
    rw [BitReader.drain]
    split
    · exact Nat.le_refl _
    · have h₁ := ih (r.consume 8)
      have h₂ := BitReader.remaining_consume (n := 8) (r := r) (by omega)
      simp only
      omega

/-- Reading bytes gives no bits back, which is enough for parsers that read something else
besides. -/
theorem readBytes (n : Nat) : (BitReader.readBytes n).Consumes 0 := fun r _ _ e => by
  have h₁ := remaining_drain_le n r.align
  have h₂ := BitReader.remaining_align_le r
  simp only [BitReader.readBytes] at e
  split at e
  · cases e
  · cases e
    simp only [BitReader.remaining, List.length_drop] at h₁ h₂ ⊢
    omega

/-- A list of steps does not give bits back. -/
theorem mapM {f : α → Parser β} (hf : ∀ a, (f a).Consumes 0) (l : List α) :
    Parser.Consumes 0 (l.mapM f) := by
  induction l with
  | nil => exact pure []
  | cons a l ih =>
    rw [List.mapM_cons]
    exact bind (hf a) fun _ => bind ih fun _ => pure _

end Parser.Consumes

end DeflateRecoder
