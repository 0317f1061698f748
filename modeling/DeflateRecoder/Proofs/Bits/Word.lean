import DeflateRecoder.Proofs.Bits.Basic

/-!
# 64-bit words

A machine shifts a word by less than its width. `Word.shiftLeft?` and `Word.shiftRight?` refuse
other amounts, so a computation that succeeds has made none. The lemmas say what numbers the words
stand for that come of shifting, of cutting off the high bits, and of laying a word over the bits
above those of another.
-/

namespace DeflateRecoder

namespace Word

/-- The word shifted to the left, if that is by less than its width. -/
def shiftLeft? (x : UInt64) (k : Nat) : Option UInt64 :=
  if k < 64 then some (x <<< UInt64.ofNat k) else none

/-- The word shifted to the right, if that is by less than its width. -/
def shiftRight? (x : UInt64) (k : Nat) : Option UInt64 :=
  if k < 64 then some (x >>> UInt64.ofNat k) else none

/-- The low `k` bits of a word, by a mask. -/
def low? (k : Nat) (x : UInt64) : Option UInt64 := do
  let limit ← shiftLeft? 1 k
  return x &&& (limit - 1)

variable {x : UInt64} {k : Nat}

/-- A shift by less than 64 bits is made by the number that was given. -/
theorem toNat_ofNat_mod (hk : k < 64) : (UInt64.ofNat k).toNat % 64 = k := by
  rw [UInt64.toNat_ofNat']
  omega

/-- A checked shift to the left succeeds below 64 bits, and drops what leaves the word. -/
theorem shiftLeft?_spec (hk : k < 64) :
    ∃ y, shiftLeft? x k = some y ∧ y.toNat = x.toNat <<< k % 2 ^ 64 :=
  ⟨_, if_pos hk, by rw [UInt64.toNat_shiftLeft, toNat_ofNat_mod hk]⟩

/-- A checked shift to the right succeeds below 64 bits, and divides by a power of two. -/
theorem shiftRight?_spec (hk : k < 64) :
    ∃ y, shiftRight? x k = some y ∧ y.toNat = x.toNat >>> k :=
  ⟨_, if_pos hk, by rw [UInt64.toNat_shiftRight, toNat_ofNat_mod hk]⟩

/-- The low bits of a word, of which there are less than 64, are its remainder by a power of two. -/
theorem low?_spec (hk : k < 64) : ∃ y, low? k x = some y ∧ y.toNat = x.toNat % 2 ^ k := by
  obtain ⟨limit, hshift, hlimit⟩ := shiftLeft?_spec (x := 1) hk
  have hpow : (2 : Nat) ^ k < 2 ^ 64 := Nat.pow_lt_pow_right (by decide) hk
  have hone : (1 : UInt64).toNat = 1 := rfl
  rw [hone, Nat.one_shiftLeft, Nat.mod_eq_of_lt hpow] at hlimit
  have hle : (1 : UInt64) ≤ limit := by
    rw [UInt64.le_iff_toNat_le, hone, hlimit]
    exact Nat.one_le_two_pow
  refine ⟨x &&& (limit - 1), by rw [low?, hshift]; rfl, ?_⟩
  rw [UInt64.toNat_and, UInt64.toNat_sub_of_le _ _ hle, hlimit, hone,
    Nat.and_two_pow_sub_one_eq_mod]

/-- Nothing is lost when a word is laid over bits of another that are not set, but for what is
shifted out. -/
theorem toNat_or_shifted {w y : UInt64} (hk : k < 64) (hw : w.toNat < 2 ^ k)
    (hy : y.toNat = x.toNat <<< k % 2 ^ 64) :
    (w ||| y).toNat = (w.toNat + x.toNat <<< k) % 2 ^ 64 := by
  have hpow : 2 ^ 64 = 2 ^ (64 - k) * 2 ^ k := by
    rw [← Nat.pow_add, Nat.sub_add_cancel (Nat.le_of_lt hk)]
  have hkept : x.toNat <<< k % 2 ^ 64 = (x.toNat % 2 ^ (64 - k)) <<< k := by
    rw [Nat.shiftLeft_eq, Nat.shiftLeft_eq, hpow, Nat.mul_mod_mul_right]
  have hor : (w ||| y).toNat = w.toNat + x.toNat <<< k % 2 ^ 64 := by
    rw [UInt64.toNat_or, hy, hkept, Nat.or_comm, ← Nat.shiftLeft_add_eq_or_of_lt hw, Nat.add_comm]
  have hlt := (w ||| y).toNat_lt
  rw [hor] at hlt ⊢
  rw [← Nat.add_mod_mod, Nat.mod_eq_of_lt hlt]

/-- Nothing is lost at all when there is room for what is laid over. -/
theorem toNat_or_shifted_of_room {w y : UInt64} {n : Nat} (hk : k < 64) (hw : w.toNat < 2 ^ k)
    (hy : y.toNat = x.toNat <<< k % 2 ^ 64) (hx : x.toNat < 2 ^ n) (hroom : k + n ≤ 64) :
    (w ||| y).toNat = w.toNat + x.toNat <<< k := by
  have hpow : (2 : Nat) ^ (k + n) ≤ 2 ^ 64 := Nat.pow_le_pow_right Nat.zero_lt_two hroom
  rw [toNat_or_shifted hk hw hy,
    Nat.mod_eq_of_lt (Nat.lt_of_lt_of_le (add_shiftLeft_lt hw hx) hpow)]

end Word

end DeflateRecoder
