import DeflateRecoder.Alphabet
import Mathlib.Algebra.Group.Nat.Defs

/-!
# Symbols and bands

Every match length and every distance lies in the band of its symbol, and whatever the bits behind a
symbol add to its band has that symbol again (`lengthSymbol_add`, `distanceSymbol_add`). Lengths are
few enough to be tried; for distances, `distanceBand?_eq` gives the bands by magnitude.
-/

namespace DeflateRecoder

/-! ## Match lengths -/

/-- A match length lies in the band of its symbol. -/
theorem lengthBand?_lengthSymbol {length : Nat} (h₁ : 3 ≤ length) (h₂ : length ≤ 258) :
    ∃ band, lengthBand? (lengthSymbol length) = some band ∧ band.base ≤ length ∧
      length - band.base < 2 ^ band.extraBits ∧
      decodeLength? (lengthSymbol length) (length - band.base) = some length := by
  have h : ∀ length < 259, 3 ≤ length →
      ((lengthBand? (lengthSymbol length)).elim false fun band =>
        decide (band.base ≤ length) && decide (length - band.base < 2 ^ band.extraBits) &&
          decide (decodeLength? (lengthSymbol length) (length - band.base) = some length)) =
        true := by
    decide +kernel
  have hb := h length (by omega) h₁
  cases hband : lengthBand? (lengthSymbol length) with
  | none =>
    rw [hband] at hb
    cases hb
  | some band =>
    rw [hband] at hb
    simp only [Option.elim_some, Bool.and_eq_true, decide_eq_true_eq] at hb
    exact ⟨band, rfl, hb.1.1, hb.1.2, hb.2⟩

/-- What the bits behind a length symbol add to its band has that symbol again. -/
theorem lengthSymbol_add {symbol extra length : Nat} {band : Band}
    (hband : lengthBand? symbol = some band) (hextra : extra < 2 ^ band.extraBits)
    (h : decodeLength? symbol extra = some length) :
    3 ≤ length ∧ length ≤ 258 ∧ lengthSymbol length = symbol ∧ length = band.base + extra := by
  have key : ∀ i < 29, (lengthBands[i]?.elim true fun band =>
      (List.range (2 ^ band.extraBits)).all fun extra =>
        (decodeLength? (firstLengthSymbol + i) extra).elim true fun length =>
          decide (3 ≤ length) && decide (length ≤ 258) &&
            decide (lengthSymbol length = firstLengthSymbol + i) &&
            decide (length = band.base + extra)) = true := by
    decide +kernel
  unfold lengthBand? at hband
  split at hband
  · cases hband
  · next hge =>
    obtain ⟨i, rfl⟩ : ∃ i, symbol = firstLengthSymbol + i :=
      ⟨symbol - firstLengthSymbol, by omega⟩
    rw [Nat.add_sub_cancel_left] at hband
    have hi : i < 29 := (Array.getElem?_eq_some_iff.1 hband).1
    have hk := key i hi
    rw [hband, Option.elim_some, List.all_eq_true] at hk
    have hk := hk extra (List.mem_range.2 hextra)
    rw [h] at hk
    simp only [Option.elim_some, Bool.and_eq_true, decide_eq_true_eq] at hk
    exact ⟨hk.1.1.1, hk.1.1.2, hk.1.2, hk.2⟩

/-- The length of a match has one of the 29 length symbols. -/
theorem lengthSymbol_bounds {length : Nat} (h₁ : 3 ≤ length) (h₂ : length ≤ 258) :
    257 ≤ lengthSymbol length ∧ lengthSymbol length < 286 := by
  have h : ∀ length < 259, 3 ≤ length →
      257 ≤ lengthSymbol length ∧ lengthSymbol length < 286 := by decide +kernel
  exact h length (by omega) h₁

/-! ## Match distances -/

/-- The band of a distance symbol by its magnitude. -/
theorem distanceBand?_eq {e q : Nat} (he : e < 14) (hq : q < 4) (h : e = 0 ∨ 2 ≤ q) :
    distanceBand? (2 * e + q) = some ⟨1 + q * 2 ^ e, e⟩ := by
  have key : ∀ e < 14, ∀ q < 4, e = 0 ∨ 2 ≤ q →
      distanceBand? (2 * e + q) = some ⟨1 + q * 2 ^ e, e⟩ := by decide
  exact key e he q hq h

/-- Every distance symbol has a magnitude. -/
theorem exists_magnitude {symbol : Nat} {band : Band} (h : distanceBand? symbol = some band) :
    ∃ e q, symbol = 2 * e + q ∧ e < 14 ∧ q < 4 ∧ (e = 0 ∨ 2 ≤ q) := by
  have hlt : symbol < 30 := (Array.getElem?_eq_some_iff.1 h).1
  rcases Nat.lt_or_ge symbol 4 with h4 | h4
  · exact ⟨0, symbol, by omega, by omega, h4, .inl rfl⟩
  · exact ⟨symbol / 2 - 1, 2 + symbol % 2, by omega, by omega, by omega, .inr (by omega)⟩

/-- The symbol of a distance by its magnitude. -/
theorem distanceSymbol_eq {e q extra : Nat} (h : e = 0 ∧ q < 4 ∨ 2 ≤ q ∧ q < 4)
    (hextra : extra < 2 ^ e) : distanceSymbol (1 + q * 2 ^ e + extra) = 2 * e + q := by
  have hd : 1 + q * 2 ^ e + extra - 1 = q * 2 ^ e + extra := by omega
  -- The two leading bits are those of `q`, so the magnitude is what is left of the logarithm.
  have hmag : max (q * 2 ^ e + extra).log2 1 - 1 = e := by
    rcases h with ⟨rfl, hq⟩ | ⟨hq₁, hq₂⟩
    · rw [Nat.pow_zero, Nat.mul_one]
      rw [Nat.pow_zero] at hextra
      have hsmall : ∀ q < 4, max q.log2 1 - 1 = 0 := by decide
      rw [Nat.lt_one_iff.1 hextra]
      exact hsmall q hq
    · have hpos := Nat.two_pow_pos e
      have hlow : 2 * 2 ^ e ≤ q * 2 ^ e := Nat.mul_le_mul_right _ hq₁
      have hhigh : (q + 1) * 2 ^ e ≤ 4 * 2 ^ e := Nat.mul_le_mul_right _ hq₂
      rw [Nat.add_mul, Nat.one_mul] at hhigh
      have hlog : (q * 2 ^ e + extra).log2 = e + 1 := by
        refine (Nat.log2_eq_iff (by omega)).2 ⟨?_, ?_⟩
        · rw [Nat.pow_succ]
          omega
        · rw [Nat.pow_succ, Nat.pow_succ]
          omega
      rw [hlog]
      omega
  have hdiv : (q * 2 ^ e + extra) >>> e = q := by
    rw [Nat.shiftRight_eq_div_pow, Nat.mul_comm, Nat.mul_add_div (Nat.two_pow_pos e),
      Nat.div_eq_of_lt hextra, Nat.add_zero]
  unfold distanceSymbol
  dsimp only
  rw [hd, hmag, hdiv]

/-- Every distance has a magnitude. -/
theorem exists_distance_eq {distance : Nat} (h₁ : 1 ≤ distance) (h₂ : distance ≤ maxDistance) :
    ∃ e q extra, distance = 1 + q * 2 ^ e + extra ∧ e < 14 ∧ q < 4 ∧ (e = 0 ∨ 2 ≤ q) ∧
      extra < 2 ^ e := by
  rcases Nat.lt_or_ge distance 5 with h5 | h5
  · exact ⟨0, distance - 1, 0, by omega, by omega, by omega, .inl rfl, by decide⟩
  · have hne : distance - 1 ≠ 0 := by omega
    obtain ⟨hlow, hhigh⟩ := (Nat.log2_eq_iff hne).1 rfl
    have hmax : maxDistance = 2 ^ 15 := rfl
    have hle : (distance - 1).log2 < 15 := (Nat.log2_lt hne).2 (by omega)
    have hge : 2 ≤ (distance - 1).log2 := (Nat.le_log2 hne).2 (by omega)
    obtain ⟨e, he⟩ : ∃ e, (distance - 1).log2 = e + 1 := ⟨(distance - 1).log2 - 1, by omega⟩
    rw [he, Nat.pow_succ] at hlow
    rw [he, Nat.pow_succ, Nat.pow_succ] at hhigh
    refine ⟨e, (distance - 1) / 2 ^ e, (distance - 1) % 2 ^ e, ?_, by omega, ?_, .inr ?_,
      Nat.mod_lt _ (Nat.two_pow_pos e)⟩
    · have := Nat.div_add_mod (distance - 1) (2 ^ e)
      rw [Nat.mul_comm] at this
      omega
    · rw [Nat.div_lt_iff_lt_mul (Nat.two_pow_pos e)]
      omega
    · rw [Nat.le_div_iff_mul_le (Nat.two_pow_pos e)]
      omega

/-- A distance lies in the band of its symbol. -/
theorem distanceBand?_distanceSymbol {distance : Nat} (h₁ : 1 ≤ distance)
    (h₂ : distance ≤ maxDistance) :
    ∃ band, distanceBand? (distanceSymbol distance) = some band ∧ band.base ≤ distance ∧
      distance - band.base < 2 ^ band.extraBits := by
  obtain ⟨e, q, extra, rfl, he, hq, hmag, hextra⟩ := exists_distance_eq h₁ h₂
  rw [distanceSymbol_eq (by omega) hextra]
  refine ⟨_, distanceBand?_eq he hq hmag, Nat.le_add_right _ _, ?_⟩
  rw [Nat.add_sub_cancel_left]
  exact hextra

/-- What the bits behind a distance symbol add to its band has that symbol again. -/
theorem distanceSymbol_add {symbol extra : Nat} {band : Band}
    (hband : distanceBand? symbol = some band) (hextra : extra < 2 ^ band.extraBits) :
    1 ≤ band.base + extra ∧ band.base + extra ≤ maxDistance ∧
      distanceSymbol (band.base + extra) = symbol := by
  obtain ⟨e, q, rfl, he, hq, hmag⟩ := exists_magnitude hband
  rw [distanceBand?_eq he hq hmag, Option.some.injEq] at hband
  subst hband
  dsimp only at hextra ⊢
  refine ⟨by omega, ?_, distanceSymbol_eq (by omega) hextra⟩
  have hpow : 2 ^ e ≤ 2 ^ 13 := Nat.pow_le_pow_right (by decide) (by omega)
  have hmul : (q + 1) * 2 ^ e ≤ 4 * 2 ^ 13 := Nat.mul_le_mul hq hpow
  have hmax : maxDistance = 4 * 2 ^ 13 := rfl
  rw [Nat.add_mul, Nat.one_mul] at hmul
  omega

/-- The distance that the bits behind a symbol give. They are too few for any of them to be left out
of account. -/
theorem decodeDistance?_eq {symbol extra : Nat} {band : Band}
    (hband : distanceBand? symbol = some band) (hextra : extra < 2 ^ band.extraBits) :
    decodeDistance? symbol extra = some (band.base + extra) := by
  have hlimit : extra < extraLimit := by
    obtain ⟨e, q, rfl, he, hq, hmag⟩ := exists_magnitude hband
    rw [distanceBand?_eq he hq hmag, Option.some.injEq] at hband
    subst hband
    have hpow : 2 ^ e ≤ 2 ^ 13 := Nat.pow_le_pow_right (by decide) (by omega)
    have hmax : extraLimit = 2 ^ 16 := rfl
    dsimp only at hextra
    omega
  rw [decodeDistance?, hband, Option.map_some, Nat.mod_eq_of_lt hlimit]

/-- There are 30 distance symbols. -/
theorem distanceSymbol_lt {distance : Nat} (h₁ : 1 ≤ distance) (h₂ : distance ≤ maxDistance) :
    distanceSymbol distance < 30 := by
  obtain ⟨band, hband, -⟩ := distanceBand?_distanceSymbol h₁ h₂
  exact (Array.getElem?_eq_some_iff.1 hband).1

/-! ## Coded values -/

/-- A length is encoded as its symbol and its distance from the base of the symbol's band. -/
theorem encodeLength?_eq {length : Nat} {band : Band} (h₁ : 3 ≤ length) (h₂ : length ≤ 258)
    (hband : lengthBand? (lengthSymbol length) = some band) :
    encodeLength? length = some ⟨lengthSymbol length, length - band.base, band.extraBits⟩ := by
  unfold encodeLength?
  rw [if_pos ⟨h₁, h₂⟩]
  dsimp only
  rw [hband]
  rfl

/-- A distance is encoded as its symbol and how far it lies above the base of the symbol's band. -/
theorem encodeDistance?_eq {distance : Nat} {band : Band} (h₁ : 1 ≤ distance)
    (h₂ : distance ≤ maxDistance) (hband : distanceBand? (distanceSymbol distance) = some band) :
    encodeDistance? distance =
      some ⟨distanceSymbol distance, distance - band.base, band.extraBits⟩ := by
  unfold encodeDistance?
  rw [if_pos ⟨h₁, h₂⟩]
  dsimp only
  rw [hband]
  rfl

end DeflateRecoder
