import DeflateRecoder.Bits.Writer
import Mathlib.Algebra.Group.Nat.Defs

/-!
# Bits as lists

What readers take and writers give is compared as lists of bits, the first bit first. `bitsOf` and
`valueOf` go from numbers to bits and back, `bytesBits` spells bytes, and `bitAt` is the bit of a
byte list at an offset. `bitsOf_reverseBits` is why a code word is turned around before it is
written.
-/

namespace DeflateRecoder

/-! ## Numbers -/

/-- The low `n` bits of a number, the lowest first. -/
def bitsOf : Nat → Nat → List Bool
  | 0, _ => []
  | n + 1, v => decide (v % 2 = 1) :: bitsOf n (v / 2)

/-- The number that bits spell, the first one lowest. -/
def valueOf : List Bool → Nat
  | [] => 0
  | b :: u => b.toNat + 2 * valueOf u

@[simp] theorem bitsOf_zero (v : Nat) : bitsOf 0 v = [] := rfl

@[simp] theorem valueOf_nil : valueOf [] = 0 := rfl

@[simp] theorem valueOf_cons (b : Bool) (u : List Bool) :
    valueOf (b :: u) = b.toNat + 2 * valueOf u := rfl

@[simp] theorem length_bitsOf (n v : Nat) : (bitsOf n v).length = n := by
  induction n generalizing v with
  | zero => rfl
  | succ n ih => rw [bitsOf, List.length_cons, ih]

/-- The second of two groups of bits counts as many powers of two more as the first is long. -/
theorem valueOf_append (u v : List Bool) :
    valueOf (u ++ v) = valueOf u + 2 ^ u.length * valueOf v := by
  induction u with
  | nil => rw [List.nil_append, valueOf_nil, List.length_nil]; omega
  | cons b u ih =>
    rw [List.cons_append, valueOf_cons, valueOf_cons, ih, List.length_cons, Nat.pow_succ,
      Nat.mul_comm _ 2, Nat.mul_add, Nat.mul_assoc, Nat.add_assoc]

/-- Bits spell a number below the power of two that they can count to. -/
theorem valueOf_lt (u : List Bool) : valueOf u < 2 ^ u.length := by
  induction u with
  | nil => exact Nat.one_pos
  | cons b u ih =>
    have hb : b.toNat ≤ 1 := Bool.toNat_le b
    rw [valueOf_cons, List.length_cons, Nat.pow_succ]
    omega

/-- The bits of a number spell what its low bits amount to. -/
@[simp] theorem valueOf_bitsOf (n v : Nat) : valueOf (bitsOf n v) = v % 2 ^ n := by
  induction n generalizing v with
  | zero => rw [bitsOf_zero, valueOf_nil, Nat.pow_zero, Nat.mod_one]
  | succ n ih =>
    have hb : (decide (v % 2 = 1)).toNat = v % 2 := by
      rcases Nat.mod_two_eq_zero_or_one v with h | h <;> rw [h] <;> rfl
    rw [bitsOf, valueOf_cons, ih, hb, Nat.pow_succ, Nat.mul_comm (2 ^ n) 2, Nat.mod_mul]

/-- Bits are the bits of the number that they spell. -/
@[simp] theorem bitsOf_valueOf (u : List Bool) : bitsOf u.length (valueOf u) = u := by
  induction u with
  | nil => rfl
  | cons b u ih =>
    rw [List.length_cons, bitsOf, valueOf_cons]
    have hb : b.toNat ≤ 1 := Bool.toNat_le b
    have hd : (b.toNat + 2 * valueOf u) / 2 = valueOf u := by omega
    have hm : (b.toNat + 2 * valueOf u) % 2 = b.toNat := by omega
    rw [hd, hm, ih]
    cases b <;> rfl

/-- A list of bits of the right length that spells a number is the number's bits. -/
theorem eq_bitsOf {n : Nat} {u : List Bool} (h : u.length = n) : u = bitsOf n (valueOf u) := by
  rw [← h, bitsOf_valueOf]

/-- The bits of a number that is low in one part and high in the other. -/
theorem bitsOf_add (m n v : Nat) : bitsOf (m + n) v = bitsOf m v ++ bitsOf n (v / 2 ^ m) := by
  induction m generalizing v with
  | zero => rw [Nat.zero_add, bitsOf_zero, List.nil_append, Nat.pow_zero, Nat.div_one]
  | succ m ih =>
    rw [show m + 1 + n = (m + n) + 1 by omega, bitsOf, ih, bitsOf, List.cons_append,
      Nat.div_div_eq_div_mul, Nat.pow_succ, Nat.mul_comm 2]

/-- Bits beyond those asked for do not count. -/
theorem bitsOf_add_mul (m a b : Nat) : bitsOf m (a + 2 ^ m * b) = bitsOf m a := by
  rw [eq_bitsOf (length_bitsOf m (a + 2 ^ m * b)), eq_bitsOf (length_bitsOf m a), valueOf_bitsOf,
    valueOf_bitsOf, Nat.add_mul_mod_self_left]

/-- Only the low bits of a number count. -/
@[simp] theorem bitsOf_mod (n v : Nat) : bitsOf n (v % 2 ^ n) = bitsOf n v := by
  have h := bitsOf_add_mul n (v % 2 ^ n) (v / 2 ^ n)
  rw [Nat.mod_add_div] at h
  exact h.symm

/-- A number laid over the high bits of another has as many bits as both. -/
theorem add_shiftLeft_lt {m n a b : Nat} (ha : a < 2 ^ m) (hb : b < 2 ^ n) :
    a + b <<< m < 2 ^ (m + n) := by
  calc a + b <<< m < 2 ^ m + b <<< m := Nat.add_lt_add_right ha _
    _ = 2 ^ m * (b + 1) := by rw [Nat.shiftLeft_eq, Nat.mul_comm b, Nat.mul_succ, Nat.add_comm]
    _ ≤ 2 ^ m * 2 ^ n := Nat.mul_le_mul_left _ hb
    _ = 2 ^ (m + n) := (Nat.pow_add 2 m n).symm

/-- The bits of a number laid over the high bits of another. -/
theorem bitsOf_add_shiftLeft {m n a b : Nat} (ha : a < 2 ^ m) :
    bitsOf (m + n) (a + b <<< m) = bitsOf m a ++ bitsOf n b := by
  rw [Nat.shiftLeft_eq, Nat.mul_comm b, bitsOf_add, bitsOf_add_mul,
    Nat.add_mul_div_left a b (Nat.two_pow_pos m), Nat.div_eq_of_lt ha, Nat.zero_add]

/-- All bits of zero are off. -/
theorem bitsOf_zero_right (n : Nat) : bitsOf n 0 = List.replicate n false := by
  induction n with
  | zero => rfl
  | succ n ih =>
    rw [bitsOf, Nat.zero_div, ih, List.replicate_succ]
    rfl

/-- Two numbers with the same bits are equal up to where the bits count. -/
theorem mod_eq_of_bitsOf_eq {n v w : Nat} (h : bitsOf n v = bitsOf n w) :
    v % 2 ^ n = w % 2 ^ n := by
  rw [← valueOf_bitsOf, ← valueOf_bitsOf, h]

/-- The bits that are still to be turned around come in front of those that were. -/
theorem bitsOf_reverseBits_go (n v k acc : Nat) :
    bitsOf (n + k) (reverseBits.go n v acc) = (bitsOf n v).reverse ++ bitsOf k acc := by
  induction n generalizing v k acc with
  | zero =>
    rw [reverseBits.go, Nat.zero_add]
    rfl
  | succ n ih =>
    have hm : (2 * acc + v % 2) % 2 = v % 2 := by omega
    have hd : (2 * acc + v % 2) / 2 = acc := by omega
    rw [reverseBits.go, show n + 1 + k = n + (k + 1) by omega, ih, bitsOf, bitsOf, hm, hd,
      List.reverse_cons, List.append_assoc]
    rfl

/-- Turning a word around turns its bits around. -/
theorem bitsOf_reverseBits (n v : Nat) : bitsOf n (reverseBits n v) = (bitsOf n v).reverse := by
  have h := bitsOf_reverseBits_go n v 0 0
  rw [bitsOf_zero, List.append_nil, Nat.add_zero] at h
  exact h

/-! ## Bytes -/

/-- The bits of a byte list, each byte from its lowest bit on. -/
def bytesBits (bytes : List UInt8) : List Bool := bytes.flatMap fun b => bitsOf 8 b.toNat

@[simp] theorem bytesBits_nil : bytesBits [] = [] := rfl

@[simp] theorem bytesBits_cons (b : UInt8) (bytes : List UInt8) :
    bytesBits (b :: bytes) = bitsOf 8 b.toNat ++ bytesBits bytes := rfl

@[simp] theorem bytesBits_append (k l : List UInt8) :
    bytesBits (k ++ l) = bytesBits k ++ bytesBits l := List.flatMap_append

@[simp] theorem length_bytesBits (bytes : List UInt8) :
    (bytesBits bytes).length = 8 * bytes.length := by
  induction bytes with
  | nil => rfl
  | cons b bytes ih =>
    rw [bytesBits_cons, List.length_append, length_bitsOf, ih, List.length_cons]
    omega

/-- The first bytes have the first bits, eight for each. -/
theorem bytesBits_take (k : Nat) (bytes : List UInt8) :
    bytesBits (bytes.take k) = (bytesBits bytes).take (8 * k) := by
  induction k generalizing bytes with
  | zero => rfl
  | succ k ih =>
    cases bytes with
    | nil => rfl
    | cons b bytes =>
      have hlen : 8 * (k + 1) = (bitsOf 8 b.toNat).length + 8 * k := by
        rw [length_bitsOf]
        omega
      rw [List.take_succ_cons, bytesBits_cons, bytesBits_cons, ih, hlen,
        List.take_length_add_append]

/-- The bytes behind the first ones have the bits behind theirs. -/
theorem bytesBits_drop (k : Nat) (bytes : List UInt8) :
    bytesBits (bytes.drop k) = (bytesBits bytes).drop (8 * k) := by
  have h := congrArg bytesBits (List.take_append_drop k bytes)
  rw [bytesBits_append, bytesBits_take] at h
  refine List.append_cancel_left (h.trans (List.take_append_drop (8 * k) _).symm)

/-- A byte made of a number has the number's low bits. -/
theorem bitsOf_toUInt8 (v : Nat) : bitsOf 8 v.toUInt8.toNat = bitsOf 8 v :=
  bitsOf_mod 8 v

/-- Different bytes have different bits. -/
theorem bytesBits_injective {k l : List UInt8} (h : bytesBits k = bytesBits l) : k = l := by
  induction k generalizing l with
  | nil =>
    have hl := congrArg List.length h
    rw [length_bytesBits, length_bytesBits] at hl
    cases l with
    | nil => rfl
    | cons b l => simp at hl
  | cons a k ih =>
    cases l with
    | nil =>
      have hl := congrArg List.length h
      rw [length_bytesBits, length_bytesBits] at hl
      simp at hl
    | cons b l =>
      rw [bytesBits_cons, bytesBits_cons] at h
      obtain ⟨h₁, h₂⟩ := List.append_inj h (by simp)
      have hab := mod_eq_of_bitsOf_eq h₁
      rw [Nat.mod_eq_of_lt a.toNat_lt, Nat.mod_eq_of_lt b.toNat_lt] at hab
      rw [UInt8.toNat_inj.1 hab, ih h₂]

/-- The bit of a byte list at an offset; there are only zeros behind its end. -/
def bitAt (bytes : List UInt8) (i : Nat) : Bool := (bytesBits bytes)[i]?.getD false

/-! ## Padding -/

/-- How many bits there are from an offset to the next byte boundary. -/
def paddingAt (position : Nat) : Nat := (8 - position % 8) % 8

/-- Less than a byte is skipped up to the next byte boundary. -/
theorem paddingAt_lt (position : Nat) : paddingAt position < 8 := Nat.mod_lt _ (by decide)

/-- The padding ends at a byte boundary. -/
theorem add_paddingAt_mod (position : Nat) : (position + paddingAt position) % 8 = 0 := by
  unfold paddingAt; omega

/-- There is no padding at a byte boundary. -/
theorem paddingAt_eq_zero {position : Nat} (h : position % 8 = 0) : paddingAt position = 0 := by
  unfold paddingAt; omega

end DeflateRecoder
