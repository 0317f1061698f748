import DeflateRecoder.Proofs.Bits.Cursor
import DeflateRecoder.Proofs.Bits.Word
import Mathlib.Tactic.Ring

/-!
# A reader with a window of 64 bits

A machine has no numbers of any size, and a shift of a word by 64 or more is an error. `WordReader`
is a reader whose window is one word. It takes eight bytes at once when there are as many, keeps the
whole bytes that find room and cuts off the rest, and then takes single bytes
(`WordReader.refill?`). Every shift is checked.

`WordReader.run?_spec` says that none of the shifts fails, whatever calls are made, and that the
reader with an unbounded window (`WordReader.toReader`) does the same. Both are a plain cursor
(`BitReader.run_as_cursor`).
-/

namespace DeflateRecoder

open BitReader (Call Answer)

/-- A cursor over a byte list, with a word as the window. -/
structure WordReader where
  /-- The bytes not yet moved into the window. -/
  rest : List UInt8
  /-- How many bytes have left `rest`. -/
  taken : Nat
  /-- The unconsumed bits of the bytes taken, the next one lowest. -/
  window : UInt64
  /-- How many bits of the window count. -/
  held : Nat
  deriving DecidableEq, Repr

namespace WordReader

/-- A reader at the start of `bytes`. -/
def ofBytes (bytes : List UInt8) : WordReader := ⟨bytes, 0, 0, 0⟩

/-- The reader with the same bits in an unbounded window. -/
def toReader (w : WordReader) : BitReader := ⟨w.rest, w.taken, w.window.toNat, w.held⟩

/-! ## The window -/

/-- The word that up to eight bytes make, the first one lowest. -/
def ofLittleEndian (bytes : List UInt8) : UInt64 := UInt64.ofNat (valueOf (bytesBits bytes))

/-- Lays eight bytes over the window, if there are as many, and keeps whole bytes of them. -/
def topUp? (w : WordReader) : Option WordReader :=
  if 8 ≤ w.rest.length then do
    let k := (63 - w.held) / 8
    let laid ← Word.shiftLeft? (ofLittleEndian (w.rest.take 8)) w.held
    let window := w.window ||| laid
    let window ← if k < 8 then Word.low? (w.held + 8 * k) window else some window
    return ⟨w.rest.drop k, w.taken + k, window, w.held + 8 * k⟩
  else some w

/-- Takes single bytes into the window until it holds `n` bits or the input ends. -/
def fill? (n : Nat) (w : WordReader) : Option WordReader :=
  if w.held < n then
    match w.rest with
    | [] => some w
    | b :: rest => do
      let laid ← Word.shiftLeft? b.toUInt64 w.held
      fill? n ⟨rest, w.taken + 1, w.window ||| laid, w.held + 8⟩
  else some w
termination_by n - w.held

/-- Fills the window when it holds fewer than `n` bits. -/
def refill? (n : Nat) (w : WordReader) : Option WordReader :=
  if w.held < n then do
    let w ← w.topUp?
    w.fill? n
  else some w

/-- Takes `n` bits that the window holds. -/
def consume? (n : Nat) (w : WordReader) : Option WordReader := do
  let window ← Word.shiftRight? w.window n
  return { w with window, held := w.held - n }

/-- Takes up to `n` whole bytes out of the window. -/
def drain? : Nat → WordReader → Option (List UInt8 × WordReader)
  | 0, w => some ([], w)
  | n + 1, w =>
    if w.held < 8 then some ([], w)
    else do
      let (bytes, w') ← drain? n (← w.consume? 8)
      return (w.window.toUInt8 :: bytes, w')

/-! ## Reads -/

/-- Skips to the next byte boundary. -/
def align? (w : WordReader) : Option WordReader := w.consume? (w.held % 8)

/-- Reads `n` bits as a number, the first bit lowest. -/
def readBits? (n : Nat) (w : WordReader) : Option (Except Error Nat × WordReader) :=
  if n = 0 then some (.ok 0, w)
  else do
    let w ← w.refill? n
    if w.held < n then return (.error .unexpectedEnd, w)
    let value ← Word.low? n w.window
    return (.ok value.toNat, ← w.consume? n)

/-- Reads `n` bytes from the next byte boundary. -/
def readBytes? (n : Nat) (w : WordReader) : Option (Except Error (List UInt8) × WordReader) := do
  let (bytes, w) ← drain? n (← w.align?)
  let k := n - bytes.length
  if w.rest.length < k then return (.error .unexpectedEnd, w)
  return (.ok (bytes ++ w.rest.take k), { w with rest := w.rest.drop k, taken := w.taken + k })

/-- What comes of a call, and the reader that it leaves, also when it fails. -/
def outcome? (w : WordReader) : Call → Option (Except Error Answer × WordReader)
  | .bits n => do
    let (value, w) ← w.readBits? n
    return (value.map .number, w)
  | .bit => do
    let (value, w) ← w.readBits? 1
    return (value.map fun v => .flag (v != 0), w)
  | .align => do return (.ok .done, ← w.align?)
  | .word => do
    let (value, w) ← (← w.align?).readBits? 16
    return (value.map .number, w)
  | .bytes n => do
    let (bytes, w) ← w.readBytes? n
    return (bytes.map .bytes, w)

/-- What comes of each of some calls, and the reader that it leaves. -/
def run? : List Call → WordReader → Option (List (Except Error Answer × WordReader))
  | [], _ => some []
  | c :: calls, w => do
    let first ← w.outcome? c
    return first :: (← run? calls first.2)

/-! ## The same in an unbounded window -/

/-- The window has no bits beyond those that count, of which there are no more than in a word. -/
structure Fits (w : WordReader) : Prop where
  window_lt : w.window.toNat < 2 ^ w.held
  held_le : w.held ≤ 64

/-- A computation makes no bad shift, and gives what an unbounded window would have given. -/
def Mirrors {α : Type} (o : Option (α × WordReader)) (x : α × BitReader) : Prop :=
  ∃ w, o = some (x.1, w) ∧ w.Fits ∧ w.toReader = x.2

/-- The window of a new reader is empty, and fits the word. -/
theorem fits_ofBytes (bytes : List UInt8) : (ofBytes bytes).Fits := ⟨Nat.one_pos, Nat.zero_le _⟩

/-- Moving bytes into a window lays the number that they make over it. -/
theorem load_eq (k : Nat) {r : BitReader} (hk : k ≤ r.rest.length) :
    r.load k = ⟨r.rest.drop k, r.taken + k,
      r.window + valueOf (bytesBits (r.rest.take k)) <<< r.held, r.held + 8 * k⟩ := by
  induction k generalizing r with
  | zero => simp [BitReader.load]
  | succ k ih =>
    obtain ⟨rest, taken, window, held⟩ := r
    cases rest with
    | nil => cases hk
    | cons b rest =>
      rw [BitReader.load]
      dsimp only
      rw [ih (Nat.le_of_succ_le_succ hk), BitReader.mk.injEq]
      refine ⟨rfl, by dsimp only; omega, ?_, by dsimp only; omega⟩
      have hb : b.toNat % 2 ^ 8 = b.toNat := Nat.mod_eq_of_lt b.toNat_lt
      dsimp only
      rw [List.take_succ_cons, bytesBits_cons, valueOf_append, valueOf_bitsOf, length_bitsOf, hb,
        Nat.shiftLeft_eq, Nat.shiftLeft_eq, Nat.shiftLeft_eq, Nat.add_mul, Nat.pow_add]
      ring

/-- Of the word that eight bytes make, the first bytes are the low part. -/
theorem toNat_ofLittleEndian_take {bytes : List UInt8} {k : Nat} (hk : k ≤ 8)
    (hlen : 8 ≤ bytes.length) : ∃ high, (ofLittleEndian (bytes.take 8)).toNat =
      valueOf (bytesBits (bytes.take k)) + 2 ^ (8 * k) * high := by
  have hlt := valueOf_lt (bytesBits (bytes.take 8))
  rw [length_bytesBits, List.length_take, Nat.min_eq_left hlen] at hlt
  have hsplit : bytes.take 8 = bytes.take k ++ (bytes.drop k).take (8 - k) := by
    rw [← List.take_add, Nat.add_sub_cancel' hk]
  refine ⟨valueOf (bytesBits ((bytes.drop k).take (8 - k))), ?_⟩
  rw [ofLittleEndian, UInt64.toNat_ofNat', Nat.mod_eq_of_lt hlt, hsplit, bytesBits_append,
    valueOf_append, length_bytesBits, List.length_take, Nat.min_eq_left (Nat.le_trans hk hlen)]

variable {w : WordReader}

/-- The number that some bytes make up is bounded by a power of 256. -/
theorem valueOf_take_lt (k : Nat) (bytes : List UInt8) :
    valueOf (bytesBits (bytes.take k)) < 2 ^ (8 * k) := by
  refine Nat.lt_of_lt_of_le (valueOf_lt _) (Nat.pow_le_pow_right Nat.zero_lt_two ?_)
  rw [length_bytesBits]
  exact Nat.mul_le_mul_left 8 (List.length_take_le k bytes)

/-- When eight bytes are laid over the window and the rest is cut off behind `k` of them, these are
there. -/
theorem Fits.laid_mod (hw : w.Fits) {k : Nat} (hk : k ≤ 8) (hlen : 8 ≤ w.rest.length) :
    (w.window.toNat + (ofLittleEndian (w.rest.take 8)).toNat <<< w.held) % 2 ^ (w.held + 8 * k) =
      w.window.toNat + valueOf (bytesBits (w.rest.take k)) <<< w.held := by
  obtain ⟨high, hhigh⟩ := toNat_ofLittleEndian_take hk hlen
  have hcut : w.window.toNat + (ofLittleEndian (w.rest.take 8)).toNat <<< w.held =
      w.window.toNat + valueOf (bytesBits (w.rest.take k)) <<< w.held +
        2 ^ (w.held + 8 * k) * high := by
    rw [hhigh, Nat.shiftLeft_eq, Nat.shiftLeft_eq, Nat.pow_add]
    ring
  rw [hcut, Nat.add_mul_mod_self_left,
    Nat.mod_eq_of_lt (add_shiftLeft_lt hw.window_lt (valueOf_take_lt k w.rest))]

/-- Laying eight bytes over the window and cutting off the rest moves as many bytes into it as find
room. -/
theorem topUp?_spec (hw : w.Fits) (hheld : w.held ≤ 56) :
    ∃ w', w.topUp? = some w' ∧ w'.Fits ∧ w'.toReader =
      if (w.rest.drop 7).isEmpty then w.toReader else w.toReader.load ((63 - w.held) / 8) := by
  have hempty : (w.rest.drop 7).isEmpty = true ↔ ¬8 ≤ w.rest.length := by
    rw [List.isEmpty_iff, List.drop_eq_nil_iff]
    omega
  unfold topUp?
  by_cases h8 : 8 ≤ w.rest.length
  · rw [if_pos h8, if_neg (by rw [hempty]; exact not_not_intro h8)]
    dsimp only
    have hk : (63 - w.held) / 8 < 8 := by omega
    have hroom : w.held + 8 * ((63 - w.held) / 8) < 64 := by omega
    generalize (63 - w.held) / 8 = k at hk hroom
    obtain ⟨laid, hshift, hlaid⟩ :=
      Word.shiftLeft?_spec (x := ofLittleEndian (w.rest.take 8)) (k := w.held) (by omega)
    obtain ⟨window, hlow, hwindow⟩ := Word.low?_spec (x := w.window ||| laid) hroom
    -- What the shift loses lies above the cut.
    have hpow : (2 : Nat) ^ (w.held + 8 * k) ∣ 2 ^ 64 := Nat.pow_dvd_pow 2 (Nat.le_of_lt hroom)
    rw [Word.toNat_or_shifted (by omega) hw.window_lt hlaid, Nat.mod_mod_of_dvd _ hpow,
      hw.laid_mod (Nat.le_of_lt hk) h8] at hwindow
    refine ⟨⟨w.rest.drop k, w.taken + k, window, w.held + 8 * k⟩, ?_, ⟨?_, ?_⟩, ?_⟩
    · rw [hshift]
      simp only [Option.bind_eq_bind, Option.bind_some, if_pos hk, hlow]
      rfl
    · rw [hwindow]
      exact add_shiftLeft_lt hw.window_lt (valueOf_take_lt k w.rest)
    · exact Nat.le_of_lt hroom
    · rw [load_eq k (by show k ≤ w.rest.length; omega), toReader, hwindow]
      rfl
  · rw [if_neg h8, if_pos (by rw [hempty]; exact h8)]
    exact ⟨w, rfl, hw, rfl⟩

/-- Loading does nothing at the end of the bytes. -/
theorem load_of_rest_nil (k : Nat) {r : BitReader} (h : r.rest = []) : r.load k = r := by
  cases k with
  | zero => rfl
  | succ k => rw [BitReader.load, h]

/-- Taking single bytes until there are `n` bits moves as many bytes into the window as they
need. -/
theorem fill?_spec {n : Nat} (hn : n ≤ 57) (hw : w.Fits) :
    ∃ w', w.fill? n = some w' ∧ w'.Fits ∧
      w'.toReader = w.toReader.load ((n - w.held + 7) / 8) := by
  obtain ⟨rest, taken, window, held⟩ := w
  induction rest generalizing taken window held with
  | nil =>
    refine ⟨⟨[], taken, window, held⟩, ?_, hw, (load_of_rest_nil _ rfl).symm⟩
    rw [fill?, ite_self]
  | cons b rest ih =>
    rw [fill?]
    dsimp only
    split
    · next hlt =>
      have hheld : held + 8 ≤ 64 := by omega
      have hbytes : (n - held + 7) / 8 = (n - (held + 8) + 7) / 8 + 1 := by omega
      have hb : b.toUInt64.toNat < 2 ^ 8 := by
        rw [UInt8.toNat_toUInt64]
        exact b.toNat_lt
      have hshiftable : held < 64 := Nat.lt_of_lt_of_le (Nat.lt_add_of_pos_right (by decide)) hheld
      obtain ⟨laid, hshift, hlaid⟩ :=
        Word.shiftLeft?_spec (x := b.toUInt64) (k := held) hshiftable
      have hwindow := Word.toNat_or_shifted_of_room hshiftable hw.window_lt hlaid hb hheld
      obtain ⟨w', h', hw', hr'⟩ := ih (taken + 1) (window ||| laid) (held + 8)
        ⟨hwindow ▸ add_shiftLeft_lt hw.window_lt hb, hheld⟩
      refine ⟨w', by rw [hshift]; exact h', hw', ?_⟩
      rw [hr', hbytes, BitReader.load]
      dsimp only [toReader]
      rw [hwindow, UInt8.toNat_toUInt64]
    · next hge =>
      have hbytes : (n - held + 7) / 8 = 0 := by omega
      rw [hbytes]
      exact ⟨_, rfl, hw, rfl⟩

/-- Refilling the word for a number of up to 57 bits succeeds, and does what refilling a window
without a bound does. -/
theorem refill?_spec {n : Nat} (hn : n ≤ 57) (hw : w.Fits) :
    ∃ w', w.refill? n = some w' ∧ w'.Fits ∧ w'.toReader = w.toReader.refill n := by
  unfold refill? BitReader.refill
  have hheld : w.toReader.held = w.held := rfl
  rw [hheld]
  split
  · next hlt =>
    obtain ⟨w₁, h₁, hw₁, hr₁⟩ := topUp?_spec hw (by omega)
    obtain ⟨w₂, h₂, hw₂, hr₂⟩ := fill?_spec hn hw₁
    refine ⟨w₂, by rw [h₁]; exact h₂, hw₂, ?_⟩
    rw [hr₂]
    have hheld₁ : w₁.held = w₁.toReader.held := rfl
    rw [hheld₁, hr₁]
    rfl
  · exact ⟨w, rfl, hw, rfl⟩

/-- Taking bits that are held succeeds, and takes the same bits from the unbounded window. -/
theorem consume?_spec {n : Nat} (hn : n < 64) (hle : n ≤ w.held) (hw : w.Fits) :
    ∃ w', w.consume? n = some w' ∧ w'.Fits ∧ w'.toReader = w.toReader.consume n := by
  obtain ⟨window, hshift, hwindow⟩ := Word.shiftRight?_spec (x := w.window) hn
  refine ⟨{ w with window, held := w.held - n }, by rw [consume?, hshift]; rfl, ⟨?_, ?_⟩, ?_⟩
  · have hlt := hw.window_lt
    dsimp only
    rw [hwindow, Nat.shiftRight_eq_div_pow, Nat.div_lt_iff_lt_mul (Nat.two_pow_pos n),
      ← Nat.pow_add, Nat.sub_add_cancel hle]
    exact hlt
  · exact Nat.le_trans (Nat.sub_le _ _) hw.held_le
  · rw [toReader, hwindow]
    rfl

/-- Aligning succeeds and does what it does in the unbounded window. -/
theorem align?_spec (hw : w.Fits) :
    ∃ w', w.align? = some w' ∧ w'.Fits ∧ w'.toReader = w.toReader.align :=
  consume?_spec (by omega) (Nat.mod_le _ _) hw

/-- Emptying the window byte by byte mirrors doing so without a bound. -/
theorem drain?_spec (n : Nat) (hw : w.Fits) :
    Mirrors (drain? n w) (BitReader.drain n w.toReader) := by
  induction n generalizing w with
  | zero => exact ⟨w, rfl, hw, rfl⟩
  | succ n ih =>
    unfold drain? BitReader.drain
    have hheld : w.toReader.held = w.held := rfl
    rw [hheld]
    split
    · exact ⟨w, rfl, hw, rfl⟩
    · next hge =>
      obtain ⟨w₁, h₁, hw₁, hr₁⟩ := consume?_spec (n := 8) (by decide) (by omega) hw
      obtain ⟨w₂, h₂, hw₂, hr₂⟩ := ih hw₁
      rw [hr₁] at h₂ hr₂
      refine ⟨w₂, ?_, hw₂, hr₂⟩
      rw [h₁]
      simp only [Option.bind_eq_bind, Option.bind_some, h₂]
      have hbyte : w.window.toUInt8 = w.toReader.window.toUInt8 := rfl
      rw [hbyte]
      rfl

/-! ## Calls -/

/-- Reading a number of up to 57 bits with the word mirrors reading it without a bound, also where
the input ends. -/
theorem readBits?_spec {n : Nat} (hn : n ≤ 57) (hw : w.Fits) :
    Mirrors (w.readBits? n) (Parser.attempt (BitReader.readBits n) w.toReader) := by
  obtain ⟨w₁, h₁, hw₁, hr₁⟩ := refill?_spec hn hw
  unfold readBits? Parser.attempt BitReader.readBits
  by_cases hn0 : n = 0
  · have hrefill : w.toReader.refill 0 = w.toReader := if_neg (Nat.not_lt_zero _)
    have hvalue : w.toReader.window % 1 <<< 0 = 0 := Nat.mod_one _
    rw [if_pos hn0, hn0, hrefill]
    dsimp only
    rw [if_neg (Nat.not_lt_zero _), hvalue]
    exact ⟨w, rfl, hw, rfl⟩
  rw [if_neg hn0, h₁, ← hr₁]
  simp only [Option.bind_eq_bind, Option.bind_some]
  have hheld : w₁.toReader.held = w₁.held := rfl
  rw [hheld]
  split
  · exact ⟨w₁, rfl, hw₁, rfl⟩
  · next hge =>
    obtain ⟨value, hlow, hvalue⟩ := Word.low?_spec (x := w₁.window) (k := n) (by omega)
    obtain ⟨w₂, h₂, hw₂, hr₂⟩ := consume?_spec (n := n) (by omega) (by omega) hw₁
    refine ⟨w₂, ?_, hw₂, hr₂⟩
    rw [hlow, h₂, Nat.one_shiftLeft]
    simp only [Option.bind_some, hvalue]
    rfl

/-- Reading bytes with the word mirrors reading them without a bound. -/
theorem readBytes?_spec (n : Nat) (hw : w.Fits) :
    Mirrors (w.readBytes? n) (Parser.attempt (BitReader.readBytes n) w.toReader) := by
  obtain ⟨w₁, h₁, hw₁, hr₁⟩ := align?_spec hw
  obtain ⟨w₂, h₂, hw₂, hr₂⟩ := drain?_spec n hw₁
  rw [hr₁] at h₂ hr₂
  unfold readBytes? Parser.attempt BitReader.readBytes
  rw [h₁]
  generalize BitReader.drain n w.toReader.align = drained at h₂ hr₂
  obtain ⟨bs, r⟩ := drained
  dsimp only at h₂ hr₂
  rw [← hr₂]
  simp only [Option.bind_eq_bind, Option.bind_some, h₂]
  have hrest : w₂.toReader.rest = w₂.rest := rfl
  have hshort : (w₂.rest.take (n - bs.length)).length < n - bs.length ↔
      w₂.rest.length < n - bs.length := by
    rw [List.length_take]
    omega
  rw [hrest]
  split
  · next hlt =>
    rw [if_pos (hshort.2 hlt)]
    exact ⟨w₂, rfl, hw₂, rfl⟩
  · next hge =>
    rw [if_neg (hshort.not.2 hge)]
    exact ⟨_, rfl, ⟨hw₂.window_lt, hw₂.held_le⟩, rfl⟩

/-- A call that only turns the answer of another computation into its own. -/
theorem Mirrors.map {α β : Type} {o : Option (Except Error α × WordReader)} {p : Parser α}
    {r : BitReader} (h : Mirrors o (p.attempt r)) (f : α → β) :
    Mirrors (do let (a, w) ← o; return (a.map f, w)) (Parser.attempt (f <$> p) r) := by
  obtain ⟨w, hw, hfits, hr⟩ := h
  rw [Parser.attempt_map]
  exact ⟨w, by rw [hw]; rfl, hfits, hr⟩

/-- Every call on the word mirrors the same call on the reader without a bound. -/
theorem outcome?_spec (hw : w.Fits) (c : Call) :
    Mirrors (w.outcome? c) (c.perform.attempt w.toReader) := by
  cases c with
  | bits n => exact (readBits?_spec (Nat.le_of_lt_succ n.isLt) hw).map Answer.number
  | bit =>
    rw [BitReader.perform_bit]
    exact (readBits?_spec (n := 1) (by decide) hw).map fun v => Answer.flag (v != 0)
  | align =>
    obtain ⟨w₁, h₁, hw₁, hr₁⟩ := align?_spec hw
    exact ⟨w₁, by rw [outcome?, h₁]; rfl, hw₁, hr₁⟩
  | word =>
    obtain ⟨w₁, h₁, hw₁, hr₁⟩ := align?_spec hw
    have hread := (readBits?_spec (n := 16) (by decide) hw₁).map Answer.number
    rw [hr₁] at hread
    rw [outcome?, h₁]
    exact hread
  | bytes n => exact (readBytes?_spec n hw).map Answer.bytes

/-- No call makes a bad shift, and the bound on the window does not show. -/
theorem run?_spec (hw : w.Fits) (calls : List Call) :
    ∃ made, run? calls w = some made ∧
      made.map (Prod.map id toReader) = BitReader.run calls w.toReader := by
  induction calls generalizing w with
  | nil => exact ⟨[], rfl, rfl⟩
  | cons c calls ih =>
    obtain ⟨w₁, h₁, hw₁, hr₁⟩ := outcome?_spec hw c
    obtain ⟨made, h₂, hr₂⟩ := ih hw₁
    refine ⟨((c.perform.attempt w.toReader).1, w₁) :: made, ?_, ?_⟩
    · rw [run?, h₁]
      simp only [Option.bind_eq_bind, Option.bind_some, h₂]
      rfl
    · rw [List.map_cons, hr₂, hr₁, BitReader.run, Prod.map, hr₁]
      rfl

end WordReader

/-- A reader is a plain cursor. Whatever calls are made, each is answered with the bits or bytes at
the position where the one before has left the reader, or fails when there are too few of them. The
reader knows at any time whether it is on a byte boundary. A window of 64 bits does for all of this,
by shifts of less than 64. -/
theorem BitReader.run_as_cursor (bytes : List UInt8) (calls : List Call) :
    let made := run calls (ofBytes bytes)
    Cursor.Run bytes 0 calls (made.map (Prod.map id position)) ∧
      (∀ r ∈ ofBytes bytes :: made.map Prod.snd, r.isAligned = true ↔ r.position % 8 = 0) ∧
      ∃ words, WordReader.run? calls (WordReader.ofBytes bytes) = some words ∧
        words.map (Prod.map id WordReader.toReader) = made := by
  intro made
  have hstart := Reads.ofBytes bytes
  obtain ⟨hrun, hreads⟩ := hstart.run calls
  have hall : ∀ r ∈ ofBytes bytes :: made.map Prod.snd, Reads bytes r :=
    List.forall_mem_cons.2 ⟨hstart, List.forall_mem_map.2 hreads⟩
  refine ⟨hrun, fun r hr => ?_, WordReader.run?_spec (WordReader.fits_ofBytes bytes) calls⟩
  have hpos := (hall r hr).valid.position_mod
  rw [isAligned, decide_eq_true_iff, hpos, paddingAt]
  omega

example : (BitReader.run [.bits 3, .bytes 2, .word, .bits 1] (.ofBytes [0xFF, 0x34, 0x12])).map
    (Prod.map id BitReader.position) = [(.ok (.number 7), 3), (.ok (.bytes [0x34, 0x12]), 24),
      (.error .unexpectedEnd, 24), (.error .unexpectedEnd, 24)] := by decide

end DeflateRecoder
