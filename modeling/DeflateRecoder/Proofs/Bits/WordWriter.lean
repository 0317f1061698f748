import DeflateRecoder.Proofs.Bits.Word
import DeflateRecoder.Proofs.Bits.Writer

/-!
# A writer with an accumulator of 64 bits

`WordWriter` is a writer whose pending bits are in one word, and whose shifts are checked as those
of a `WordReader` are. Up to 57 bits at once come to less than eight that are pending, which is all
that there is room for. `WordWriter.run?_spec` says that nothing is shifted out, whatever calls are
made, and that the writer with an unbounded accumulator (`WordWriter.toWriter`) does the same.
-/

namespace DeflateRecoder

/-! ## Calls -/

namespace BitWriter

/-- A call on a writer. -/
inductive Call
  /-- The low bits of a number, the lowest first. -/
  | bits (n : Fin 58) (v : UInt64)
  /-- One bit. -/
  | bit (b : Bool)
  /-- The low bits of a number, the highest first. -/
  | reversed (n : Fin 33) (v : UInt32)
  /-- Zero bits up to the next byte boundary. -/
  | align
  /-- A 16-bit number from the next byte boundary on. -/
  | word (v : UInt16)
  /-- Bytes from the next byte boundary on. -/
  | bytes (bytes : List UInt8)
  deriving DecidableEq, Repr

/-- The write that a call makes. -/
def Call.perform : Call → BitWriter → BitWriter
  | .bits n v => writeBits n v.toNat
  | .bit b => writeBit b
  | .reversed n v => writeReversed n v.toNat
  | .align => alignToByte
  | .word v => writeWord v.toNat
  | .bytes bs => writeBytes bs

/-- The writer after some calls, one after the other. -/
def run (calls : List Call) (w : BitWriter) : BitWriter := calls.foldl (fun w c => c.perform w) w

/-- The bits that a call puts behind those written, when there are `position` of them. -/
def Call.bitsAt (position : Nat) : Call → List Bool
  | .bits n v => bitsOf n v.toNat
  | .bit b => [b]
  | .reversed n v => (bitsOf n v.toNat).reverse
  | .align => List.replicate (paddingAt position) false
  | .word v => List.replicate (paddingAt position) false ++ bitsOf 16 v.toNat
  | .bytes bs => List.replicate (paddingAt position) false ++ bytesBits bs

/-- The bits that calls put, one after the other. -/
def appended : Nat → List Call → List Bool
  | _, [] => []
  | position, c :: calls =>
    c.bitsAt position ++ appended (position + (c.bitsAt position).length) calls

variable {w : BitWriter}

/-- Aligning puts zeros up to the next byte boundary. -/
theorem puts_alignToByte (h : w.Valid) :
    w.Puts w.alignToByte (List.replicate (paddingAt w.bitLength) false) := by
  obtain ⟨hacc, hpending, hbits⟩ := alignToByte_spec h
  exact ⟨valid_of_pending hacc hpending, hbits⟩

/-- Every call puts the bits that it should at the place where the writer is. -/
theorem Call.puts_perform (h : w.Valid) (c : Call) :
    w.Puts (c.perform w) (c.bitsAt w.bitLength) := by
  cases c with
  | bits n v => exact puts_writeBits n v.toNat h
  | bit b => exact puts_writeBit b h
  | reversed n v => exact puts_writeReversed n v.toNat h
  | align => exact puts_alignToByte h
  | word v => exact puts_writeWord v.toNat h
  | bytes bs => exact puts_writeBytes bs h

/-- Calls put their bits one behind the other. -/
theorem puts_run (h : w.Valid) (calls : List Call) :
    w.Puts (run calls w) (appended w.bitLength calls) := by
  induction calls generalizing w with
  | nil => exact .refl h
  | cons c calls ih =>
    have hfirst := c.puts_perform h
    have hothers := ih hfirst.1
    rw [hfirst.bitLength_eq] at hothers
    exact hfirst.trans hothers

/-- Writing a number of no bits does nothing, as there is no whole byte to move out. -/
theorem writeBits_zero (h : w.Valid) (v : Nat) : w.writeBits 0 v = w := by
  have hpending : ¬8 ≤ w.pending := Nat.not_le.2 h.pending_lt
  have hnothing : w.acc + (v % 1 <<< 0) <<< w.pending = w.acc := by
    rw [Nat.shiftLeft_zero, Nat.mod_one, Nat.zero_shiftLeft, Nat.add_zero]
  rw [writeBits, hnothing, Nat.add_zero, flush, if_neg hpending]

end BitWriter

/-! ## The accumulator -/

open BitWriter (Call)

/-- Bytes written so far, with the bits of the byte begun in a word. -/
structure WordWriter where
  /-- The bytes that are complete. -/
  bytes : Array UInt8
  /-- The bits of the byte begun, the first one lowest. -/
  acc : UInt64
  /-- How many bits of the byte begun are written. -/
  pending : Nat
  deriving DecidableEq, Repr

namespace WordWriter

/-- A writer that has written nothing. -/
def empty : WordWriter := ⟨#[], 0, 0⟩

/-- The writer with the same bits in an unbounded accumulator. -/
def toWriter (w : WordWriter) : BitWriter := ⟨w.bytes, w.acc.toNat, w.pending⟩

/-- Moves whole bytes from the pending bits to the bytes. -/
def flush? (w : WordWriter) : Option WordWriter :=
  if 8 ≤ w.pending then do
    let acc ← Word.shiftRight? w.acc 8
    flush? ⟨w.bytes.push w.acc.toUInt8, acc, w.pending - 8⟩
  else some w
termination_by w.pending

/-- Writes the low `n` bits of a number, the lowest first. -/
def writeBits? (n : Nat) (v : UInt64) (w : WordWriter) : Option WordWriter :=
  if n = 0 then some w
  else do
    let low ← Word.low? n v
    let laid ← Word.shiftLeft? low w.pending
    flush? ⟨w.bytes, w.acc ||| laid, w.pending + n⟩

/-- Writes zero bits up to the next byte boundary. -/
def alignToByte (w : WordWriter) : WordWriter :=
  if w.pending = 0 then w else ⟨w.bytes.push w.acc.toUInt8, 0, 0⟩

/-- Writes bytes from the next byte boundary. -/
def writeBytes (bytes : List UInt8) (w : WordWriter) : WordWriter :=
  let w := w.alignToByte
  { w with bytes := w.bytes.appendList bytes }

/-- The write that a call makes. -/
def perform? (w : WordWriter) : Call → Option WordWriter
  | .bits n v => w.writeBits? n v
  | .bit b => w.writeBits? 1 (UInt64.ofNat b.toNat)
  | .reversed n v => w.writeBits? n (UInt64.ofNat (reverseBits n v.toNat))
  | .align => some w.alignToByte
  | .word v => some (w.writeBytes [v.toUInt8, (v >>> 8).toUInt8])
  | .bytes bs => some (w.writeBytes bs)

/-- The writer after some calls, one after the other. -/
def run? (calls : List Call) (w : WordWriter) : Option WordWriter := calls.foldlM perform? w

/-! ## The same in an unbounded accumulator -/

variable {w : WordWriter}

/-- Moving whole bytes out of the word succeeds, and does what it does without a bound. -/
theorem flush?_spec (w : WordWriter) :
    ∃ w', w.flush? = some w' ∧ w'.toWriter = w.toWriter.flush := by
  induction w using flush?.induct with
  | case1 w hfull ih =>
    obtain ⟨acc, hshift, hacc⟩ := Word.shiftRight?_spec (x := w.acc) (k := 8) (by decide)
    obtain ⟨w', h', hw'⟩ := ih acc
    refine ⟨w', ?_, ?_⟩
    · rw [flush?, if_pos hfull, hshift]
      exact h'
    · rw [hw', BitWriter.flush.eq_1 w.toWriter, if_pos (show 8 ≤ w.toWriter.pending from hfull),
        toWriter, hacc]
      rfl
  | case2 w hfull =>
    refine ⟨w, by rw [flush?, if_neg hfull], ?_⟩
    rw [BitWriter.flush, if_neg (show ¬8 ≤ w.toWriter.pending from hfull)]

/-- There is room for the bits that are pending and 57 more. -/
theorem writeBits?_spec {n : Nat} (hn : n ≤ 57) (v : UInt64) (hw : w.toWriter.Valid) :
    ∃ w', w.writeBits? n v = some w' ∧ w'.toWriter = w.toWriter.writeBits n v.toNat := by
  unfold writeBits?
  split
  · next h0 => exact ⟨w, rfl, by rw [h0, BitWriter.writeBits_zero hw]⟩
  have hacc : w.acc.toNat < 2 ^ w.pending := hw.acc_lt
  have hpending : w.pending < 8 := hw.pending_lt
  obtain ⟨low, hmask, hlow⟩ := Word.low?_spec (x := v) (k := n) (by omega)
  obtain ⟨laid, hshift, hlaid⟩ := Word.shiftLeft?_spec (x := low) (k := w.pending) (by omega)
  have hlt : low.toNat < 2 ^ n := hlow ▸ Nat.mod_lt _ (Nat.two_pow_pos n)
  have hsum := Word.toNat_or_shifted_of_room (by omega) hacc hlaid hlt (by omega)
  rw [hlow, ← Nat.one_shiftLeft] at hsum
  obtain ⟨w', h', hw'⟩ := flush?_spec ⟨w.bytes, w.acc ||| laid, w.pending + n⟩
  refine ⟨w', by rw [hmask, Option.bind_eq_bind, Option.bind_some, hshift]; exact h', ?_⟩
  rw [hw', toWriter, hsum]
  rfl

/-- Aligning the word is aligning the writer without a bound. -/
theorem toWriter_alignToByte (w : WordWriter) :
    w.alignToByte.toWriter = w.toWriter.alignToByte := by
  unfold alignToByte BitWriter.alignToByte
  have hpending : w.toWriter.pending = w.pending := rfl
  rw [hpending]
  split <;> rfl

/-- Bytes are added to the same bytes, whatever the word is. -/
theorem toWriter_writeBytes (bytes : List UInt8) (w : WordWriter) :
    (w.writeBytes bytes).toWriter = w.toWriter.writeBytes bytes := by
  rw [BitWriter.writeBytes, ← toWriter_alignToByte]
  rfl

/-- Of a number that is written only the low bits count, so it may be brought into a word. -/
theorem writeBits_toNat_ofNat {n : Nat} (hn : n ≤ 64) (v : Nat) (w : BitWriter) :
    w.writeBits n (UInt64.ofNat v).toNat = w.writeBits n v := by
  rw [BitWriter.writeBits, BitWriter.writeBits, Nat.one_shiftLeft, UInt64.toNat_ofNat',
    Nat.mod_mod_of_dvd _ (Nat.pow_dvd_pow 2 hn)]

/-- Every call on the word succeeds, and does what it does without a bound. -/
theorem perform?_spec (hw : w.toWriter.Valid) (c : Call) :
    ∃ w', w.perform? c = some w' ∧ w'.toWriter = c.perform w.toWriter := by
  cases c with
  | bits n v => exact writeBits?_spec (Nat.le_of_lt_succ n.isLt) v hw
  | bit b =>
    obtain ⟨w', h', hw'⟩ := writeBits?_spec (n := 1) (by decide) (UInt64.ofNat b.toNat) hw
    exact ⟨w', h', hw'.trans (writeBits_toNat_ofNat (n := 1) (by decide) b.toNat _)⟩
  | reversed n v =>
    have hn := n.isLt
    obtain ⟨w', h', hw'⟩ :=
      writeBits?_spec (n := n) (by omega) (UInt64.ofNat (reverseBits n v.toNat)) hw
    exact ⟨w', h', hw'.trans (writeBits_toNat_ofNat (n := n) (by omega) (reverseBits n v.toNat) _)⟩
  | align => exact ⟨_, rfl, toWriter_alignToByte w⟩
  | word v =>
    have hlow : v.toUInt8 = v.toNat.toUInt8 := rfl
    have hhigh : (v >>> 8).toUInt8 = (v.toNat / 256).toUInt8 := by
      refine UInt8.toNat_inj.1 ?_
      rw [UInt16.toNat_toUInt8, UInt16.toNat_shiftRight, Nat.shiftRight_eq_div_pow]
      rfl
    refine ⟨_, rfl, ?_⟩
    rw [toWriter_writeBytes, hlow, hhigh]
    rfl
  | bytes bs => exact ⟨_, rfl, toWriter_writeBytes bs w⟩

/-- Nothing is shifted out in any call, and the bound on the accumulator does not show. -/
theorem run?_spec (hw : w.toWriter.Valid) (calls : List Call) :
    ∃ w', run? calls w = some w' ∧ w'.toWriter = BitWriter.run calls w.toWriter := by
  induction calls generalizing w with
  | nil => exact ⟨w, rfl, rfl⟩
  | cons c calls ih =>
    obtain ⟨w₁, h₁, hw₁⟩ := perform?_spec hw c
    obtain ⟨w₂, h₂, hw₂⟩ := ih (w := w₁) (by rw [hw₁]; exact (c.puts_perform hw).1)
    refine ⟨w₂, ?_, by rw [hw₂, hw₁]; rfl⟩
    rw [run?, List.foldlM_cons, h₁]
    exact h₂

end WordWriter

end DeflateRecoder
