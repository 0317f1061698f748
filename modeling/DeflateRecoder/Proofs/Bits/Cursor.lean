import DeflateRecoder.Proofs.Bits.Reader

/-!
# The reader as a plain cursor

A cursor is a bit offset into a byte list. `Cursor.Step` says what it answers to a call and where it
stands then, and `Cursor.Run` what it does with one call after the other, whether they fail or not.
A reader keeps bits of its input in a window and fills it in its own way, but all of this does not
show: `BitReader.Reads.run` says that its answers and its positions are those of a cursor.

Only a read of bytes that fails shows something of the window. The cursor then stands on a byte
boundary, of which no more is said than that it lies behind the padding and within the input.
-/

namespace DeflateRecoder

/-! ## Calls -/

/-- What comes of a parser, and the reader that it leaves, also when it fails. -/
def Parser.attempt {α : Type} (p : Parser α) (r : BitReader) : Except Error α × BitReader :=
  match p r with
  | .ok a r' => (.ok a, r')
  | .error e r' => (.error e, r')

/-- Mapping a parser maps what an attempt gives, and leaves the reader where it is. -/
theorem Parser.attempt_map {α β : Type} (f : α → β) (p : Parser α) (r : BitReader) :
    Parser.attempt (f <$> p) r = ((p.attempt r).1.map f, (p.attempt r).2) := by
  unfold Parser.attempt
  show (match EStateM.map f p r with | .ok a r' => _ | .error e r' => _) = _
  rw [EStateM.map]
  cases p r <;> rfl

namespace BitReader

/-- A call on a reader. Up to 57 bits can be asked for at once. -/
inductive Call
  /-- Some bits, as a number. -/
  | bits (n : Fin 58)
  /-- One bit. -/
  | bit
  /-- The padding up to the next byte boundary. -/
  | align
  /-- A 16-bit number from the next byte boundary on. -/
  | word
  /-- Some bytes from the next byte boundary on. -/
  | bytes (n : Nat)
  deriving DecidableEq, Repr

/-- What a call gives. -/
inductive Answer
  /-- A number. -/
  | number (v : Nat)
  /-- A bit. -/
  | flag (b : Bool)
  /-- Bytes. -/
  | bytes (bytes : List UInt8)
  /-- Nothing but that it is done. -/
  | done
  deriving DecidableEq, Repr

/-- The read that a call makes. -/
def Call.perform : Call → Parser Answer
  | .bits n => .number <$> readBits n
  | .bit => .flag <$> readBit
  | .align => (fun _ => .done) <$> alignToByte
  | .word => .number <$> readWord
  | .bytes n => .bytes <$> readBytes n

/-- What comes of each of some calls, and the reader that it leaves. They are made one after the
other, whether they fail or not. -/
def run : List Call → BitReader → List (Except Error Answer × BitReader)
  | [], _ => []
  | c :: calls, r =>
    let first := c.perform.attempt r
    first :: run calls first.2

end BitReader

/-! ## Cursors -/

namespace Cursor

open BitReader (Call Answer)

/-- The next byte boundary. -/
def boundary (position : Nat) : Nat := position + paddingAt position

/-- The number that `n` bits spell, the first one lowest. -/
def numberAt (bytes : List UInt8) (position n : Nat) : Nat :=
  valueOf (((bytesBits bytes).drop position).take n)

/-- Moves over `n` bits with the given answer when there are so many. Otherwise the input ends too
early, and `Left` says where the cursor may be left. -/
def Advances (bytes : List UInt8) (start n : Nat) (answer : Answer) (Left : Nat → Prop)
    (outcome : Except Error Answer) (stop : Nat) : Prop :=
  if start + n ≤ 8 * bytes.length then outcome = .ok answer ∧ stop = start + n
  else outcome = .error .unexpectedEnd ∧ Left stop

/-- What a cursor answers to a call, and where it stands then. -/
def Step (bytes : List UInt8) (p : Nat) :
    Call → (outcome : Except Error Answer) → (stop : Nat) → Prop
  | .bits n => Advances bytes p n (.number (numberAt bytes p n)) (· = p)
  | .bit => Advances bytes p 1 (.flag (bitAt bytes p)) (· = p)
  | .align => fun outcome stop => outcome = .ok .done ∧ stop = boundary p
  | .word =>
    Advances bytes (boundary p) 16 (.number (numberAt bytes (boundary p) 16)) (· = boundary p)
  | .bytes n =>
    Advances bytes (boundary p) (8 * n) (.bytes ((bytes.drop (boundary p / 8)).take n)) fun stop =>
      stop % 8 = 0 ∧ boundary p ≤ stop ∧ stop ≤ 8 * bytes.length

/-- What a cursor answers to each of some calls, one after the other, and where it stands then. -/
inductive Run (bytes : List UInt8) : Nat → List Call → List (Except Error Answer × Nat) → Prop
  | nil (p : Nat) : Run bytes p [] []
  | cons {p q : Nat} {c : Call} {calls : List Call} {outcome : Except Error Answer}
      {outcomes : List (Except Error Answer × Nat)} (first : Step bytes p c outcome q)
      (others : Run bytes q calls outcomes) :
      Run bytes p (c :: calls) ((outcome, q) :: outcomes)

/-- The bytes at a byte boundary are those whose bits are there. -/
theorem take_drop_eq {bytes bs : List UInt8} {p : Nat} {tail : List Bool} (hp : p % 8 = 0)
    (h : (bytesBits bytes).drop p = bytesBits bs ++ tail) :
    (bytes.drop (p / 8)).take bs.length = bs := by
  refine bytesBits_injective ?_
  rw [bytesBits_take, bytesBits_drop, Nat.mul_div_cancel' (Nat.dvd_of_mod_eq_zero hp), h,
    List.take_left' (length_bytesBits bs)]

end Cursor

namespace BitReader

open Cursor (boundary)

/-! ## One call -/

/-- The bits that the reader has left are those of the input behind its position. -/
structure Reads (bytes : List UInt8) (r : BitReader) : Prop where
  valid : r.Valid
  bits_eq : r.bits = (bytesBits bytes).drop r.position
  byteCount_eq : r.byteCount = bytes.length

/-- The parser moves from `start` over `n` bits with the given value when there are so many.
Otherwise the input ends too early, and `Left` says where the reader may be left. -/
def MovesOver {α : Type} (bytes : List UInt8) (r : BitReader) (p : Parser α) (start n : Nat) (a : α)
    (Left : Nat → Prop) : Prop :=
  ∃ r', Reads bytes r' ∧
    if start + n ≤ 8 * bytes.length then p r = .ok a r' ∧ r'.position = start + n
    else p r = .error .unexpectedEnd r' ∧ Left r'.position

namespace Reads

variable {bytes : List UInt8} {r : BitReader}

/-- A new reader is at the first bit of its bytes. -/
theorem ofBytes (bytes : List UInt8) : Reads bytes (ofBytes bytes) :=
  ⟨valid_ofBytes bytes, rfl, Nat.zero_add _⟩

/-- What was taken and what is left are all the bits. -/
theorem position_add (h : Reads bytes r) : r.position + r.remaining = 8 * bytes.length := by
  rw [← h.byteCount_eq]
  exact h.valid.position_add

/-- Aligning a reader brings it to the next byte boundary. -/
theorem align (h : Reads bytes r) :
    Reads bytes r.align ∧ r.align.position = boundary r.position := by
  obtain ⟨hv, hb, hpos, hcount⟩ := align_spec h.valid
  refine ⟨⟨hv, ?_, hcount.trans h.byteCount_eq⟩, hpos⟩
  rw [hb, h.bits_eq, List.drop_drop, hpos]

/-- A read of bits, as a cursor makes it. -/
theorem readBits (h : Reads bytes r) (n : Nat) :
    MovesOver bytes r (readBits n) r.position n (Cursor.numberAt bytes r.position n)
      (· = r.position) := by
  have hsize := h.position_add
  unfold MovesOver
  split
  · next hn =>
    obtain ⟨r', e, hv, hb, hpos, hcount⟩ := readBits_ok h.valid (n := n) (by omega)
    rw [h.bits_eq] at e
    refine ⟨r', ⟨hv, ?_, hcount.trans h.byteCount_eq⟩, e, hpos⟩
    rw [hb, h.bits_eq, List.drop_drop, hpos]
  · next hn =>
    obtain ⟨r', e, hv, hb, hpos, hcount⟩ := readBits_error h.valid (n := n) (by omega)
    refine ⟨r', ⟨hv, ?_, hcount.trans h.byteCount_eq⟩, e, hpos⟩
    rw [hb, h.bits_eq, hpos]

/-- A read of a 16-bit number, as a cursor makes it. -/
theorem readWord (h : Reads bytes r) :
    MovesOver bytes r readWord (boundary r.position) 16
      (Cursor.numberAt bytes (boundary r.position) 16) (· = boundary r.position) := by
  obtain ⟨ha, hpos⟩ := h.align
  obtain ⟨r', hr', hread⟩ := ha.readBits 16
  rw [hpos] at hread
  exact ⟨r', hr', hread⟩

/-- A read of bytes, as a cursor makes it. -/
theorem readBytes (h : Reads bytes r) (n : Nat) :
    MovesOver bytes r (readBytes n) (boundary r.position) (8 * n)
      ((bytes.drop (boundary r.position / 8)).take n) fun stop =>
        stop % 8 = 0 ∧ boundary r.position ≤ stop ∧ stop ≤ 8 * bytes.length := by
  unfold MovesOver
  have hsize := h.position_add
  have hboundary : boundary r.position = r.position + paddingAt r.position := rfl
  split
  · next hn =>
    obtain ⟨bs, r', e, hlen, hv, hb, hpos, hcount⟩ := readBytes_ok h.valid (n := n) (by omega)
    rw [h.bits_eq, List.drop_drop, ← hboundary] at hb
    rw [← hboundary] at hpos
    have hmod : boundary r.position % 8 = 0 := add_paddingAt_mod r.position
    have hbytes := Cursor.take_drop_eq hmod hb
    rw [hlen] at hbytes
    refine ⟨r', ⟨hv, ?_, hcount.trans h.byteCount_eq⟩, hbytes.symm ▸ e, hpos⟩
    rw [hpos, ← List.drop_drop, hb, List.drop_left' (by rw [length_bytesBits, hlen])]
  · next hn =>
    obtain ⟨r', e, hv, hmod, hle, hcount, hb⟩ := readBytes_error h.valid (n := n) (by omega)
    have hreads : Reads bytes r' := by
      refine ⟨hv, ?_, hcount.trans h.byteCount_eq⟩
      rw [hb, h.bits_eq, List.drop_drop]
      congr 1
      omega
    have hsize' := hreads.position_add
    exact ⟨r', hreads, e, hmod, hle, by omega⟩

end Reads

/-! ## One call -/

variable {bytes : List UInt8} {r : BitReader}

/-- A parser that moves over some bits, or fails when there are too few, does so in a call. -/
theorem Call.attempt_advances {α : Type} {f : α → Answer} {p : Parser α} {c : Call} {a : α}
    {start n : Nat} {Left : Nat → Prop} (hc : c.perform = f <$> p)
    (h : MovesOver bytes r p start n a Left) :
    Reads bytes (c.perform.attempt r).2 ∧ Cursor.Advances bytes start n (f a) Left
      (c.perform.attempt r).1 (c.perform.attempt r).2.position := by
  obtain ⟨r', hr', hread⟩ := h
  rw [hc, Parser.attempt_map, Parser.attempt, Cursor.Advances]
  split at hread
  · next hn =>
    rw [hread.1, if_pos hn]
    exact ⟨hr', rfl, hread.2⟩
  · next hn =>
    rw [hread.1, if_neg hn]
    exact ⟨hr', rfl, hread.2⟩

/-- The number of one bit is that bit. -/
theorem numberAt_one (bytes : List UInt8) (p : Nat) :
    (Cursor.numberAt bytes p 1 != 0) = bitAt bytes p := by
  rw [Cursor.numberAt, bitAt, ← List.head?_drop]
  cases (bytesBits bytes).drop p with
  | nil => rfl
  | cons b _ => cases b <;> rfl

/-- Reading a bit is reading a number of one bit. -/
theorem perform_bit : Call.perform .bit = (fun v => .flag (v != 0)) <$> readBits 1 := by
  rw [Call.perform, readBit, map_eq_pure_bind, map_eq_pure_bind, bind_assoc]
  rfl

/-- A reader answers a call as a cursor does. -/
theorem Call.attempt_step (h : Reads bytes r) (c : Call) :
    Reads bytes (c.perform.attempt r).2 ∧ Cursor.Step bytes r.position c
      (c.perform.attempt r).1 (c.perform.attempt r).2.position := by
  cases c with
  | bits n => exact attempt_advances rfl (h.readBits n)
  | bit =>
    have hstep := attempt_advances perform_bit (h.readBits 1)
    rw [numberAt_one] at hstep
    exact hstep
  | align => exact ⟨h.align.1, rfl, h.align.2⟩
  | word => exact attempt_advances rfl h.readWord
  | bytes n => exact attempt_advances rfl (h.readBytes n)

/-! ## One call after the other -/

/-- A reader answers calls as a cursor does, one after the other. -/
theorem Reads.run (h : Reads bytes r) (calls : List Call) :
    Cursor.Run bytes r.position calls ((run calls r).map (Prod.map id position)) ∧
      ∀ made ∈ BitReader.run calls r, Reads bytes made.2 := by
  induction calls generalizing r with
  | nil => exact ⟨.nil _, fun _ hmade => nomatch hmade⟩
  | cons c calls ih =>
    obtain ⟨hfirst, hstep⟩ := c.attempt_step h
    obtain ⟨hrun, hothers⟩ := ih hfirst
    exact ⟨.cons hstep hrun, List.forall_mem_cons.2 ⟨hfirst, hothers⟩⟩

end BitReader

end DeflateRecoder
