import DeflateRecoder.Proofs.Bits.Cursor
import DeflateRecoder.Proofs.Bits.WordWriter

/-!
# Reading back what was written

Each call on a writer has a call on a reader that reads what it has written
(`BitWriter.Call.matching`). A cursor that stands where the bits of a call begin answers the
matching call with what was written and stops where they end (`Cursor.Step.written`), so one call
after the other is read back (`BitReader.Reads.written`) from whatever begins with the bytes of the
finished writer (`BitWriter.run_read_back`).
-/

namespace DeflateRecoder

open BitReader (Answer)
open BitWriter (appended)

/-! ## Matching calls -/

namespace BitWriter.Call

/-- The call on a reader that reads what a call on a writer has written. -/
def matching : BitWriter.Call → BitReader.Call
  | .bits n _ => .bits n
  | .bit _ => .bit
  | .reversed n _ => .bits (n.castLE (by decide))
  | .align => .align
  | .word _ => .word
  | .bytes bs => .bytes bs.length

/-- What is read where a call has written. -/
def value : BitWriter.Call → Answer
  | .bits n v => .number (v.toNat % 2 ^ n.val)
  | .bit b => .flag b
  | .reversed n v => .number (valueOf (bitsOf n v.toNat).reverse)
  | .align => .done
  | .word v => .number v.toNat
  | .bytes bs => .bytes bs

end BitWriter.Call

/-! ## One call -/

namespace Cursor

variable {bytes : List UInt8} {p n stop : Nat} {u tail : List Bool} {Left : Nat → Prop}
  {outcome : Except Error Answer}

/-- Where there are bits, a cursor moves over them. -/
theorem Advances.of_drop {answer : Answer} (hmove : Advances bytes p n answer Left outcome stop)
    (hn : u.length = n) (hp : p ≤ 8 * bytes.length)
    (h : (bytesBits bytes).drop p = u ++ tail) : outcome = .ok answer ∧ stop = p + n := by
  have hlen := congrArg List.length h
  rw [List.length_drop, length_bytesBits, List.length_append, hn] at hlen
  rwa [Advances, if_pos (by omega)] at hmove

/-- Where there are bits, a cursor reads the number that they spell. -/
theorem Advances.number
    (hmove : Advances bytes p n (.number (numberAt bytes p n)) Left outcome stop)
    (hn : u.length = n) (hp : p ≤ 8 * bytes.length)
    (h : (bytesBits bytes).drop p = u ++ tail) :
    outcome = .ok (.number (valueOf u)) ∧ stop = p + u.length := by
  have hnumber : numberAt bytes p n = valueOf u := by rw [numberAt, h, List.take_left' hn]
  have hread := hmove.of_drop hn hp h
  rwa [hnumber, ← hn] at hread

/-- Before the end of the bytes, the next byte boundary is no further than the end. -/
theorem boundary_le (hp : p ≤ 8 * bytes.length) : boundary p ≤ 8 * bytes.length := by
  rw [boundary, paddingAt]
  omega

/-- Behind padding there is what was written behind it. -/
theorem drop_boundary
    (h : (bytesBits bytes).drop p = List.replicate (paddingAt p) false ++ u ++ tail) :
    (bytesBits bytes).drop (boundary p) = u ++ tail := by
  rw [boundary, ← List.drop_drop, h, List.append_assoc, List.drop_left' List.length_replicate]

/-- Going to the next byte boundary and on is going over the padding and on. -/
theorem boundary_add_length (p : Nat) (u : List Bool) :
    boundary p + u.length = p + (List.replicate (paddingAt p) false ++ u).length := by
  rw [boundary, List.length_append, List.length_replicate, Nat.add_assoc]

/-- Where a call has written, the matching call reads the same and stops behind it. -/
theorem Step.written {c : BitWriter.Call} (hstep : Step bytes p c.matching outcome stop)
    (hp : p ≤ 8 * bytes.length) (h : (bytesBits bytes).drop p = c.bitsAt p ++ tail) :
    outcome = .ok c.value ∧ stop = p + (c.bitsAt p).length := by
  cases c with
  | bits n v =>
    have hmove : Advances bytes p n (.number (numberAt bytes p n)) (· = p) outcome stop := hstep
    have hread := hmove.number (length_bitsOf n v.toNat) hp h
    rw [valueOf_bitsOf] at hread
    exact hread
  | bit b =>
    have hmove : Advances bytes p 1 (.flag (bitAt bytes p)) (· = p) outcome stop := hstep
    have hflag : bitAt bytes p = b := by rw [bitAt, ← List.head?_drop, h]; rfl
    rw [hflag] at hmove
    exact hmove.of_drop (u := [b]) rfl hp h
  | reversed n v =>
    have hmove : Advances bytes p n (.number (numberAt bytes p n)) (· = p) outcome stop := hstep
    have hlen : (bitsOf n v.toNat).reverse.length = n := by
      rw [List.length_reverse, length_bitsOf]
    exact hmove.number hlen hp h
  | align =>
    refine ⟨hstep.1, hstep.2.trans ?_⟩
    rw [boundary, BitWriter.Call.bitsAt, List.length_replicate]
  | word v =>
    have hmove : Advances bytes (boundary p) 16 (.number (numberAt bytes (boundary p) 16))
      (· = boundary p) outcome stop := hstep
    have hread := hmove.number (length_bitsOf 16 v.toNat) (boundary_le hp) (drop_boundary h)
    rw [valueOf_bitsOf, Nat.mod_eq_of_lt v.toNat_lt, boundary_add_length] at hread
    exact hread
  | bytes bs =>
    have hmove : Advances bytes (boundary p) (8 * bs.length)
      (.bytes ((bytes.drop (boundary p / 8)).take bs.length))
      (fun stop => stop % 8 = 0 ∧ boundary p ≤ stop ∧ stop ≤ 8 * bytes.length) outcome stop := hstep
    have hmod : boundary p % 8 = 0 := add_paddingAt_mod p
    rw [take_drop_eq hmod (drop_boundary h)] at hmove
    have hread := hmove.of_drop (length_bytesBits bs) (boundary_le hp) (drop_boundary h)
    rw [← length_bytesBits, boundary_add_length] at hread
    exact hread

end Cursor

/-! ## One call after the other -/

/-- Where calls have written, the matching calls read the same, and stop behind it. -/
theorem BitReader.Reads.written {bytes : List UInt8} {r : BitReader} (hr : Reads bytes r)
    {calls : List BitWriter.Call} {tail : List Bool}
    (h : (bytesBits bytes).drop r.position = appended r.position calls ++ tail) :
    let made := BitReader.run (calls.map BitWriter.Call.matching) r
    made.map Prod.fst = calls.map (fun c => .ok c.value) ∧
      (made.map fun m => m.2.position).getLastD r.position =
        r.position + (appended r.position calls).length := by
  induction calls generalizing r with
  | nil => exact ⟨rfl, rfl⟩
  | cons c calls ih =>
    have hp : r.position ≤ 8 * bytes.length := Nat.le.intro hr.position_add
    rw [appended, List.append_assoc] at h
    obtain ⟨hfirst, hstep⟩ := c.matching.attempt_step hr
    obtain ⟨hvalue, hstop⟩ := hstep.written hp h
    have hbehind := congrArg (List.drop (c.bitsAt r.position).length) h
    rw [List.drop_drop, List.drop_left, ← hstop] at hbehind
    obtain ⟨hvalues, hend⟩ := ih hfirst hbehind
    refine ⟨?_, ?_⟩
    · simp only [List.map_cons, BitReader.run, hvalue, hvalues]
    · simp only [List.map_cons, BitReader.run, List.getLastD_cons, hend, appended,
        List.length_append]
      rw [hstop, Nat.add_assoc]

/-- A reader gets back what a writer was given. Whatever is written, the writer counts the bits that
it has appended, padding included. Its bytes have those bits, and zeros up to the last byte
boundary. Whatever comes behind them, the matching reads give what was written and end where the
writer did. An accumulator of 64 bits does for all of this. -/
theorem BitWriter.run_read_back (calls : List Call) (rest : List UInt8) :
    let w := run calls empty
    let made := BitReader.run (calls.map Call.matching) (BitReader.ofBytes (w.finish ++ rest))
    w.bitLength = (appended 0 calls).length ∧
      bytesBits w.finish = appended 0 calls ++ List.replicate (paddingAt w.bitLength) false ∧
      w.finish.length = (w.bitLength + 7) / 8 ∧
      made.map Prod.fst = calls.map (fun c => .ok c.value) ∧
      (made.map fun m => m.2.position).getLastD 0 = w.bitLength ∧
      ∃ words, WordWriter.run? calls WordWriter.empty = some words ∧ words.toWriter = w := by
  intro w made
  have hputs := puts_run valid_empty calls
  have hbits : w.bits = appended 0 calls := hputs.2
  have hlength : w.bitLength = (appended 0 calls).length := by rw [← hbits, length_bits]
  have hfinish := bytesBits_finish hputs.1
  rw [hbits] at hfinish
  have hbegins : (bytesBits (w.finish ++ rest)).drop 0 = appended 0 calls ++
      (List.replicate (paddingAt w.bitLength) false ++ bytesBits rest) := by
    rw [List.drop_zero, bytesBits_append, hfinish, List.append_assoc]
  obtain ⟨hvalues, hend⟩ := (BitReader.Reads.ofBytes (w.finish ++ rest)).written hbegins
  refine ⟨hlength, hfinish, length_finish hputs.1, hvalues, ?_,
    WordWriter.run?_spec (w := WordWriter.empty) valid_empty calls⟩
  rw [hlength]
  exact hend.trans (Nat.zero_add _)

end DeflateRecoder
