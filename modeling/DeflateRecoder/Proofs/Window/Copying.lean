import DeflateRecoder.Proofs.Inflate.Basic
import DeflateRecoder.Proofs.Window

/-!
# Matches are copies

A match is resolved by repeating the bytes that it reaches back to, and these are looked up in
blocks. The plain way is to append one byte after the other to one list, each of them a copy of the
byte `distance` bytes before the end (`Inflate.copyBytes`). Both come to the same
(`Inflate.copyBytes_eq`), whichever blocks the bytes are in and wherever the match runs into its own
bytes, and `resolve_copies` says so of every window over earlier payloads, together with what is
refused and what the refusal tells.
-/

namespace DeflateRecoder

open Window (flatten)

/-! ## Repeated bytes -/

/-- One more byte is one more of those that repeat. -/
theorem cycle_succ (period : List UInt8) (n : Nat) :
    cycle period (n + 1) = cycle period n ++ [period.getD (n % period.length) 0] := by
  rw [cycle, List.range_succ, List.map_append, cycle]
  simp

/-- Each byte of a repetition is found in the period at its place modulo the period's length. -/
theorem getElem?_cycle {period : List UInt8} {n i : Nat} (h : i < n) :
    (cycle period n)[i]? = some (period.getD (i % period.length) 0) := by
  rw [cycle, List.getElem?_map, List.getElem?_range h]
  simp

/-- Of a sequence that repeats, only as much counts as is taken. -/
theorem cycle_take (period : List UInt8) (n : Nat) :
    cycle (period.take (min period.length n)) n = cycle period n := by
  rcases Nat.le_total period.length n with hle | hle
  · rw [Nat.min_eq_left hle, List.take_length]
  · rw [Nat.min_eq_right hle]
    refine List.ext_getElem? fun i => ?_
    rcases Nat.lt_or_ge i n with hi | hi
    · have htake : (period.take n).length = n := by rw [List.length_take, Nat.min_eq_left hle]
      rw [getElem?_cycle hi, getElem?_cycle hi, htake, Nat.mod_eq_of_lt hi,
        Nat.mod_eq_of_lt (Nat.lt_of_lt_of_le hi hle), List.getD_eq_getElem?_getD,
        List.getElem?_take_of_lt hi, List.getD_eq_getElem?_getD]
    · rw [List.getElem?_eq_none (by rw [length_cycle]; exact hi),
        List.getElem?_eq_none (by rw [length_cycle]; exact hi)]

/-! ## Copying byte by byte -/

namespace Inflate

/-- The byte `distance` bytes before the end, when `k` bytes have been copied from there on. -/
theorem getElem?_copied {out : List UInt8} {distance : Nat} (h₁ : 1 ≤ distance)
    (h₂ : distance ≤ out.length) (k : Nat) :
    (out ++ cycle (out.drop (out.length - distance)) k)[out.length + k - distance]? =
      some ((out.drop (out.length - distance)).getD (k % distance) 0) := by
  have hperiod : (out.drop (out.length - distance)).length = distance := by
    rw [List.length_drop]
    omega
  rcases Nat.lt_or_ge k distance with hk | hk
  · -- It is one of the bytes that the match reaches back to.
    have hindex : out.length + k - distance = out.length - distance + k := by omega
    rw [hindex, List.getElem?_append_left (by omega), ← List.getElem?_drop, Nat.mod_eq_of_lt hk,
      List.getD_eq_getElem?_getD, List.getElem?_eq_getElem (by omega), Option.getD_some]
  · -- It has been copied itself.
    have hindex : out.length + k - distance = out.length + (k - distance) := by omega
    rw [hindex, List.getElem?_append_right (Nat.le_add_right _ _), Nat.add_sub_cancel_left,
      getElem?_cycle (by omega), hperiod, ← Nat.mod_eq_sub_mod hk]

/-- Copying goes on with what the bytes before it repeat. -/
theorem copyBytes_cycle {out : List UInt8} {distance : Nat} (h₁ : 1 ≤ distance)
    (h₂ : distance ≤ out.length) (n k : Nat) :
    copyBytes distance n (out ++ cycle (out.drop (out.length - distance)) k) =
      some (out ++ cycle (out.drop (out.length - distance)) (k + n)) := by
  have hperiod : (out.drop (out.length - distance)).length = distance := by
    rw [List.length_drop]
    omega
  induction n generalizing k with
  | zero => rfl
  | succ n ih =>
    have hlen : (out ++ cycle (out.drop (out.length - distance)) k).length = out.length + k := by
      rw [List.length_append, length_cycle]
    have hnext := cycle_succ (out.drop (out.length - distance)) k
    rw [hperiod] at hnext
    rw [copyBytes, hlen, if_neg (by omega), getElem?_copied h₁ h₂, Option.bind_eq_bind,
      Option.bind_some, List.append_assoc, ← hnext, ih, Nat.add_right_comm, Nat.add_assoc]

/-- Copying byte by byte appends what the match stands for. -/
theorem copyBytes_eq {out : List UInt8} {distance : Nat} (h₁ : 1 ≤ distance)
    (h₂ : distance ≤ out.length) (n : Nat) :
    copyBytes distance n out = some (out ++ repeated out distance n) := by
  have hperiod : (out.drop (out.length - distance)).length = distance := by
    rw [List.length_drop]
    omega
  have htake := cycle_take (out.drop (out.length - distance)) n
  rw [hperiod] at htake
  have hcopy := copyBytes_cycle h₁ h₂ n 0
  rw [Nat.zero_add] at hcopy
  rw [repeated, htake, ← hcopy]
  congr 1
  exact (List.append_nil out).symm

end Inflate

/-! ## Windows over payloads -/

section

variable {payloads : List (Array UInt8)} {w : Window} {current : Array UInt8}
  {distance length : Nat}

/-- No match has a distance of 0, nor one beyond the greatest. -/
theorem resolve_of_out_of_range (h : distance = 0 ∨ maxDistance < distance) :
    resolve current w distance length =
      .error (.distanceTooFar distance (current.size + w.available)) :=
  if_pos (h.imp_right .inr)

/-- A window that covers the payloads may leave some of them out, but where a match within reach
lacks bytes it has not. -/
theorem available_of_covers (h : w.Covers payloads) (hmax : distance ≤ maxDistance)
    (hfar : current.size + w.available < distance) :
    current.size + w.available = (payloads.flatMap Array.toList ++ current.toList).length := by
  obtain ⟨far, hblocks, rfl | hreach⟩ := h
  · rw [← Window.flatten_reverse, hblocks, List.append_nil, List.length_append,
      Window.length_flatten, ← w.available_eq, Array.length_toList, Nat.add_comm]
  · omega

/-- What a match within reach comes to behind payloads, in whichever window covers them. -/
theorem resolve_of_covers (h : w.Covers payloads) (h₁ : 1 ≤ distance)
    (hmax : distance ≤ maxDistance) :
    resolve current w distance length =
      if distance ≤ (payloads.flatMap Array.toList ++ current.toList).length then
        .ok (repeated (payloads.flatMap Array.toList ++ current.toList) distance length)
      else
        .error (.distanceTooFar distance
          (payloads.flatMap Array.toList ++ current.toList).length) := by
  have hok := fun bytes => (h.agrees current distance length bytes).trans resolve_eq_ok
  rw [Window.ofNewest, Window.flatten_reverse] at hok
  split
  · next hlen => exact (hok _).2 ⟨h₁, hlen, hmax, rfl⟩
  · next hlen =>
    have hfar : current.size + w.available < distance := by
      by_contra hnear
      have hfound := (resolve_eq current w distance length).trans (if_neg (by omega))
      exact hlen ((hok _).1 hfound).2.1
    rw [← available_of_covers h hmax hfar]
    exact if_pos (.inr (.inl hfar))

/-- A match is found when its distance is within reach, and refused with that distance when not. -/
theorem resolve_cases (h : w.Covers payloads) (current : Array UInt8) (distance length : Nat) :
    let flat := payloads.flatMap Array.toList ++ current.toList
    (1 ≤ distance ∧ distance ≤ min maxDistance flat.length ∧
        resolve current w distance length = .ok (repeated flat distance length)) ∨
      ¬(1 ≤ distance ∧ distance ≤ min maxDistance flat.length) ∧ ∃ available,
        resolve current w distance length = .error (.distanceTooFar distance available) ∧
          (1 ≤ distance → distance ≤ maxDistance → available = flat.length) := by
  intro flat
  by_cases hrange : 1 ≤ distance ∧ distance ≤ maxDistance
  · have hresolve : resolve current w distance length = if distance ≤ flat.length then
        .ok (repeated flat distance length) else .error (.distanceTooFar distance flat.length) :=
      resolve_of_covers h hrange.1 hrange.2
    split at hresolve
    · next hlen => exact .inl ⟨hrange.1, Nat.le_min.2 ⟨hrange.2, hlen⟩, hresolve⟩
    · next hlen => exact .inr ⟨by omega, _, hresolve, fun _ _ => rfl⟩
  · exact .inr ⟨by omega, _, resolve_of_out_of_range (by omega), by omega⟩

end

/-- Behind payloads a match is found when it does not reach further back than there are bytes, nor
than any match can, and it is then what copying byte by byte appends to these bytes. The refusal of
a distance that a match can have tells how many bytes there are. A window may as well keep all
payloads or leave out more of those that are out of reach; only the number of bytes that is told in
the refusal of a distance that no match can have depends on it. -/
theorem resolve_copies (payloads : List (Array UInt8)) (current : Array UInt8)
    (distance length : Nat) :
    let flat := payloads.flatMap Array.toList ++ current.toList
    let found := resolve current (.ofBlocks payloads) distance length
    ((∃ bytes, found = .ok bytes) ↔ 1 ≤ distance ∧ distance ≤ min maxDistance flat.length) ∧
    (∀ bytes, found = .ok bytes → bytes.length = length ∧
      Inflate.copyBytes distance length flat = some (flat ++ bytes)) ∧
    (∀ e, found = .error e → ∃ available, e = .distanceTooFar distance available ∧
      (1 ≤ distance → distance ≤ maxDistance → available = flat.length)) ∧
    ∀ w : Window, w.Covers payloads →
      resolve current w distance length = found ∨
        (distance = 0 ∨ maxDistance < distance) ∧ ∃ available,
          resolve current w distance length = .error (.distanceTooFar distance available) := by
  intro flat found
  have hcovers := Window.covers_ofBlocks payloads
  have houtcome := resolve_cases hcovers current distance length
  refine ⟨?_, ?_, ?_, fun w h => ?_⟩
  · rcases houtcome with ⟨h₁, hle, hfound⟩ | ⟨hrange, _, hfound, -⟩
    · exact iff_of_true ⟨_, hfound⟩ ⟨h₁, hle⟩
    · refine iff_of_false ?_ hrange
      rintro ⟨bytes, hbytes⟩
      cases hfound.symm.trans hbytes
  · intro bytes hbytes
    rcases houtcome with ⟨h₁, hle, hfound⟩ | ⟨-, _, hfound, -⟩
    · cases hfound.symm.trans hbytes
      exact ⟨length_cycle _ _, Inflate.copyBytes_eq h₁ (Nat.le_min.1 hle).2 length⟩
    · cases hfound.symm.trans hbytes
  · intro e he
    rcases houtcome with ⟨-, -, hfound⟩ | ⟨-, available, hfound, havailable⟩
    · cases hfound.symm.trans he
    · cases hfound.symm.trans he
      exact ⟨available, rfl, havailable⟩
  · by_cases hrange : 1 ≤ distance ∧ distance ≤ maxDistance
    · exact .inl ((resolve_of_covers h hrange.1 hrange.2).trans
        (resolve_of_covers hcovers hrange.1 hrange.2).symm)
    · have hout : distance = 0 ∨ maxDistance < distance := by omega
      exact .inr ⟨hout, _, resolve_of_out_of_range hout⟩

/-- A match that begins in a block, goes on over an empty one and the next, and ends in its own
bytes. -/
theorem resolve_copies_across :
    let payloads := [#[97, 98, 99], #[], #[100]]
    resolve #[101] (.ofBlocks payloads) 4 6 = .ok [98, 99, 100, 101, 98, 99] ∧
      Inflate.copyBytes 4 6 [97, 98, 99, 100, 101] =
        some [97, 98, 99, 100, 101, 98, 99, 100, 101, 98, 99] ∧
      resolve #[101] (.ofNewest payloads.reverse) 4 6 = .ok [98, 99, 100, 101, 98, 99] := by
  intro payloads
  obtain ⟨-, hok, -, hsame⟩ := resolve_copies payloads #[101] 4 6
  have hfound : resolve #[101] (.ofBlocks payloads) 4 6 = .ok [98, 99, 100, 101, 98, 99] :=
    resolve_eq_ok.2 ⟨by decide, by decide, by decide, by decide⟩
  refine ⟨hfound, (hok _ hfound).2, ?_⟩
  rcases hsame _ (Window.covers_ofNewest payloads) with h | ⟨hout, -⟩
  · exact h.trans hfound
  · exact absurd hout (by decide)

end DeflateRecoder
