import DeflateRecoder.Window

/-!
# What a match sees

`resolve` takes what it can from the block of the match and the rest from the window, which is a
slice of all these blocks (`resolve_eq`). What it finds depends only on the bytes of the blocks one
behind the other (`resolve_eq_ok`), and of them only on those that are not too far back. Windows in
which matches find the same bytes agree (`Window.Agrees`): windows with the same bytes do
(`Window.agrees_of_flatten_eq`), and leaving out what is out of reach changes nothing
(`Window.agrees_nearest`). A window over payloads takes them in from the newest back until it is
full (`Window.ofBlocks_cons`). One that holds the newest of some payloads, and enough of them, covers
them (`Window.Covers`).
-/

namespace DeflateRecoder

namespace Window

/-- The bytes of blocks, of which the newest is given first, in the order in which they came. -/
def flatten : List (Array UInt8) → List UInt8
  | [] => []
  | block :: older => flatten older ++ block.toList

/-- Blocks one behind the other have as many bytes as they have together. -/
theorem length_flatten (blocks : List (Array UInt8)) :
    (flatten blocks).length = total Array.size blocks := by
  induction blocks with
  | nil => rfl
  | cons block older ih =>
    rw [flatten, List.length_append, ih, Array.length_toList, total_cons, Nat.add_comm]

/-- Older blocks come first. -/
theorem flatten_append (newer older : List (Array UInt8)) :
    flatten (newer ++ older) = flatten older ++ flatten newer := by
  induction newer with
  | nil => exact (List.append_nil _).symm
  | cons block newer ih => rw [List.cons_append, flatten, flatten, ih, List.append_assoc]

/-- Payloads in the order in which they came make up their bytes. -/
theorem flatten_reverse (payloads : List (Array UInt8)) :
    flatten payloads.reverse = payloads.flatMap Array.toList := by
  induction payloads with
  | nil => rfl
  | cons block payloads ih =>
    rw [List.reverse_cons, flatten_append, ih, List.flatMap_cons]
    rfl

end Window

open Window (flatten)

/-! ## Looking back -/

/-- A slice of blocks is a slice of their bytes. -/
theorem slice_eq {blocks : List (Array UInt8)} {back : Nat} (count : Nat)
    (h : back ≤ (flatten blocks).length) :
    slice blocks back count =
      ((flatten blocks).drop ((flatten blocks).length - back)).take count := by
  induction blocks generalizing back with
  | nil => rw [slice, flatten, List.drop_nil, List.take_nil]
  | cons block older ih =>
    have hlen : (flatten (block :: older)).length = (flatten older).length + block.size := by
      rw [flatten, List.length_append, @Array.length_toList _ block]
    rw [hlen] at h ⊢
    rw [slice]
    split
    · next hle =>
      rw [flatten, Array.toList_extract, List.extract_eq_take_drop, Nat.add_sub_cancel_left,
        show (flatten older).length + block.size - back =
          (flatten older).length + (block.size - back) by omega, List.drop_append,
        List.drop_of_length_le (Nat.le_add_right _ _), List.nil_append, Nat.add_sub_cancel_left]
    · next hgt =>
      have hback : back - block.size ≤ (flatten older).length := by omega
      dsimp only
      rw [ih hback, Array.toList_extract, List.extract_eq_take_drop, List.drop_zero, Nat.sub_zero,
        flatten, show (flatten older).length + block.size - back =
          (flatten older).length - (back - block.size) by omega, List.drop_append, List.take_append,
        show (flatten older).length - (back - block.size) - (flatten older).length = 0 by omega,
        List.drop_zero, List.length_take]
      congr 2
      omega

/-- What a window is asked for is refused exactly where it is too short. -/
theorem Window.tail_eq_ok {w : Window} {back : Nat} (count : Nat) (h : back ≤ w.available) :
    w.tail back count = .ok (slice w.blocks back count) := if_neg (Nat.not_lt.2 h)

/-- The bytes that a match reaches back to are a slice of its own block and those of the window. The
window is never too short for what is asked of it. -/
theorem reached_eq {current : Array UInt8} {w : Window} {distance : Nat} (count : Nat)
    (h : distance ≤ current.size + w.available) :
    reached current w distance count = .ok (slice (current :: w.blocks) distance count) := by
  unfold reached
  rw [slice]
  split
  · rfl
  · rw [Window.tail_eq_ok count (Nat.sub_le_of_le_add (Nat.add_comm _ _ ▸ h))]
    rfl

/-- What a match is resolved to and when it is refused, with its own block as one more block. -/
theorem resolve_eq (current : Array UInt8) (w : Window) (distance length : Nat) :
    resolve current w distance length =
      if distance = 0 ∨ current.size + w.available < distance ∨ maxDistance < distance then
        .error (.distanceTooFar distance (current.size + w.available))
      else .ok (cycle (slice (current :: w.blocks) distance (min distance length)) length) := by
  unfold resolve
  dsimp only
  split
  · rfl
  · rw [reached_eq _ (by omega)]
    rfl

/-- The bytes that a match of the given length and distance stands for behind others. -/
def repeated (history : List UInt8) (distance length : Nat) : List UInt8 :=
  cycle ((history.drop (history.length - distance)).take (min distance length)) length

/-- A match is resolved from the bytes before it, wherever they are kept. -/
theorem resolve_eq_ok {current : Array UInt8} {w : Window} {distance length : Nat}
    {bytes : List UInt8} :
    resolve current w distance length = .ok bytes ↔
      1 ≤ distance ∧ distance ≤ (flatten w.blocks ++ current.toList).length ∧
        distance ≤ maxDistance ∧
        bytes = repeated (flatten w.blocks ++ current.toList) distance length := by
  have hlen : (flatten w.blocks ++ current.toList).length = current.size + w.available := by
    rw [List.length_append, Window.length_flatten, Array.length_toList, w.available_eq,
      Nat.add_comm]
  rw [hlen, resolve_eq]
  split
  · next hfar =>
    constructor
    · intro h
      cases h
    · rintro ⟨h₁, h₂, h₃, -⟩
      omega
  · next hnear =>
    rw [slice_eq _ (by rw [flatten, hlen]; omega), ← flatten, ← repeated, Except.ok.injEq]
    constructor
    · rintro rfl
      exact ⟨by omega, by omega, by omega, rfl⟩
    · rintro ⟨-, -, -, rfl⟩
      rfl

/-- As many bytes as were asked for are repeated. -/
theorem length_cycle (period : List UInt8) (n : Nat) : (cycle period n).length = n := by
  unfold cycle
  rw [List.length_map, List.length_range]

/-! ## Windows that agree -/

namespace Window

/-- Matches find the same bytes behind two windows. -/
def Agrees (w v : Window) : Prop := ∀ (current : Array UInt8) (distance length : Nat)
  (bytes : List UInt8),
  resolve current w distance length = .ok bytes ↔ resolve current v distance length = .ok bytes

/-- A window agrees with itself. -/
theorem Agrees.refl (w : Window) : w.Agrees w := fun _ _ _ _ => Iff.rfl

/-- Agreement goes both ways. -/
theorem Agrees.symm {w v : Window} (h : w.Agrees v) : v.Agrees w :=
  fun current distance length bytes => (h current distance length bytes).symm

/-- However bytes are divided into blocks, matches find the same. -/
theorem agrees_of_flatten_eq {w v : Window} (h : flatten w.blocks = flatten v.blocks) :
    w.Agrees v := by
  intro current distance length bytes
  rw [resolve_eq_ok, resolve_eq_ok, h]

/-- What a block adds to the window could as well have been decoded in the block itself. -/
theorem resolve_pushNewer {w : Window} {block current : Array UInt8} {distance length : Nat}
    {bytes : List UInt8} :
    resolve current (w.pushNewer block) distance length = .ok bytes ↔
      resolve (block ++ current) w distance length = .ok bytes := by
  rw [resolve_eq_ok, resolve_eq_ok]
  show _ ∧ distance ≤ (flatten (block :: w.blocks) ++ _).length ∧ _ ∧
    _ = repeated (flatten (block :: w.blocks) ++ _) _ _ ↔ _
  rw [flatten, List.append_assoc, Array.toList_append]

/-- Windows that agree still do when the same block is added to both. -/
theorem Agrees.pushNewer {w v : Window} (h : w.Agrees v) (block : Array UInt8) :
    (w.pushNewer block).Agrees (v.pushNewer block) := by
  intro current distance length bytes
  rw [resolve_pushNewer, resolve_pushNewer]
  exact h _ _ _ _

/-- Blocks behind as many bytes as a match can reach may be left out. -/
theorem agrees_of_append {w v : Window} {far : List (Array UInt8)}
    (hblocks : v.blocks = w.blocks ++ far) (hfar : far = [] ∨ maxDistance ≤ w.available) :
    w.Agrees v := by
  intro current distance length bytes
  rw [resolve_eq_ok, resolve_eq_ok, hblocks, flatten_append, List.append_assoc]
  rcases hfar with rfl | hfar
  · rw [flatten, List.nil_append]
  have hnear : w.available ≤ (flatten w.blocks ++ current.toList).length := by
    rw [List.length_append, length_flatten, ← w.available_eq]
    exact Nat.le_add_right _ _
  generalize flatten w.blocks ++ current.toList = near at hnear
  generalize flatten far = far
  have hlen : (far ++ near).length = far.length + near.length := List.length_append
  have hrepeated : distance ≤ maxDistance →
      repeated (far ++ near) distance length = repeated near distance length := by
    intro hd
    unfold repeated
    rw [hlen, List.drop_append, List.drop_of_length_le (by omega), List.nil_append,
      show far.length + near.length - distance - far.length = near.length - distance by omega]
  rw [hlen]
  constructor
  · rintro ⟨h₁, h₂, h₃, rfl⟩
    exact ⟨h₁, by omega, h₃, (hrepeated h₃).symm⟩
  · rintro ⟨h₁, -, h₃, rfl⟩
    exact ⟨h₁, by omega, h₃, hrepeated h₃⟩

/-! ## Blocks that are left out -/

/-- Blocks are left out only behind as many bytes as a match can reach. -/
theorem exists_append_reachable (held : Nat) (blocks : List (Array UInt8)) :
    ∃ far, blocks = reachable held blocks ++ far ∧
      (far = [] ∨ maxDistance ≤ held + total Array.size (reachable held blocks)) := by
  induction blocks generalizing held with
  | nil => exact ⟨[], rfl, .inl rfl⟩
  | cons block older ih =>
    rw [reachable]
    split
    · next hfull => exact ⟨block :: older, rfl, .inr hfull⟩
    · obtain ⟨far, hfar, hreach⟩ := ih (held + block.size)
      refine ⟨far, congrArg (block :: ·) hfar, hreach.imp id fun h => ?_⟩
      rw [total_cons, ← Nat.add_assoc]
      exact h

/-- One more block at the far end is within reach if those before it are not enough. -/
theorem reachable_concat (held : Nat) (blocks : List (Array UInt8)) (block : Array UInt8) :
    reachable held (blocks ++ [block]) =
      if maxDistance ≤ held + total Array.size (reachable held blocks) then reachable held blocks
      else reachable held blocks ++ [block] := by
  induction blocks generalizing held with
  | nil => rfl
  | cons newer older ih =>
    rw [List.cons_append, reachable, reachable]
    split
    · next hfull => rw [if_pos (Nat.le_add_right_of_le hfull)]
    · rw [ih, total_cons, ← Nat.add_assoc]
      split <;> rfl

/-- The window over blocks takes in one that came before them just when it is not full. -/
theorem ofBlocks_cons (block : Array UInt8) (blocks : List (Array UInt8)) :
    ofBlocks (block :: blocks) =
      if (ofBlocks blocks).isFull then ofBlocks blocks else (ofBlocks blocks).pushOlder block := by
  have hfull : (ofBlocks blocks).isFull = true ↔
      maxDistance ≤ total Array.size (reachable 0 blocks.reverse) := decide_eq_true_iff
  rw [ofBlocks, List.reverse_cons, reachable_concat, Nat.zero_add]
  split
  · next h => rw [if_pos (hfull.2 h), ofBlocks]
  · next h =>
    rw [if_neg (mt hfull.1 h)]
    simp [ofBlocks, ofNewest, pushOlder]

/-- The window holds the newest of the payloads, which are given in the order in which they came:
all of them, or as many bytes as a match can reach. -/
def Covers (w : Window) (payloads : List (Array UInt8)) : Prop :=
  ∃ far, payloads.reverse = w.blocks ++ far ∧ (far = [] ∨ maxDistance ≤ w.available)

/-- A window of all payloads covers them. -/
theorem covers_ofNewest (payloads : List (Array UInt8)) :
    (ofNewest payloads.reverse).Covers payloads := ⟨[], (List.append_nil _).symm, .inl rfl⟩

/-- The window over payloads covers them, although it may leave some of them out. -/
theorem covers_ofBlocks (payloads : List (Array UInt8)) : (ofBlocks payloads).Covers payloads := by
  obtain ⟨far, hblocks, hfar⟩ := exists_append_reachable 0 payloads.reverse
  rw [Nat.zero_add] at hfar
  exact ⟨far, hblocks, hfar⟩

/-- What a window leaves out of the payloads that it covers changes nothing for matches. -/
theorem Covers.agrees {w : Window} {payloads : List (Array UInt8)} (h : w.Covers payloads) :
    w.Agrees (ofNewest payloads.reverse) := by
  obtain ⟨far, hblocks, hfar⟩ := h
  exact agrees_of_append hblocks hfar

/-- Leaving out blocks that are out of reach changes nothing for matches. -/
theorem agrees_nearest (w : Window) : w.nearest.Agrees w := by
  obtain ⟨far, hblocks, hfar⟩ := exists_append_reachable 0 w.blocks
  rw [Nat.zero_add] at hfar
  exact agrees_of_append hblocks hfar

/-- The window over payloads agrees with the one that keeps all of them. -/
theorem agrees_ofBlocks (blocks : List (Array UInt8)) :
    (ofBlocks blocks).Agrees (ofNewest blocks.reverse) := (covers_ofBlocks blocks).agrees

end Window

end DeflateRecoder
