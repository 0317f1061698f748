import DeflateRecoder.Proofs.Bits.Basic
import DeflateRecoder.Total
import Mathlib.Data.Option.Basic

/-!
# A plain inflater

`inflate` decodes a stream in the most direct way. It takes bits off the front of a list and appends
bytes to one list, whatever block they belong to. A symbol is found by comparing the bits that come
next with the code of each symbol (`symbol`), a match is copied byte by byte (`copyBytes`), and the
tables of the format are spelled out by the rules behind them. Nothing is kept but the bytes.

Where the format leaves a choice, or where decoders differ, it does the following. A code may be
incomplete, but must not take more words than there are (`fits`). There are up to 288 and 32 code
lengths, and a run of them may cross from the one alphabet to the other but not go beyond the last
(`codeLengths`). Symbols without a meaning, the length 258 behind symbol 284, and distances beyond
the bytes so far are refused when they occur (`step`). Padding and what comes behind the last block
may be anything.
-/

namespace DeflateRecoder

namespace Inflate

/-! ## Bits -/

/-- Takes a value off the front of the bits that are left, if there is one. -/
abbrev Take (α : Type) := StateT (List Bool) Option α

/-- The next bit. -/
def bit : Take Bool
  | [] => none
  | b :: rest => some (b, rest)

/-- A number of `n` bits, the lowest first. -/
def number : Nat → Take Nat
  | 0 => pure 0
  | n + 1 => do
    let low ← bit
    let high ← number n
    return low.toNat + 2 * high

/-- Drops what is left of a byte begun. The bits are those of whole bytes in all. -/
def skipToByte : Take Unit := fun bits => some ((), bits.drop (bits.length % 8))

/-! ## Codes -/

/-- The canonical code of a symbol whose code has `width` bits, as a number. Codes of one width are
consecutive in the order of their symbols, and come behind everything that begins with a shorter
code. -/
def codeValue (lengths : List Nat) (symbol width : Nat) : Nat :=
  total (fun n => if 0 < n ∧ n < width then 2 ^ (width - n) else 0) lengths
    + (lengths.take symbol).count width

/-- The canonical code of a symbol, the most significant bit first. A symbol of length 0 has
none. -/
def code? (lengths : List Nat) (symbol : Nat) : Option (List Bool) :=
  match lengths[symbol]? with
  | none | some 0 => none
  | some width => some (bitsOf width (codeValue lengths symbol width)).reverse

/-- The symbol whose code comes next. -/
def symbol (lengths : List Nat) : Take Nat := fun bits =>
  (List.range lengths.length).findSome? fun s =>
    (code? lengths s).bind fun code =>
      if bits.take code.length = code then some (s, bits.drop code.length) else none

/-- Codes of these lengths fit beside each other. -/
def fits (lengths : List Nat) : Bool :=
  total (fun n => if n = 0 then 0 else 2 ^ (15 - n)) lengths ≤ 2 ^ 15

/-! ## Code lengths -/

/-- The code lengths of the literal/length symbols of a fixed block. -/
def fixedLitlen : List Nat :=
  (List.range 288).map fun s => if s < 144 then 8 else if s < 256 then 9 else if s < 280 then 7 else 8

/-- The code lengths of the distance symbols of a fixed block. -/
def fixedDist : List Nat := List.replicate 32 5

/-- The order in which the lengths of the code for code lengths come: the runs, zero, and then the
lengths from the middle outwards. -/
def lengthOrder : List Nat := [16, 17, 18, 0, 8] ++ (List.range 7).flatMap fun i => [7 - i, 9 + i]

/-- The lengths of the code for code lengths, of which the first `n` come next. -/
def lengthsOfLengthCode (n : Nat) : Take (List Nat) := do
  let given ← (lengthOrder.take n).mapM fun s => do
    let length ← number 3
    return (s, length)
  return (List.range 19).map fun s => (given.lookup s).getD 0

/-- A code length and how many more times it comes, where `previous` is the one before it. -/
def run (code : List Nat) (previous : Option Nat) : Take (Nat × Nat) := do
  match ← symbol code with
  | 16 =>
    let more ← number 2
    match previous with
    | some length => return (length, more + 2)
    | none => failure
  | 17 =>
    let more ← number 3
    return (0, more + 2)
  | 18 =>
    let more ← number 7
    return (0, more + 10)
  | length => return (length, 0)

/-- Code lengths behind those so far, of which `declared` there are to be. -/
def codeLengths (code : List Nat) (declared : Nat) (before : List Nat) : Take (List Nat) :=
  if declared ≤ before.length then do
    guard (before.length = declared)
    return before
  else do
    let (length, more) ← run code before.getLast?
    codeLengths code declared (before ++ List.replicate (more + 1) length)
termination_by declared - before.length
decreasing_by
  rw [List.length_append, List.length_replicate]
  omega

/-- The code lengths of the two alphabets of a dynamic block. -/
def header : Take (List Nat × List Nat) := do
  let litlenCount ← (· + 257) <$> number 5
  let distCount ← (· + 1) <$> number 5
  let orderCount ← (· + 4) <$> number 4
  let code ← lengthsOfLengthCode orderCount
  guard (fits code)
  let lengths ← codeLengths code (litlenCount + distCount) []
  guard (fits (lengths.take litlenCount))
  guard (fits (lengths.drop litlenCount))
  return (lengths.take litlenCount, lengths.drop litlenCount)

/-! ## Tokens -/

/-- Bands of values with the given numbers of extra bits. The first begins at `base`, and each
begins where the one before it ends. -/
def bands (base : Nat) : List Nat → List (Nat × Nat)
  | [] => []
  | extra :: extras => (base, extra) :: bands (base + 2 ^ extra) extras

/-- The match lengths of the symbols from 257 on. The last one has a symbol of its own. -/
def lengthBandTable : List (Nat × Nat) :=
  bands 3 (List.replicate 4 0 ++ (List.range 6).flatMap fun extra => List.replicate 4 extra)
    ++ [(258, 0)]

/-- The match distances of the symbols from 0 on. -/
def distBandTable : List (Nat × Nat) :=
  bands 1 (List.replicate 2 0 ++ (List.range 14).flatMap fun extra => List.replicate 2 extra)

/-- A value of a band. -/
def valueIn (table : List (Nat × Nat)) (index : Nat) : Take Nat :=
  match table[index]? with
  | none => failure
  | some (base, extra) => (base + ·) <$> number extra

/-- Appends the byte `distance` bytes before the end, `n` times. -/
def copyBytes (distance : Nat) : Nat → List UInt8 → Option (List UInt8)
  | 0, out => some out
  | n + 1, out =>
    if out.length < distance then none
    else do
      let byte ← out[out.length - distance]?
      copyBytes distance n (out ++ [byte])

/-- Decodes the rest of a match that a length symbol opens. Returns the bytes that there are
then. -/
def copy (dist : List Nat) (out : List UInt8) (s : Nat) : Take (List UInt8) := do
  let length ← valueIn lengthBandTable (s - 257)
  guard ¬(s = 284 ∧ length = 258)
  let far ← symbol dist
  let distance ← valueIn distBandTable far
  liftM (copyBytes distance length out)

/-- Decodes a token behind the bytes so far. Returns the bytes that there are then, or nothing at
the end of the block. -/
def step (litlen dist : List Nat) (out : List UInt8) : Take (Option (List UInt8)) := do
  let s ← symbol litlen
  if s < 256 then return some (out ++ [s.toUInt8])
  else if s = 256 then return none
  else some <$> copy dist out s

/-! ## Progress -/

/-- Every success takes `n` bits or more. -/
def Takes {α : Type} (n : Nat) (q : Take α) : Prop :=
  ∀ ⦃bits a rest⦄, q bits = some (a, rest) → rest.length + n ≤ bits.length

namespace Takes

variable {α β : Type} {m n : Nat} {q : Take α}

/-- What takes some bits takes fewer. -/
theorem of_le (h : Takes m q) (hnm : n ≤ m) : Takes n q := fun _ _ _ e => by
  have := h e
  omega

theorem pure (a : α) : Takes 0 (Pure.pure a : Take α) := fun _ _ _ e => by
  cases e
  exact Nat.le_refl _

/-- What never succeeds takes any number of bits. -/
theorem failure : Takes n (Alternative.failure : Take α) := fun _ _ _ e => by cases e

/-- Two steps take the bits of both. -/
theorem bind {g : α → Take β} (hq : Takes m q) (hg : ∀ a, Takes n (g a)) :
    Takes (m + n) (q >>= g) := fun bits b rest e => by
  obtain ⟨⟨a, rest₁⟩, h₁, h₂⟩ := Option.bind_eq_some_iff.1 e
  have := hq h₁
  have := hg a h₂
  omega

/-- What follows a step does not give its bits back. -/
theorem bind_left {g : α → Take β} (hq : Takes m q) (hg : ∀ a, Takes 0 (g a)) :
    Takes m (q >>= g) := bind hq hg

/-- Making something of a value leaves the bits that it takes. -/
theorem map (f : α → β) (hq : Takes n q) : Takes n (f <$> q) := by
  rw [map_eq_pure_bind]
  exact bind_left hq fun _ => .pure _

/-- A condition takes no bits. -/
theorem of_guard (p : Prop) [Decidable p] : Takes 0 (guard p : Take Unit) := by
  unfold guard
  split
  · exact .pure _
  · exact .failure

/-- A value that there may be takes no bits. -/
theorem of_option (o : Option α) : Takes 0 (liftM o : Take α) := fun bits a rest e => by
  obtain ⟨b, -, h⟩ := Option.bind_eq_some_iff.1 e
  cases h
  exact Nat.le_refl _

/-- A bit takes one. -/
theorem bit : Takes 1 bit := fun bits b rest e => by
  cases bits with
  | nil => cases e
  | cons c bits =>
    cases e
    exact Nat.le_refl _

/-- A number takes as many bits as it has. -/
theorem number (n : Nat) : Takes n (number n) := by
  induction n with
  | zero => exact .pure 0
  | succ n ih =>
    rw [Inflate.number, Nat.add_comm n]
    exact bit.bind fun _ => ih.bind_left fun _ => .pure _

/-- Steps one after the other do not give bits back. -/
theorem mapM {f : α → Take β} (hf : ∀ a, Takes 0 (f a)) (l : List α) : Takes 0 (l.mapM f) := by
  induction l with
  | nil => exact .pure []
  | cons a l ih =>
    rw [List.mapM_cons]
    exact (hf a).bind_left fun _ => ih.bind_left fun _ => .pure _

theorem skipToByte : Takes 0 skipToByte := fun bits _ _ e => by
  cases e
  rw [List.length_drop]
  omega

end Takes

/-- A symbol is found where its code comes next. -/
theorem exists_code_of_symbol {lengths : List Nat} {bits rest : List Bool} {s : Nat}
    (e : symbol lengths bits = some (s, rest)) :
    ∃ code, code? lengths s = some code ∧ bits = code ++ rest := by
  obtain ⟨s', -, h⟩ := List.exists_of_findSome?_eq_some e
  obtain ⟨code, hcode, h⟩ := Option.bind_eq_some_iff.1 h
  split at h
  · next htake =>
    cases h
    refine ⟨code, hcode, ?_⟩
    conv => lhs; rw [← List.take_append_drop code.length bits, htake]
  · cases h

/-- No code is empty. -/
theorem length_code_pos {lengths : List Nat} {s : Nat} {code : List Bool}
    (h : code? lengths s = some code) : 0 < code.length := by
  unfold code? at h
  split at h
  · cases h
  · cases h
  · next width hwidth _ =>
    cases h
    rw [List.length_reverse, length_bitsOf]
    exact Nat.pos_of_ne_zero hwidth

/-- A symbol takes a bit or more. -/
theorem symbol_takes (lengths : List Nat) : Takes 1 (symbol lengths) := fun bits s rest e => by
  obtain ⟨code, hcode, rfl⟩ := exists_code_of_symbol e
  have := length_code_pos hcode
  rw [List.length_append]
  omega

theorem run_takes (code : List Nat) (previous : Option Nat) : Takes 0 (run code previous) := by
  have field (n : Nat) : Takes 0 (number n) := (Takes.number n).of_le (Nat.zero_le _)
  refine ((symbol_takes code).of_le (Nat.zero_le _)).bind_left fun s => ?_
  split
  · refine (field 2).bind_left fun _ => ?_
    split
    · exact .pure _
    · exact .failure
  · exact (field 3).bind_left fun _ => .pure _
  · exact (field 7).bind_left fun _ => .pure _
  · exact .pure _

theorem codeLengths_takes (code : List Nat) (declared : Nat) (before : List Nat) :
    Takes 0 (codeLengths code declared before) := by
  fun_induction codeLengths code declared before with
  | case1 => exact (Takes.of_guard _).bind_left fun _ => .pure _
  | case2 before _ ih => exact (run_takes _ _).bind_left fun r => ih r.1 r.2

theorem header_takes : Takes 0 header := by
  have field (n k : Nat) : Takes 0 ((· + k) <$> number n) :=
    .map _ ((Takes.number n).of_le (Nat.zero_le _))
  have given (n : Nat) : Takes 0 (lengthsOfLengthCode n) :=
    (Takes.mapM (fun _ => ((Takes.number 3).of_le (Nat.zero_le _)).bind_left fun _ => .pure _)
      _).bind_left fun _ => .pure _
  exact (field 5 257).bind_left fun _ => (field 5 1).bind_left fun _ => (field 4 4).bind_left fun _ =>
    (given _).bind_left fun _ => (Takes.of_guard _).bind_left fun _ =>
      (codeLengths_takes _ _ _).bind_left fun _ => (Takes.of_guard _).bind_left fun _ =>
        (Takes.of_guard _).bind_left fun _ => .pure _

theorem valueIn_takes (table : List (Nat × Nat)) (index : Nat) : Takes 0 (valueIn table index) := by
  unfold valueIn
  split
  · exact .failure
  · exact .map _ (.of_le (.number _) (Nat.zero_le _))

theorem copy_takes (dist : List Nat) (out : List UInt8) (s : Nat) : Takes 0 (copy dist out s) :=
  (valueIn_takes _ _).bind_left fun _ => (Takes.of_guard _).bind_left fun _ =>
    ((symbol_takes dist).of_le (Nat.zero_le _)).bind_left fun _ =>
      (valueIn_takes _ _).bind_left fun _ => .of_option _

/-- A token takes a bit or more. -/
theorem step_takes (litlen dist : List Nat) (out : List UInt8) : Takes 1 (step litlen dist out) := by
  refine (symbol_takes litlen).bind_left fun s => ?_
  split
  · exact .pure _
  · split
    · exact .pure _
    · exact .map _ (copy_takes _ _ _)

/-! ## Blocks -/

/-- Decodes tokens up to the end of the block. -/
def tokens (litlen dist : List Nat) (out : List UInt8) : Take (List UInt8) := fun bits =>
  match _ : step litlen dist out bits with
  | none => none
  | some (none, rest) => some (out, rest)
  | some (some out, rest) => tokens litlen dist out rest
termination_by bits => bits.length
decreasing_by exact step_takes _ _ _ ‹_›

/-- Copies a stored block: its length, the complement of that, and the bytes. -/
def stored (out : List UInt8) : Take (List UInt8) := do
  skipToByte
  let length ← number 16
  let complement ← number 16
  guard (bitsOf 16 complement = (bitsOf 16 length).map (!·))
  let bytes ← (List.replicate length 8).mapM number
  return out ++ bytes.map (·.toUInt8)

/-- Decodes the body of a block of the given kind. -/
def body (out : List UInt8) : Nat → Take (List UInt8)
  | 0 => stored out
  | 1 => tokens fixedLitlen fixedDist out
  | 2 => do
    let (litlen, dist) ← header
    tokens litlen dist out
  | _ => failure

/-- Decodes a block behind the bytes so far. Returns the bytes that there are then, and whether it
is the last block. -/
def block (out : List UInt8) : Take (List UInt8 × Bool) := do
  let last ← bit
  let kind ← number 2
  let out ← body out kind
  return (out, last)

theorem tokens_takes (litlen dist : List Nat) (out : List UInt8) :
    Takes 0 (tokens litlen dist out) := by
  intro bits out' rest e
  fun_induction tokens litlen dist out bits with
  | case1 => cases e
  | case2 out bits rest₁ h =>
    cases e
    exact Nat.le_of_succ_le (step_takes _ _ _ h)
  | case3 out bits out₁ rest₁ h ih =>
    have := ih e
    have := step_takes _ _ _ h
    omega

theorem stored_takes (out : List UInt8) : Takes 0 (stored out) := by
  have field (n : Nat) : Takes 0 (number n) := (Takes.number n).of_le (Nat.zero_le _)
  exact Takes.skipToByte.bind_left fun _ => (field 16).bind_left fun _ => (field 16).bind_left fun _ =>
    (Takes.of_guard _).bind_left fun _ => (Takes.mapM field _).bind_left fun _ => .pure _

theorem body_takes (out : List UInt8) (kind : Nat) : Takes 0 (body out kind) := by
  unfold body
  split
  · exact stored_takes _
  · exact tokens_takes _ _ _
  · exact header_takes.bind_left fun _ => tokens_takes _ _ _
  · exact .failure

/-- A block takes a bit or more. -/
theorem block_takes (out : List UInt8) : Takes 1 (block out) :=
  Takes.bit.bind_left fun _ => ((Takes.number 2).of_le (Nat.zero_le _)).bind_left fun _ =>
    (body_takes _ _).bind_left fun _ => .pure _

/-- Decodes blocks up to the last one. -/
def blocks (out : List UInt8) (bits : List Bool) : Option (List UInt8) :=
  match _ : block out bits with
  | none => none
  | some ((out, true), _) => some out
  | some ((out, false), rest) => blocks out rest
termination_by bits.length
decreasing_by exact block_takes _ ‹_›

end Inflate

/-- The bytes that a stream encodes, if it is one. -/
def inflate (bytes : List UInt8) : Option (List UInt8) := Inflate.blocks [] (bytesBits bytes)

end DeflateRecoder
