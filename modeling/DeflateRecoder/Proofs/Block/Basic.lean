import DeflateRecoder.Block.Basic
import DeflateRecoder.Proofs.Block.Coded

/-!
# Blocks, written and read

A block's body is spelled by padding, which only a stored block has, and by its payload.
`Block.puts_write` pads with zeros; `Block.read_recognises` takes any padding, and otherwise nothing
but the payload of a well-formed block.
-/

namespace DeflateRecoder

/-! ## Stored blocks -/

namespace StoredBlock

/-- The bits of a stored block from its byte boundary on. -/
def payload (b : StoredBlock) : List Bool :=
  bitsOf 16 b.bytes.length ++ (bitsOf 16 (maxStoredLength - b.bytes.length) ++ bytesBits b.bytes)

@[simp] theorem length_payload (b : StoredBlock) :
    b.payload.length = (b.bytes.length + 4) * 8 := by
  rw [payload, List.length_append, List.length_append, length_bitsOf, length_bitsOf,
    length_bytesBits]
  omega

/-- Writing a stored block puts zeros up to the byte boundary, and its bits. -/
theorem puts_write (b : StoredBlock) {w : BitWriter} (hv : w.Valid) :
    w.Puts (b.write w) (List.replicate (paddingAt w.bitLength) false ++ b.payload) := by
  have p₁ := BitWriter.puts_writeWord b.bytes.length hv
  have p₂ := BitWriter.puts_writeWord (maxStoredLength - b.bytes.length) p₁.1
  have p₃ := BitWriter.puts_writeBytes b.bytes p₂.1
  have hpad := add_paddingAt_mod w.bitLength
  have h₁ := p₁.bitLength_eq
  have h₂ := p₂.bitLength_eq
  rw [List.length_append, List.length_replicate, length_bitsOf] at h₁ h₂
  have hz₁ : paddingAt (w.writeWord b.bytes.length).bitLength = 0 := paddingAt_eq_zero (by omega)
  rw [hz₁] at h₂
  have hz₂ := @paddingAt_eq_zero
    ((w.writeWord b.bytes.length).writeWord (maxStoredLength - b.bytes.length)).bitLength (by omega)
  have p := p₁.trans (p₂.trans p₃)
  rw [hz₁, hz₂, List.replicate_zero, List.nil_append, List.nil_append, List.append_assoc] at p
  exact p

/-- Behind padding, whole bytes end at a byte boundary. -/
theorem paddingAt_behind {n : Nat} {pad u : List Bool} (hpad : pad.length = paddingAt n)
    (hu : u.length % 8 = 0) : paddingAt (n + (pad ++ u).length) = 0 := by
  have hmod := add_paddingAt_mod n
  rw [List.length_append, hpad]
  exact paddingAt_eq_zero (by omega)

/-- The bits of a length and of what it lacks. -/
def lengthBits (n : Nat) : List Bool := bitsOf 16 n ++ bitsOf 16 (maxStoredLength - n)

/-- A length and its complement are two words. -/
theorem length_lengthBits (n : Nat) : (lengthBits n).length = 32 := by
  rw [lengthBits, List.length_append, length_bitsOf, length_bitsOf]

/-- Reading a length recognises it and its complement behind any padding. -/
theorem readLength_recognises : readLength.Recognises fun n v u => v ≤ maxStoredLength ∧
    ∃ pad, pad.length = paddingAt n ∧ u = pad ++ lengthBits v := by
  have hmax : maxStoredLength = 65535 := rfl
  have hword : ∀ v, (bitsOf 16 v).length % 8 = 0 := by
    intro v
    rw [length_bitsOf]
  refine (Parser.Recognises.readWord.bind fun v => Parser.Recognises.readWord.bind fun c =>
    .ite (fun _ => .pure v) fun _ => .throw _).congr fun n v u => ⟨?_, ?_⟩
  · rintro ⟨v, _, _, rfl, ⟨hv, pad, hpad, rfl⟩, c, _, _, rfl, ⟨hc, pad', hpad', rfl⟩,
      ⟨hsum, rfl, rfl⟩ | ⟨-, hfalse⟩⟩
    · rw [paddingAt_behind hpad (hword v), List.length_eq_zero_iff] at hpad'
      subst hpad'
      obtain rfl : c = maxStoredLength - v := by omega
      refine ⟨by omega, pad, hpad, ?_⟩
      rw [List.append_nil, List.nil_append, List.append_assoc, lengthBits]
    · exact hfalse.elim
  · rintro ⟨hv, pad, hpad, rfl⟩
    exact ⟨v, pad ++ bitsOf 16 v, _, (List.append_assoc _ _ _).symm, ⟨by omega, pad, hpad, rfl⟩,
      maxStoredLength - v, _, [], (List.append_nil _).symm,
      ⟨by omega, [], (paddingAt_behind hpad (hword v)).symm, rfl⟩, .inl ⟨by omega, rfl, rfl⟩⟩

/-- Reading a stored block undoes writing it, whatever its padding. -/
theorem read_recognises : (read .stored).Recognises fun n b u =>
    ∃ pad, pad.length = paddingAt n ∧ u = pad ++ b.payload := by
  have hlength : ∀ v, (lengthBits v).length % 8 = 0 := by
    intro v
    rw [length_lengthBits]
  have hpayload : ∀ b : StoredBlock, b.payload = lengthBits b.bytes.length ++ bytesBits b.bytes :=
    fun b => (List.append_assoc _ _ _).symm
  unfold read
  rw [if_pos rfl]
  refine (readLength_recognises.bind fun n => (Parser.Recognises.readBytes n).bind fun bytes =>
    .ofExcept _).congr fun n b u => ⟨?_, ?_⟩
  · rintro ⟨v, _, _, rfl, ⟨hv, pad, hpad, rfl⟩, bytes, _, _, rfl, ⟨rfl, pad', hpad', rfl⟩, hb, rfl⟩
    rw [paddingAt_behind hpad (hlength _), List.length_eq_zero_iff] at hpad'
    subst hpad'
    rw [ofBytes, dif_pos hv] at hb
    cases hb
    refine ⟨pad, hpad, ?_⟩
    rw [hpayload, List.nil_append, List.append_nil, List.append_assoc]
  · rintro ⟨pad, hpad, rfl⟩
    refine ⟨b.bytes.length, pad ++ lengthBits b.bytes.length, bytesBits b.bytes, ?_,
      ⟨b.length_le, pad, hpad, rfl⟩, b.bytes, _, [], (List.append_nil _).symm,
      ⟨rfl, [], (paddingAt_behind hpad (hlength _)).symm, rfl⟩, ?_, rfl⟩
    · rw [hpayload, List.append_assoc]
    · rw [ofBytes, dif_pos b.length_le]

end StoredBlock

namespace Block

/-- No coded block is announced as a stored one. -/
theorem kind_coded_ne_stored (b : CodedBlock) : (coded b).kind ≠ .stored := by
  rw [kind, CodedBlock.kind]
  split <;> nofun

/-- A block that decodes to its own bytes behind a window. -/
def WellFormed (window : Window) : Block → Prop
  | stored _ => True
  | coded b => b.WellFormed window

/-- How many bits of padding a block's body begins with. -/
def padding (position : Nat) : Block → Nat
  | stored _ => paddingAt position
  | coded _ => 0

/-- The bits of a block's body behind the padding. -/
def payload : Block → List Bool
  | stored b => b.payload
  | coded b => b.bits

/-- A block is as well-formed behind one window as behind another that agrees with it. -/
theorem WellFormed.congr {w v : Window} (h : w.Agrees v) {b : Block} (hb : b.WellFormed w) :
    b.WellFormed v := by
  cases b with
  | stored b => trivial
  | coded b => exact CodedBlock.WellFormed.congr h hb

/-- The size of a block is that of its padding and its payload. -/
theorem bitSize_eq {window : Window} {b : Block} (h : b.WellFormed window) (position : Nat) :
    b.bitSize position = b.padding position + b.payload.length := by
  cases b with
  | stored b =>
    rw [bitSize, StoredBlock.bitSize, payload, StoredBlock.length_payload, padding, paddingAt,
      Nat.add_comm]
  | coded b => rw [bitSize, payload, CodedBlock.length_bits h.writable, padding, Nat.zero_add]

/-- Writing a block puts padding of zeros and its payload. -/
theorem puts_write {window : Window} {b : Block} (h : b.WellFormed window) {w : BitWriter}
    (hv : w.Valid) : ∃ w', b.write w = .ok w' ∧
      w.Puts w' (List.replicate (b.padding w.bitLength) false ++ b.payload) := by
  cases b with
  | stored b => exact ⟨b.write w, rfl, b.puts_write hv⟩
  | coded b => exact CodedBlock.puts_write h.writable hv

/-- Reading a block undoes writing it, whatever its padding, and gives nothing but well-formed
blocks. -/
theorem read_recognises (kind : BlockKind) (window : Window) :
    (read kind window).Recognises fun n b u => b.kind = kind ∧ b.WellFormed window ∧
      ∃ pad, pad.length = b.padding n ∧ u = pad ++ b.payload := by
  have hcoded : ∀ kind ≠ BlockKind.stored, Parser.Recognises (do
      let b ← CodedBlock.read kind window
      return coded b) fun n b u => b.kind = kind ∧ b.WellFormed window ∧
        ∃ pad, pad.length = b.padding n ∧ u = pad ++ b.payload := by
    intro kind hkind
    refine ((CodedBlock.read_recognises hkind window).bind fun b => .pure (coded b)).congr
      fun n b u => ⟨?_, ?_⟩
    · rintro ⟨b, _, _, rfl, ⟨hk, hw, rfl⟩, rfl, rfl⟩
      exact ⟨hk, hw, [], rfl, List.append_nil _⟩
    · rintro ⟨hk, hw, pad, hpad, rfl⟩
      cases b with
      | stored b => exact absurd hk.symm hkind
      | coded b =>
        obtain rfl := List.eq_nil_of_length_eq_zero hpad
        exact ⟨b, b.bits, [], (List.append_nil _).symm, ⟨hk, hw, rfl⟩, rfl, rfl⟩
  cases kind with
  | fixed => exact hcoded .fixed nofun
  | dynamic => exact hcoded .dynamic nofun
  | stored =>
    refine (StoredBlock.read_recognises.bind fun b => .pure (stored b)).congr
      fun n b u => ⟨?_, ?_⟩
    · rintro ⟨b, _, _, rfl, ⟨pad, hpad, rfl⟩, rfl, rfl⟩
      exact ⟨rfl, trivial, pad, hpad, List.append_nil _⟩
    · rintro ⟨hk, -, pad, hpad, rfl⟩
      cases b with
      | stored b =>
        exact ⟨b, _, [], (List.append_nil _).symm, ⟨pad, hpad, rfl⟩, rfl, rfl⟩
      | coded b => exact absurd hk (kind_coded_ne_stored b)

end Block

end DeflateRecoder
