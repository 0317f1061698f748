import DeflateRecoder.Proofs.Bits.Truncation
import DeflateRecoder.Proofs.Stream.RoundTrip

/-!
# Streams that were cut off

Reading blocks is safe to cut, from the symbols of a header and the tokens of a block up to whole
streams (`Stream.cutSafe_readBlocks`). So a stream is read from as many bytes as it has bits for,
whatever comes behind them, and from fewer bytes reading fails because the input ends, and for no
other reason (`Stream.parse_takes_needed`).
-/

namespace DeflateRecoder

/-! ## Symbols -/

namespace Decoder

/-- A symbol is read bit by bit, so it is the same or the input ends, by induction on the rows that
are left. -/
theorem cutSafe_readFrom (rows : List Row) (code width : Nat) :
    (readFrom rows code width).CutSafe := by
  induction rows generalizing code width with
  | nil => exact .throw _
  | cons row rows ih =>
    refine .bind (.readBits 1) fun bit => ?_
    dsimp only
    refine .ite (ih _ _) ?_
    split
    · exact .pure _
    · exact ih _ _

/-- Reading a symbol: a decoder without words refuses whatever comes. -/
theorem cutSafe_read (d : Decoder) : d.read.CutSafe := .ite (.throw _) (cutSafe_readFrom _ _ _)

end Decoder

/-! ## Headers -/

namespace TableHeader

/-- A code length symbol and the count behind it. -/
theorem cutSafe_readSymbol (decoder : Decoder) (previous : Option Nat) :
    (readSymbol decoder previous).CutSafe := by
  refine .bind decoder.cutSafe_read fun symbol => ?_
  split
  · refine .bind (.readBits 2) fun extra => ?_
    split
    · exact .throw _
    · exact .pure _
  · exact .bind (.readBits 3) fun extra => .pure _
  · exact .bind (.readBits 7) fun extra => .pure _
  · split
    · exact .pure _
    · exact .throw _

/-- Code length symbols up to the declared number, by induction on how many lengths are left. -/
theorem cutSafe_readSymbols (decoder : Decoder) (declared : Nat) (previous : Option Nat)
    (left : Nat) : (readSymbols decoder declared previous left).CutSafe := by
  induction left using Nat.strongRecOn generalizing previous with
  | ind left ih =>
    rw [readSymbols]
    split
    · exact .pure _
    · refine .bind (cutSafe_readSymbol _ _) fun s => ?_
      obtain ⟨s, hs⟩ := s
      dsimp only
      split
      · exact .throw _
      · exact .bind (ih _ (by omega) _) fun _ => .pure _

/-- The header of a dynamic block. -/
theorem cutSafe_read : read.CutSafe :=
  .bind (.map _ (.readBits 5)) fun _ => .bind (.map _ (.readBits 5)) fun _ =>
    .bind (.map _ (.readBits 4)) fun _ => .bind (.mapM (fun _ => .readBits 3) _) fun _ =>
    .bind (.ofExcept _) fun _ => .bind (cutSafe_readSymbols _ _ _ _) fun _ => .pure _

end TableHeader

/-! ## Blocks -/

/-- A stored block: its padding, its length and its bytes. -/
theorem StoredBlock.cutSafe_read (kind : BlockKind) : (read kind).CutSafe := by
  have hlength : readLength.CutSafe :=
    .bind .readWord fun _ => .bind .readWord fun _ => .ite (.pure _) (.throw _)
  exact .ite (.bind hlength fun _ => .bind (.readBytes _) fun _ => .ofExcept _) (.throw _)

namespace CodedBlock

/-- The distance of a match. -/
theorem cutSafe_readDistance (dist : Decoder) : (readDistance dist).CutSafe := by
  refine .bind dist.cutSafe_read fun far => ?_
  split
  · exact .throw _
  · refine .bind (.readBits _) fun extra => ?_
    split
    · exact .throw _
    · exact .pure _

/-- A match, which a window resolves without reading more. -/
theorem cutSafe_readMatch (dist : Decoder) (window : Window) (current : Array UInt8)
    (symbol : Nat) (band : Band) : (readMatch dist window current symbol band).CutSafe := by
  refine .bind (.readBits _) fun extra => ?_
  split
  · exact .throw _
  · exact .bind (cutSafe_readDistance dist) fun _ => .bind (.ofExcept _) fun _ => .pure _

/-- A token. -/
theorem cutSafe_readToken (litlen dist : Decoder) (window : Window) (current : Array UInt8) :
    (readToken litlen dist window current).CutSafe := by
  refine .bind litlen.cutSafe_read fun symbol => ?_
  obtain ⟨symbol, _⟩ := symbol
  dsimp only
  refine .ite (.pure _) (.ite (.pure _) ?_)
  split
  · exact .bind (cutSafe_readMatch _ _ _ _ _) fun _ => .pure _
  · exact .throw _

/-- Tokens up to the end. Nothing behind the end is looked at, so a cut there does no harm. -/
theorem cutSafe_readTokens (litlen dist : Decoder) (window : Window) (current : Array UInt8)
    (before : List Token) (bits : Nat) :
    (readTokens litlen dist window current before bits).CutSafe := by
  intro r q tokens r' hcut e
  fun_induction readTokens litlen dist window current before bits r generalizing q with
  | case1 => cases e
  | case2 current before bits r width r₁ h =>
    cases e
    rcases cutSafe_readToken _ _ _ _ hcut h with ⟨q₁, hq, hcut₁⟩ | ⟨q₁, hq⟩
    · exact .inl ⟨q₁, readTokens_of_end hq, hcut₁⟩
    · exact .inr ⟨q₁, readTokens_of_error hq⟩
  | case3 current before bits r token width r₁ hne h ih =>
    rcases cutSafe_readToken _ _ _ _ hcut h with ⟨q₁, hq, hcut₁⟩ | ⟨q₁, hq⟩
    · have htoken : token ≠ .endOfBlock := by
        rintro rfl
        exact hne rfl
      rw [readTokens_of_ne hq htoken]
      exact ih hcut₁ e
    · exact .inr ⟨q₁, readTokens_of_error hq⟩

/-- A coded block with its tables. -/
theorem cutSafe_read (kind : BlockKind) (window : Window) : (read kind window).CutSafe := by
  have hcoding : (readCoding kind).CutSafe := by
    cases kind with
    | stored => exact .throw _
    | fixed => exact .pure _
    | dynamic =>
      exact .bind TableHeader.cutSafe_read fun _ => .bind (.ofExcept _) fun _ =>
        .bind (.ofExcept _) fun _ => .pure _
  exact .bind hcoding fun _ => .bind (cutSafe_readTokens _ _ _ _ _ _) fun _ => .pure _

end CodedBlock

/-- A block of any kind. -/
theorem Block.cutSafe_read (kind : BlockKind) (window : Window) : (read kind window).CutSafe := by
  unfold read
  split
  · exact .bind (StoredBlock.cutSafe_read _) fun _ => .pure _
  · exact .bind (CodedBlock.cutSafe_read _ _) fun _ => .pure _

/-! ## Streams -/

namespace Stream

/-- A block and the bits that open it. -/
theorem cutSafe_readBlock (window : Window) : (readBlock window).CutSafe := by
  refine .bind .readBit fun last => .bind (.readBits 2) fun code => ?_
  split
  · exact .throw _
  · exact .bind (Block.cutSafe_read _ _) fun _ => .pure _

/-- If the input is cut off, the same blocks are read or reading fails because the input ends. -/
theorem cutSafe_readBlocks (window : Window) (before : List Block) :
    (readBlocks window before).CutSafe := by
  intro r q blocks r' hcut e
  fun_induction readBlocks window before r generalizing q with
  | case1 => cases e
  | case2 window before r b r₁ h =>
    cases e
    rcases cutSafe_readBlock _ hcut h with ⟨q₁, hq, hcut₁⟩ | ⟨q₁, hq⟩
    · exact .inl ⟨q₁, readBlocks_of_last hq, hcut₁⟩
    · exact .inr ⟨q₁, readBlocks_of_error hq⟩
  | case3 window before r b r₁ h ih =>
    rcases cutSafe_readBlock _ hcut h with ⟨q₁, hq, hcut₁⟩ | ⟨q₁, hq⟩
    · rw [readBlocks_of_more hq]
      exact ih hcut₁ e
    · exact .inr ⟨q₁, readBlocks_of_error hq⟩

section

variable {name : String} {bytes : List UInt8} {s : Stream}

/-- A stream that was read is no bigger than its bytes. -/
theorem bitSize_le_of_parse (h : parse name bytes = .ok s) : s.bitSize ≤ 8 * bytes.length := by
  obtain ⟨-, hchain, _, _, u, -, -, -, -, hspells, hbits, -⟩ := read_of_parse h
  rw [bitSize_eq_of_spells hchain hspells, ← length_bytesBits, hbits, List.length_append]
  exact Nat.le_add_right _ _

/-- The bytes that a stream has bits for are enough to read it, whatever comes behind them. -/
theorem parse_take_append (h : parse name bytes = .ok s) {m : Nat} (hm : s.bitSize ≤ 8 * m)
    (name' : String) (t : List UInt8) :
    ∃ s', parse name' (bytes.take m ++ t) = .ok s' ∧ s'.blocks = s.blocks := by
  obtain ⟨hne, hchain, _, r', u, -, -, -, -, hspells, hbits, -⟩ := read_of_parse h
  have hall := bitSize_le_of_parse h
  rw [bitSize_eq_of_spells hchain hspells] at hm hall
  have hprefix : u <+: bytesBits (bytes.take m) := by
    have hfirst : bytesBits (bytes.take m) <+: bytesBits bytes :=
      (BitReader.CutFrom.take bytes m).prefix_bits
    refine List.prefix_of_prefix_length_le ⟨_, hbits.symm⟩ hfirst ?_
    rw [length_bytesBits, List.length_take]
    omega
  obtain ⟨rest, hrest⟩ := hprefix
  have hagain : (BitReader.ofBytes (bytes.take m ++ t)).bits = u ++ (rest ++ bytesBits t) := by
    rw [BitReader.bits_ofBytes, bytesBits_append, ← hrest, List.append_assoc]
  obtain ⟨q, e, -⟩ := readBlocks_complete (BitReader.valid_ofBytes _) hchain hne hspells hagain []
  refine ⟨ofBlocks name' s.blocks, ?_, blocks_ofBlocks _ _⟩
  unfold parse
  rw [e]
  rfl

/-- Fewer bytes end too early. -/
theorem parse_take_error (h : parse name bytes = .ok s) {k : Nat} (hk : 8 * k < s.bitSize)
    (name' : String) : parse name' (bytes.take k) = .error .unexpectedEnd := by
  obtain ⟨-, hchain, _, r', u, e, -, -, -, hspells, -, hpos⟩ := read_of_parse h
  rcases cutSafe_readBlocks _ _ (.take bytes k) e with ⟨q, hq, hcut⟩ | ⟨q, hq⟩
  · -- What was read from fewer bytes would end at the same bit, and so behind them.
    exfalso
    obtain ⟨-, -, -, -, -, -, v, hbits, hend, -⟩ :=
      readBlocks_sound (BitReader.valid_ofBytes _) hq
    have hlength := congrArg List.length hbits
    rw [BitReader.bits_ofBytes, length_bytesBits, List.length_take, List.length_append] at hlength
    rw [hcut.position_eq, hpos, BitReader.position_ofBytes, Nat.zero_add] at hend
    rw [bitSize_eq_of_spells hchain hspells] at hk
    omega
  · unfold parse
    rw [hq]

end

/-- A stream is read from as many bytes as its bits take, with the same blocks whatever comes behind
these bytes. From any fewer bytes of it nothing is read, because the input ends and for no other
reason. So the size told of any bytes, a stream or not, is at most the number of their bits. -/
theorem parse_takes_needed (bytes : List UInt8) :
    (∀ name s, parse name bytes = .ok s →
      (∀ name' t, ∃ s', parse name' (bytes.take ((s.bitSize + 7) / 8) ++ t) = .ok s' ∧
        s'.blocks = s.blocks) ∧
      ∀ name' k, k < (s.bitSize + 7) / 8 →
        parse name' (bytes.take k) = .error .unexpectedEnd) ∧
    bitSizeOfBytes bytes ≤ 8 * bytes.length := by
  refine ⟨fun name s h => ⟨parse_take_append h (by omega), fun name' k hk => ?_⟩, ?_⟩
  · exact parse_take_error h (by omega) name'
  · unfold bitSizeOfBytes
    split
    · next s h => exact bitSize_le_of_parse h
    · exact Nat.le_refl _

/-- Two coded blocks and a stored one need ten bytes of eleven. Three of them end within the tokens of
the second block. -/
theorem parse_takes_needed_several :
    let bytes : List UInt8 := [74, 4, 40, 9, 144, 1, 0, 254, 255, 65, 7]
    let s := ofBlocks "" [literalBlock 97, literalBlock 98, .stored ⟨[65], by decide⟩]
    parse "" bytes = .ok s ∧ s.bitSize = 80 ∧
      (∀ t, ∃ s', parse "" ([74, 4, 40, 9, 144, 1, 0, 254, 255, 65] ++ t) = .ok s' ∧
        s'.blocks = s.blocks) ∧
      parse "" [74, 4, 40] = .error .unexpectedEnd ∧
      ∀ k < 10, parse "" (bytes.take k) = .error .unexpectedEnd := by
  intro bytes s
  have hsize : s.bitSize = 80 := by decide +kernel
  obtain ⟨henough, hfewer⟩ := (parse_takes_needed bytes).1 "" s parse_several
  rw [hsize] at henough hfewer
  exact ⟨parse_several, hsize, henough "", hfewer "" 3 (by decide), hfewer ""⟩

end Stream

end DeflateRecoder
