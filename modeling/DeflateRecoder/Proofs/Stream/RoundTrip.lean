import DeflateRecoder.Proofs.Block.FewBytes
import DeflateRecoder.Proofs.Stream.Blocks

/-!
# Reading and writing streams

`Stream.write_parsed` says that writing undoes reading bit for bit, save for the padding of stored
blocks, and `Stream.parse_written` that reading undoes writing for any chain of well-formed blocks,
whatever comes behind it. Both rest on the spellings of chains.
-/

namespace DeflateRecoder

namespace Stream

@[simp] theorem blocks_ofBlocks (name : String) (blocks : List Block) :
    (ofBlocks name blocks).blocks = blocks := by
  rw [Stream.blocks, ofBlocks, List.map_map]
  exact List.zipIdx_map_fst 0 blocks

/-- A stream with blocks has entries. -/
theorem entries_ne_nil {s : Stream} (h : s.blocks ≠ []) : s.entries ≠ [] := by
  intro hnil
  exact h (by rw [Stream.blocks, hnil]; rfl)

/-! ## Padding -/

/-- The bit is padding in front of the length of a stored block. -/
def IsPadding (s : Stream) (i : Nat) : Prop :=
  ∃ info ∈ s.layout, info.kind = .stored ∧ info.position + openingBits ≤ i ∧
    i < info.position + openingBits + paddingAt (info.position + openingBits)

/-- The bit is padding of one of the blocks, the first of which opens at bit `position`. -/
def PaddingOf (position : Nat) : List Block → Nat → Prop
  | [], _ => False
  | b :: rest, i => (position + openingBits ≤ i ∧
      i < position + openingBits + b.padding (position + openingBits)) ∨
      PaddingOf (b.endOf position) rest i

/-- The padding of the blocks is what the layout shows between the opening of a stored block and its
body. -/
theorem paddingOf_iff (index position : Nat) (blocks : List Block) (i : Nat) :
    (∃ info ∈ layoutFrom index position blocks, info.kind = .stored ∧
      info.position + openingBits ≤ i ∧
      i < info.position + openingBits + paddingAt (info.position + openingBits)) ↔
    PaddingOf position blocks i := by
  induction blocks generalizing index position with
  | nil => simp [layoutFrom, PaddingOf]
  | cons b rest ih =>
    have hfirst : (b.kind = .stored ∧ position + openingBits ≤ i ∧
        i < position + openingBits + paddingAt (position + openingBits)) ↔
        position + openingBits ≤ i ∧
          i < position + openingBits + b.padding (position + openingBits) := by
      cases b with
      | stored b => exact and_iff_right rfl
      | coded b =>
        constructor
        · rintro ⟨hk, -⟩
          exact absurd hk (Block.kind_coded_ne_stored b)
        · rintro ⟨h₁, h₂⟩
          rw [Block.padding] at h₂
          omega
    rw [layoutFrom, PaddingOf, ← hfirst, ← ih (index + 1)]
    simp only [List.mem_cons, exists_eq_or_imp]

/-- A chain's padding lies inside it. -/
theorem le_of_paddingOf {w : Window} {position : Nat} {blocks : List Block} {i : Nat}
    (hc : Chain w blocks) (h : PaddingOf position blocks i) : position ≤ i := by
  induction blocks generalizing w position with
  | nil => cases h
  | cons b rest ih =>
    rcases h with h | h
    · omega
    · have := ih hc.2 h
      have := endOf_eq hc.1 position
      omega

/-- In the first part, a bit is found at its place there. -/
theorem getElem?_append_of_lt {k l : List Bool} {n i : Nat} (hk : k.length = n) (hi : i < n) :
    (k ++ l)[i]? = k[i]? :=
  List.getElem?_append_left (by rw [hk]; exact hi)

/-- Behind the first part, a bit is found at its place in the second. -/
theorem getElem?_append_add {k l : List Bool} {n : Nat} (hk : k.length = n) (i : Nat) :
    (k ++ l)[n + i]? = l[i]? := by
  subst hk
  rw [List.getElem?_append_right (Nat.le_add_right _ _), Nat.add_sub_cancel_left]

/-- Spellings of a chain differ from its plain bits in the padding alone. -/
theorem getElem?_plainBits {w : Window} {position : Nat} {blocks : List Block} {u : List Bool}
    (hc : Chain w blocks) (h : Spells position blocks u) (i : Nat) :
    (PaddingOf position blocks (position + i) → (plainBits position blocks)[i]? = some false) ∧
      (¬ PaddingOf position blocks (position + i) → (plainBits position blocks)[i]? = u[i]?) := by
  induction blocks generalizing w position u i with
  | nil =>
    obtain rfl : u = [] := h
    exact ⟨False.elim, fun _ => rfl⟩
  | cons b rest ih =>
    obtain ⟨pad, v, hpad, rfl, hv⟩ := h
    have hend := endOf_eq hc.1 position
    have hlater : PaddingOf (b.endOf position) rest (position + i) →
        b.endOf position ≤ position + i := le_of_paddingOf hc.2
    have hopen : (opening b rest.isEmpty).length = openingBits := length_opening _ _
    have hzeros : (List.replicate (b.padding (position + openingBits)) false).length =
        b.padding (position + openingBits) := List.length_replicate
    rw [plainBits, PaddingOf]
    rcases Nat.lt_or_ge i openingBits with h₁ | h₁
    · -- the bits that open the block
      rw [getElem?_append_of_lt hopen h₁, getElem?_append_of_lt hopen h₁]
      refine ⟨?_, fun _ => rfl⟩
      rintro (h | h)
      · omega
      · have := hlater h
        omega
    obtain ⟨i, rfl⟩ := Nat.exists_eq_add_of_le h₁
    rw [getElem?_append_add hopen, getElem?_append_add hopen]
    rcases Nat.lt_or_ge i (b.padding (position + openingBits)) with h₂ | h₂
    · -- the padding
      rw [getElem?_append_of_lt hzeros h₂, List.getElem?_replicate, if_pos h₂]
      exact ⟨fun _ => rfl, fun hn => absurd (.inl ⟨by omega, by omega⟩) hn⟩
    obtain ⟨i, rfl⟩ := Nat.exists_eq_add_of_le h₂
    rw [getElem?_append_add hzeros, getElem?_append_add hpad]
    rcases Nat.lt_or_ge i b.payload.length with h₃ | h₃
    · -- the payload
      rw [getElem?_append_of_lt rfl h₃, getElem?_append_of_lt rfl h₃]
      refine ⟨?_, fun _ => rfl⟩
      rintro (h | h)
      · omega
      · have := hlater h
        omega
    -- the blocks behind it
    obtain ⟨i, rfl⟩ := Nat.exists_eq_add_of_le h₃
    rw [getElem?_append_add rfl, getElem?_append_add rfl]
    obtain ⟨ih₁, ih₂⟩ := ih hc.2 hv i
    rw [show b.endOf position + i = position + (openingBits +
      (b.padding (position + openingBits) + (b.payload.length + i))) by omega] at ih₁ ih₂
    refine ⟨?_, fun hn => ih₂ fun h => hn (.inr h)⟩
    rintro (h | h)
    · omega
    · exact ih₁ h

/-! ## Writing a chain -/

/-- The size of a stream of a chain is the length of any of its spellings. -/
theorem bitSize_eq_of_spells {s : Stream} {w : Window} {u : List Bool} (hc : Chain w s.blocks)
    (h : Spells 0 s.blocks u) : s.bitSize = u.length :=
  (length_of_spells hc h).trans (Nat.zero_add _)

/-- A chain of blocks is written as its plain bits and zeros up to the next byte boundary. -/
theorem write_of_chain {s : Stream} {w : Window} (hne : s.blocks ≠ []) (hc : Chain w s.blocks) :
    ∃ out, s.write = .ok out ∧ out.length = (s.bitSize + 7) / 8 ∧
      bytesBits out =
        plainBits 0 s.blocks ++ List.replicate (paddingAt s.bitSize) false := by
  obtain ⟨w', e, hv, hb⟩ := puts_writeBlocks hc BitWriter.valid_empty
  have hbits : w'.bits = plainBits 0 s.blocks := hb
  have hsize : w'.bitLength = s.bitSize := by
    rw [bitSize_eq_of_spells hc (spells_plainBits 0 s.blocks), ← hbits, BitWriter.length_bits]
  refine ⟨w'.finish, ?_, ?_, ?_⟩
  · rw [Stream.write, List.isEmpty_eq_false_iff.2 (entries_ne_nil hne), e]
    rfl
  · rw [BitWriter.length_finish hv, hsize]
  · rw [BitWriter.bytesBits_finish hv, hbits, hsize]

/-- As many bytes with the same bits are the same. -/
theorem eq_of_bitAt_eq {k l : List UInt8} (hlen : k.length = l.length)
    (h : ∀ i, bitAt k i = bitAt l i) : k = l := by
  refine bytesBits_injective (List.ext_getElem? fun i => ?_)
  have hi := h i
  rw [bitAt, bitAt] at hi
  rcases Nat.lt_or_ge i (8 * k.length) with hlt | hge
  · rw [List.getElem?_eq_getElem (by rw [length_bytesBits]; exact hlt),
      List.getElem?_eq_getElem (by rw [length_bytesBits, ← hlen]; exact hlt)] at hi ⊢
    exact congrArg some hi
  · rw [List.getElem?_eq_none (by rw [length_bytesBits]; exact hge),
      List.getElem?_eq_none (by rw [length_bytesBits, ← hlen]; exact hge)]

/-- What a chain is written as agrees with any of its spellings save for the padding, which is zeros
like all that is behind. -/
theorem bitAt_written {s : Stream} {w : Window} {u v : List Bool} {out bytes : List UInt8}
    (hc : Chain w s.blocks) (hs : Spells 0 s.blocks u) (hbytes : bytesBits bytes = u ++ v)
    (hout : bytesBits out = plainBits 0 s.blocks ++ List.replicate (paddingAt s.bitSize) false) :
    (∀ i < s.bitSize, ¬ s.IsPadding i → bitAt out i = bitAt bytes i) ∧
      ∀ i, s.IsPadding i ∨ s.bitSize ≤ i → bitAt out i = false := by
  have hpad : ∀ i, s.IsPadding i ↔ PaddingOf 0 s.blocks i := paddingOf_iff 0 0 s.blocks
  have hsize := bitSize_eq_of_spells hc hs
  have hplain := bitSize_eq_of_spells hc (spells_plainBits 0 s.blocks)
  have hget := fun i => getElem?_plainBits hc hs i
  refine ⟨fun i hi hn => ?_, fun i hi => ?_⟩
  · have h := (hget i).2
    rw [Nat.zero_add, ← hpad] at h
    rw [bitAt, bitAt, hout, hbytes, List.getElem?_append_left (by rw [← hplain]; exact hi),
      List.getElem?_append_left (by rw [← hsize]; exact hi), h hn]
  · rcases Nat.lt_or_ge i s.bitSize with hlt | hge
    · have h := (hget i).1
      rw [Nat.zero_add, ← hpad] at h
      rw [bitAt, hout, List.getElem?_append_left (by rw [← hplain]; exact hlt),
        h (hi.resolve_right (Nat.not_le.2 hlt))]
      rfl
    · rw [bitAt, hout, List.getElem?_append_right (by rw [← hplain]; exact hge),
        List.getElem?_replicate]
      split <;> rfl

/-! ## Writing undoes reading -/

/-- What was read is a chain of blocks, and not an empty one, which the bits taken spell. -/
theorem read_of_parse {name : String} {bytes : List UInt8} {s : Stream}
    (h : parse name bytes = .ok s) :
    s.blocks ≠ [] ∧ Chain Window.empty s.blocks ∧ ∃ trace r' u,
      readBlocks Window.empty [] (BitReader.ofBytes bytes) = .ok s.blocks r' ∧
      Reads Window.empty (BitReader.ofBytes bytes) trace r' ∧ trace.map (·.2) = s.blocks ∧
      s.layout.map (·.position) = trace.map (·.1) ∧ Spells 0 s.blocks u ∧
      bytesBits bytes = u ++ r'.bits ∧ r'.position = u.length := by
  have hread : ∃ r', readBlocks Window.empty [] (BitReader.ofBytes bytes) = .ok s.blocks r' := by
    unfold parse at h
    split at h
    · next blocks r' e =>
      cases h
      exact ⟨r', by rw [blocks_ofBlocks]; exact e⟩
    · cases h
  obtain ⟨r', e⟩ := hread
  obtain ⟨trace, hblocks, hne, hreads, hchain, hlayout, u, hbits, hpos, hspells⟩ :=
    readBlocks_sound (BitReader.valid_ofBytes bytes) e
  rw [List.reverse_nil, List.nil_append] at hblocks
  rw [BitReader.bits_ofBytes] at hbits
  rw [BitReader.position_ofBytes, Nat.zero_add] at hpos
  rw [BitReader.position_ofBytes, ← hblocks] at hspells
  rw [BitReader.position_ofBytes, ← hblocks] at hlayout
  rw [← hblocks] at hchain
  refine ⟨?_, hchain, trace, r', u, e, hreads, hblocks.symm, hlayout 0, hspells, hbits, hpos⟩
  rw [hblocks]
  intro hnil
  exact hne (List.map_eq_nil_iff.1 hnil)

/-- Bits that spell a chain of blocks are read as these blocks, whatever comes behind them. -/
theorem parse_of_spells {blocks : List Block} {bytes : List UInt8} {u behind : List Bool}
    (hne : blocks ≠ []) (hc : Chain Window.empty blocks) (hs : Spells 0 blocks u)
    (hbits : bytesBits bytes = u ++ behind) (name : String) :
    parse name bytes = .ok (ofBlocks name blocks) := by
  rw [← BitReader.bits_ofBytes] at hbits
  obtain ⟨r', e, -⟩ := readBlocks_complete (BitReader.valid_ofBytes bytes) hc hne hs hbits []
  rw [parse, e]
  rfl

/-- Two literals in blocks of their own, a stored block behind a bit of padding that is set, and a
byte behind it. -/
theorem parse_several : parse "" [74, 4, 40, 9, 144, 1, 0, 254, 255, 65, 7] =
    .ok (ofBlocks "" [literalBlock 97, literalBlock 98, .stored ⟨[65], by decide⟩]) := by
  have hchain : Chain Window.empty
      [literalBlock 97, literalBlock 98, .stored ⟨[65], by decide⟩] :=
    ⟨wellFormed_literalBlock _ 97, wellFormed_literalBlock _ 98, trivial, trivial⟩
  have hspells : Spells 0 [literalBlock 97, literalBlock 98, .stored ⟨[65], by decide⟩] _ :=
    ⟨[], _, rfl, rfl, [], _, rfl, rfl, [true], _, by decide +kernel, rfl, rfl⟩
  exact parse_of_spells (List.cons_ne_nil _ _) hchain hspells
    (show _ = _ ++ bytesBits [7] by decide +kernel) ""

/-- A stream that was read takes the bits that were consumed, each block opens where its reading
began, and writing the stream gives these bits back with zeros for padding: in front of the lengths
of stored blocks and behind the last block. So the bytes come back when they have no other padding
and nothing behind it. -/
theorem write_parsed {name : String} {bytes : List UInt8} {s : Stream}
    (h : parse name bytes = .ok s) :
    ∃ trace r', readBlocks Window.empty [] (BitReader.ofBytes bytes) = .ok s.blocks r' ∧
      Reads Window.empty (BitReader.ofBytes bytes) trace r' ∧ trace.map (·.2) = s.blocks ∧
      s.layout.map (·.position) = trace.map (·.1) ∧ s.bitSize = r'.position ∧
      ∃ out, s.write = .ok out ∧ out.length = (s.bitSize + 7) / 8 ∧
        (∀ i < s.bitSize, ¬ s.IsPadding i → bitAt out i = bitAt bytes i) ∧
        (∀ i, s.IsPadding i ∨ s.bitSize ≤ i → bitAt out i = false) ∧
        (bytes.length = out.length →
          (∀ i, s.IsPadding i ∨ s.bitSize ≤ i → bitAt bytes i = false) → out = bytes) := by
  obtain ⟨hne, hchain, trace, r', u, e, hreads, htrace, hlayout, hspells, hbits, hpos⟩ :=
    read_of_parse h
  obtain ⟨out, hwrite, hlen, hout⟩ := write_of_chain hne hchain
  obtain ⟨hkeep, hzero⟩ := bitAt_written hchain hspells hbits hout
  have hsize : s.bitSize = r'.position := by
    rw [hpos, bitSize_eq_of_spells hchain hspells]
  refine ⟨trace, r', e, hreads, htrace, hlayout, hsize, out, hwrite, hlen, hkeep, hzero, ?_⟩
  intro hbytes hclean
  refine eq_of_bitAt_eq hbytes.symm fun i => ?_
  by_cases hi : s.IsPadding i ∨ s.bitSize ≤ i
  · rw [hzero i hi, hclean i hi]
  · rw [not_or] at hi
    exact hkeep i (Nat.not_le.1 hi.2) hi.1

/-- Of two coded blocks and a stored one, every bit comes back but the one that pads and those of the
byte behind them. -/
theorem write_parsed_several :
    let bytes : List UInt8 := [74, 4, 40, 9, 144, 1, 0, 254, 255, 65, 7]
    let s := ofBlocks "" [literalBlock 97, literalBlock 98, .stored ⟨[65], by decide⟩]
    parse "" bytes = .ok s ∧
      (∃ trace r', Reads Window.empty (BitReader.ofBytes bytes) trace r' ∧
        trace.map (·.1) = [0, 18, 36] ∧ r'.position = 80) ∧
      ∃ out, s.write = .ok out ∧ out.length = 10 ∧ bitAt bytes 39 = true ∧
        bitAt out 39 = false ∧ ∀ i < 80, i ≠ 39 → bitAt out i = bitAt bytes i := by
  intro bytes s
  have hlayout : s.layout =
      [⟨0, 0, 18, .fixed, 1⟩, ⟨1, 18, 18, .fixed, 1⟩, ⟨2, 36, 44, .stored, 1⟩] := by
    decide +kernel
  have hpadding : ∀ i, s.IsPadding i ↔ i = 39 := by
    intro i
    simp [IsPadding, hlayout, openingBits, paddingAt]
    omega
  have hsize : s.bitSize = 80 := by decide +kernel
  obtain ⟨trace, r', -, hreads, -, hpositions, hend, out, hwrite, hlen, hkeep, hzero, -⟩ :=
    write_parsed parse_several
  rw [hlayout] at hpositions
  rw [hsize] at hend hlen hkeep
  exact ⟨parse_several, ⟨trace, r', hreads, hpositions.symm, hend.symm⟩, out, hwrite, hlen,
    by decide, hzero 39 (.inl ((hpadding 39).2 rfl)),
    fun i hi hne => hkeep i hi fun h => hne ((hpadding i).1 h)⟩

/-! ## Reading undoes writing -/

/-- A chain of blocks is written, and read back whatever comes behind it. -/
theorem parse_of_chain {s : Stream} (hne : s.blocks ≠ []) (hc : Chain Window.empty s.blocks) :
    ∃ out, s.write = .ok out ∧ out.length = (s.bitSize + 7) / 8 ∧
      ∀ name t, ∃ s', parse name (out ++ t) = .ok s' ∧ s'.blocks = s.blocks := by
  obtain ⟨out, hwrite, hlen, hout⟩ := write_of_chain hne hc
  refine ⟨out, hwrite, hlen, fun name t => ⟨ofBlocks name s.blocks, ?_, blocks_ofBlocks _ _⟩⟩
  have hbits : bytesBits (out ++ t) = plainBits 0 s.blocks ++
      (List.replicate (paddingAt s.bitSize) false ++ bytesBits t) := by
    rw [bytesBits_append, hout, List.append_assoc]
  exact parse_of_spells hne hc (spells_plainBits 0 s.blocks) hbits name

/-- Blocks that are well-formed behind as much of the blocks before them as matches can reach make a
chain. -/
theorem chain_of_wellFormed {done blocks : List Block}
    (h : ∀ (i : Nat) (b : Block), blocks[i]? = some b →
      b.WellFormed (Window.ofBlocks ((done ++ blocks.take i).map fun b => b.bytes.toArray))) :
    Chain (Window.ofNewest (done.map fun b => b.bytes.toArray).reverse) blocks := by
  induction blocks generalizing done with
  | nil => trivial
  | cons b rest ih =>
    refine ⟨?_, ?_⟩
    · have hb := h 0 b rfl
      rw [List.take_zero, List.append_nil] at hb
      exact hb.congr (Window.agrees_ofBlocks _)
    · have hrest := @ih (done ++ [b]) fun i c hc => by
        have := h (i + 1) c hc
        rw [List.take_succ_cons] at this
        rw [List.append_assoc]
        exact this
      refine hrest.congr (Window.agrees_of_flatten_eq ?_)
      rw [List.map_append, List.reverse_append]
      rfl

/-- A stream of blocks each of which is well-formed behind those before it is written, and read back
with the same blocks whatever comes behind it. -/
theorem parse_written {s : Stream} (hne : s.blocks ≠ [])
    (h : ∀ (i : Nat) (b : Block), s.blocks[i]? = some b →
      b.WellFormed (Window.ofBlocks ((s.blocks.take i).map fun b => b.bytes.toArray))) :
    ∃ out, s.write = .ok out ∧ out.length = (s.bitSize + 7) / 8 ∧
      ∀ name t, ∃ s', parse name (out ++ t) = .ok s' ∧ s'.blocks = s.blocks :=
  parse_of_chain hne (@chain_of_wellFormed [] s.blocks h)

/-- A stored block, and a fixed one with a match that reaches into it. -/
theorem parse_written_match :
    let blocks : List Block := [.stored ⟨[65], by decide⟩,
      .coded ⟨.fixed, [.copy 3 1 [65, 65, 65], .endOfBlock], 19, [65, 65, 65]⟩]
    ∃ out, (ofBlocks "" blocks).write = .ok out ∧
      ∀ name t, ∃ s', parse name (out ++ t) = .ok s' ∧ s'.blocks = blocks := by
  intro blocks
  have hblocks : (ofBlocks "" blocks).blocks = blocks := rfl
  obtain ⟨out, hwrite, -, hread⟩ := @parse_written (ofBlocks "" blocks) (List.cons_ne_nil _ _) (by
    intro i b hb
    rw [hblocks] at hb
    match i with
    | 0 =>
      cases hb
      trivial
    | 1 =>
      cases hb
      have hlegal : Token.Legal (.copy 3 1 [65, 65, 65]) :=
        ⟨by decide, by decide, by decide, by decide⟩
      have hfound : resolve #[] (Window.ofBlocks [#[65]]) 1 3 = .ok [65, 65, 65] :=
        resolve_eq_ok.2 ⟨by decide, by decide, by decide, by decide⟩
      have hcopy : Token.Coded CodeTable.fixedLitlen CodeTable.fixedDist
          (.copy 3 1 [65, 65, 65]) := ⟨by decide +kernel, fun _ => by decide +kernel⟩
      have hend : Token.Coded CodeTable.fixedLitlen CodeTable.fixedDist .endOfBlock :=
        ⟨by decide +kernel, nofun⟩
      exact ⟨trivial, ⟨[.copy 3 1 [65, 65, 65]], rfl, by decide⟩,
        List.forall_mem_cons.2 ⟨hlegal, List.forall_mem_singleton.2 trivial⟩,
        List.forall_mem_cons.2 ⟨hcopy, List.forall_mem_singleton.2 hend⟩,
        ⟨hfound, trivial, trivial⟩, by decide +kernel, rfl⟩
    | i + 2 => cases hb)
  exact ⟨out, hwrite, hread⟩

end Stream

end DeflateRecoder
