import DeflateRecoder.Proofs.Block.Header
import DeflateRecoder.Proofs.Block.Token

/-!
# Coded blocks, written and read

`CodedBlock.Writable` says what a coded block has to be wherever it stands: words for all symbols,
tables that its header transmits, and sizes that are kept right. `CodedBlock.puts_write` writes the
bits of such a block. `CodedBlock.WellFormed` adds what it has to be behind a window: one end, at
the end; matches that find their bytes (`Follows`); and the bytes of its tokens for its own.
`CodedBlock.read_recognises` reads blocks like that and nothing else.
-/

namespace DeflateRecoder

/-! ## Tokens one behind the other -/

/-- The matches of a sequence of tokens find their bytes behind a window and what the block has
decoded before. -/
def Follows (window : Window) : List UInt8 → List Token → Prop
  | _, [] => True
  | current, t :: tokens =>
    t.Resolves window current.toArray ∧ Follows window (current ++ t.bytes) tokens

/-- Tokens follow a window in two parts, the second behind the bytes of the first. -/
theorem follows_append {window : Window} {current : List UInt8} {k l : List Token} :
    Follows window current (k ++ l) ↔
      Follows window current k ∧ Follows window (current ++ tokenBytes k) l := by
  induction k generalizing current with
  | nil => simp [Follows, tokenBytes]
  | cons t k ih =>
    rw [List.cons_append, Follows, Follows, ih, tokenBytes, tokenBytes, List.flatMap_cons,
      List.append_assoc, and_assoc]

/-- A token finds the same bytes behind windows that agree. -/
theorem Token.Resolves.congr {w v : Window} (h : w.Agrees v) {current : Array UInt8} {t : Token}
    (ht : t.Resolves w current) : t.Resolves v current := by
  cases t with
  | literal byte => trivial
  | endOfBlock => trivial
  | copy length distance bytes => exact (h _ _ _ _).1 ht

/-- Tokens follow one window as they do another that agrees with it. -/
theorem Follows.congr {w v : Window} (h : w.Agrees v) {current : List UInt8} {tokens : List Token}
    (ht : Follows w current tokens) : Follows v current tokens := by
  induction tokens generalizing current with
  | nil => trivial
  | cons t tokens ih => exact ⟨ht.1.congr h, ih ht.2⟩

@[simp] theorem tokenBytes_append (k l : List Token) :
    tokenBytes (k ++ l) = tokenBytes k ++ tokenBytes l := List.flatMap_append

@[simp] theorem tokenBytes_end : tokenBytes [.endOfBlock] = [] := rfl

namespace CodedBlock

/-- The tokens end a block: there is one mark of the end, and it is the last one. -/
def Closed (tokens : List Token) : Prop :=
  ∃ body, tokens = body ++ [.endOfBlock] ∧ Token.endOfBlock ∉ body

/-- An end alone closes a block. -/
theorem closed_end : Closed [.endOfBlock] := ⟨[], rfl, List.not_mem_nil⟩

/-- Closed tokens have an end among them. -/
theorem Closed.mem {tokens : List Token} (h : Closed tokens) : Token.endOfBlock ∈ tokens := by
  obtain ⟨body, rfl, -⟩ := h
  exact List.mem_append_right _ (List.mem_singleton.2 rfl)

/-- A token that is no end may be put in front. -/
theorem Closed.cons {t : Token} {tokens : List Token} (ht : t ≠ .endOfBlock) (h : Closed tokens) :
    Closed (t :: tokens) := by
  obtain ⟨body, rfl, hbody⟩ := h
  exact ⟨t :: body, rfl, fun hmem => (List.mem_cons.1 hmem).elim (Ne.symm ht) hbody⟩

/-- The bits of a sequence of tokens. -/
def tokensBits (litlen dist : CodeTable) (tokens : List Token) : List Bool :=
  tokens.flatMap (·.bits litlen dist)

/-- The bits of the first token come first. -/
theorem tokensBits_cons (litlen dist : CodeTable) (t : Token) (tokens : List Token) :
    tokensBits litlen dist (t :: tokens) = t.bits litlen dist ++ tokensBits litlen dist tokens :=
  rfl

/-- Tokens are written in as many bits as they cost. -/
theorem length_tokensBits {litlen dist : CodeTable} {tokens : List Token}
    (h : ∀ t ∈ tokens, t.Legal) :
    (tokensBits litlen dist tokens).length = tokensCost litlen dist tokens := by
  rw [tokensBits, length_flatMap_eq_total]
  exact total_congr fun t ht => Token.length_bits (h t ht)

section

variable {litlen dist : CodeTable} {window : Window}

/-- Bytes are appended behind those that there are. -/
theorem toList_appendList (current : Array UInt8) (bytes : List UInt8) :
    (current.appendList bytes).toList = current.toList ++ bytes := Array.toList_appendList

/-- Reading tokens stops at an end. -/
theorem readTokens_of_end {current : Array UInt8} {before : List Token} {bits width : Nat}
    {r r' : BitReader} {l d : Decoder}
    (h : readToken l d window current r = .ok (.endOfBlock, width) r') :
    readTokens l d window current before bits r =
      .ok ((Token.endOfBlock :: before).reverse, bits + width, current.toList) r' := by
  rw [readTokens]
  split <;> simp_all

/-- Behind a token that is no end reading goes on, with its bytes known. -/
theorem readTokens_of_ne {current : Array UInt8} {before : List Token} {bits width : Nat}
    {r r' : BitReader} {l d : Decoder} {t : Token}
    (h : readToken l d window current r = .ok (t, width) r') (ht : t ≠ .endOfBlock) :
    readTokens l d window current before bits r =
      readTokens l d window (current.appendList t.bytes) (t :: before) (bits + width) r' := by
  conv => lhs; rw [readTokens]
  split <;> simp_all

/-- Reading tokens fails where reading one of them does. -/
theorem readTokens_of_error {current : Array UInt8} {before : List Token} {bits : Nat}
    {r r' : BitReader} {l d : Decoder} {e : Error}
    (h : readToken l d window current r = .error e r') :
    readTokens l d window current before bits r = .error e r' := by
  rw [readTokens]
  split <;> simp_all

/-- Reading tokens up to the end of a block undoes writing them, counts the bits taken and gathers
the bytes. -/
theorem readTokens_recognises (hl : litlen.Canonical) (hd : dist.Canonical)
    (hlsize : litlen.size ≤ symbolLimit) (hdsize : dist.size ≤ symbolLimit)
    (current : Array UInt8) (before : List Token) (bits : Nat) :
    (readTokens (Decoder.ofTable litlen) (Decoder.ofTable dist) window current before
      bits).Recognises fun _ p u => (∃ rest, p.1 = before.reverse ++ rest ∧ Closed rest ∧
        (∀ t ∈ rest, t.Legal ∧ t.Coded litlen dist) ∧ Follows window current.toList rest ∧
        u = tokensBits litlen dist rest ∧ p.2.2 = current.toList ++ tokenBytes rest) ∧
        p.2.1 = bits + u.length := by
  have hread := @readToken_recognises litlen dist window hl hd hlsize hdsize
  constructor
  · intro r p r' hr e
    fun_induction readTokens (Decoder.ofTable litlen) (Decoder.ofTable dist) window current before
      bits r with
    | case1 => cases e
    | case2 current before bits r width r₁ h =>
      cases e
      obtain ⟨hr₁, u, hb, hpos, ⟨hleg, hc, -, rfl⟩, hwidth⟩ := (hread current).sound hr h
      exact ⟨hr₁, _, hb, hpos, ⟨[.endOfBlock], List.reverse_cons, closed_end,
        List.forall_mem_singleton.2 ⟨hleg, hc⟩, ⟨trivial, trivial⟩, (List.append_nil _).symm,
        (List.append_nil _).symm⟩, congrArg (bits + ·) hwidth⟩
    | case3 current before bits r t width r₁ hne h ih =>
      obtain ⟨hr₁, u, hb, hpos, ⟨hleg, hc, hres, rfl⟩, hwidth⟩ := (hread current).sound hr h
      obtain ⟨hr', v, hb', hpos', ⟨rest, hp, hclosed, hall, hfol, rfl, hbytes⟩, hsize⟩ := ih hr₁ e
      have ht : t ≠ .endOfBlock := by
        rintro rfl
        exact hne rfl
      rw [toList_appendList] at hfol hbytes
      refine ⟨hr', t.bits litlen dist ++ tokensBits litlen dist rest,
        by rw [hb, hb', List.append_assoc], ?_, ⟨t :: rest, ?_, hclosed.cons ht,
        List.forall_mem_cons.2 ⟨⟨hleg, hc⟩, hall⟩, ⟨hres, hfol⟩, rfl, ?_⟩, ?_⟩
      · rw [hpos', hpos, List.length_append, Nat.add_assoc]
      · rw [hp, List.reverse_cons, List.append_assoc, List.singleton_append]
      · rw [hbytes, List.append_assoc]
        rfl
      · rw [hsize, List.length_append, ← Nat.add_assoc, ← hwidth]
  · rintro r ⟨tokens, total, bytes⟩ u v hr hb
      ⟨⟨rest, rfl, ⟨body, rfl, hbody⟩, hall, hfol, rfl, rfl⟩, rfl⟩
    -- The tokens are read off one by one, whatever was read before them.
    induction body generalizing current before bits r with
    | nil =>
      obtain ⟨hleg, hc⟩ := hall _ (List.mem_singleton.2 rfl)
      rw [List.nil_append, tokensBits_cons, tokensBits, List.flatMap_nil, List.append_nil] at hb ⊢
      obtain ⟨r', e, hb'⟩ := (hread current).complete (a := (.endOfBlock, _)) hr hb
        ⟨⟨hleg, hc, trivial, rfl⟩, rfl⟩
      refine ⟨r', ?_, hb'⟩
      rw [readTokens_of_end e, List.reverse_cons, tokenBytes_end, List.append_nil]
    | cons t body ih =>
      rw [List.mem_cons, not_or] at hbody
      obtain ⟨hleg, hc⟩ := hall t List.mem_cons_self
      rw [List.cons_append, tokensBits_cons, List.append_assoc] at hb
      obtain ⟨r₁, e₁, hr₁, hb₁, -⟩ :=
        (hread current).complete_position (a := (t, _)) hr hb ⟨⟨hleg, hc, hfol.1, rfl⟩, rfl⟩
      have hrest : Follows window (current.appendList t.bytes).toList (body ++ [.endOfBlock]) := by
        rw [toList_appendList]
        exact hfol.2
      obtain ⟨r', e, hb'⟩ := ih (current.appendList t.bytes) (t :: before)
        (bits + (t.bits litlen dist).length) hr₁ hbody.2
        (fun s hs => hall s (List.mem_cons_of_mem _ hs)) hrest hb₁
      refine ⟨r', ?_, hb'⟩
      rw [readTokens_of_ne e₁ (Ne.symm hbody.1), e, List.cons_append, tokensBits_cons,
        List.length_append, Nat.add_assoc, List.reverse_cons, List.append_assoc,
        List.singleton_append, toList_appendList, List.append_assoc]
      rfl

end

end CodedBlock

/-! ## Tables -/

/-- The tables are those that a block of their kind has: the fixed ones, or canonical ones with the
code lengths that the header stands for. -/
def Coding.WellFormed : Coding → Prop
  | .fixed => True
  | .dynamic litlen dist header =>
    header.WellFormed ∧ litlen.Canonical ∧ dist.Canonical ∧ litlen.size = header.litlenCount ∧
      dist.size = header.distCount ∧ unpack header.symbols = .ok (litlen.lengths ++ dist.lengths)

/-- The bits of a header, if there is one. -/
def Coding.bits : Coding → List Bool
  | .fixed => []
  | .dynamic _ _ header => header.bits

/-- The kind of a block with the given tables. -/
def Coding.kind : Coding → BlockKind
  | .fixed => .fixed
  | .dynamic .. => .dynamic

namespace CodedBlock

/-- Reading the tables of a coded block recognises the bits that its header is written as, and none
where the tables are fixed. -/
theorem readCoding_recognises {kind : BlockKind} (hkind : kind ≠ .stored) :
    (readCoding kind).Recognises fun _ c u => c.kind = kind ∧ c.WellFormed ∧ u = c.bits := by
  cases kind with
  | stored => exact absurd rfl hkind
  | fixed =>
    refine (Parser.Recognises.pure _).congr fun _ c u => ⟨?_, ?_⟩
    · rintro ⟨rfl, rfl⟩
      exact ⟨rfl, trivial, rfl⟩
    · rintro ⟨hk, -, rfl⟩
      cases c with
      | fixed => exact ⟨rfl, rfl⟩
      | dynamic litlen dist header => cases hk
  | dynamic =>
    refine (TableHeader.read_recognises.bind fun header => (Parser.Recognises.ofExcept _).bind
      fun litlen => (Parser.Recognises.ofExcept _).bind fun dist => .pure _).congr
      fun _ c u => ⟨?_, ?_⟩
    · rintro ⟨header, _, _, rfl, ⟨hw, rfl⟩, litlen, _, _, rfl, ⟨hl, rfl⟩, dist, _, _, rfl,
        ⟨hd, rfl⟩, rfl, rfl⟩
      obtain ⟨hlc, hll⟩ := CodeTable.canonical_of_ofLengths? hl
      obtain ⟨hdc, hdl⟩ := CodeTable.canonical_of_ofLengths? hd
      obtain ⟨hu, hlitlen, hdist⟩ := hw.unpack_lengths
      rw [← hll, CodeTable.length_lengths] at hlitlen
      rw [← hdl, CodeTable.length_lengths] at hdist
      rw [← hll, ← hdl] at hu
      refine ⟨rfl, ⟨hw, hlc, hdc, hlitlen, hdist, hu⟩, ?_⟩
      rw [List.append_nil, List.append_nil, List.append_nil]
      rfl
    · rintro ⟨hk, hw, rfl⟩
      cases c with
      | fixed => cases hk
      | dynamic litlen dist header =>
        obtain ⟨hw, hl, hd, hls, hds, hu⟩ := hw
        have hlengths := TableHeader.lengths_eq hu (by rw [CodeTable.length_lengths, hls])
        exact ⟨header, _, _, (List.append_nil _).symm, ⟨hw, rfl⟩, litlen, [], _, rfl,
          ⟨by rw [hlengths]; exact hl.ofLengths?_eq, rfl⟩, dist, [], _, rfl,
          ⟨by rw [hlengths]; exact hd.ofLengths?_eq, rfl⟩, rfl, rfl⟩

/-! ## Blocks -/

/-- A coded block that can be written, in as many bits as it says. -/
structure Writable (b : CodedBlock) : Prop where
  coding : b.coding.WellFormed
  ends : Token.endOfBlock ∈ b.tokens
  legal : ∀ t ∈ b.tokens, t.Legal
  coded : ∀ t ∈ b.tokens, t.Coded b.litlen b.dist
  tokenBits_eq : b.tokenBits = tokensCost b.litlen b.dist b.tokens

/-- A coded block that decodes to its own bytes behind a window. -/
structure WellFormed (window : Window) (b : CodedBlock) : Prop where
  coding : b.coding.WellFormed
  closed : Closed b.tokens
  legal : ∀ t ∈ b.tokens, t.Legal
  coded : ∀ t ∈ b.tokens, t.Coded b.litlen b.dist
  follows : Follows window [] b.tokens
  tokenBits_eq : b.tokenBits = tokensCost b.litlen b.dist b.tokens
  bytes_eq : b.bytes = tokenBytes b.tokens

/-- A well-formed block can be written. -/
theorem WellFormed.writable {w : Window} {b : CodedBlock} (h : b.WellFormed w) : b.Writable :=
  ⟨h.coding, h.closed.mem, h.legal, h.coded, h.tokenBits_eq⟩

/-- The bits of a block behind those that open it. -/
def bits (b : CodedBlock) : List Bool := b.coding.bits ++ tokensBits b.litlen b.dist b.tokens

/-- A coded block is as well-formed behind one window as behind another that agrees with it. -/
theorem WellFormed.congr {w v : Window} (h : w.Agrees v) {b : CodedBlock} (hb : b.WellFormed w) :
    b.WellFormed v :=
  { hb with follows := hb.follows.congr h }

/-- The literal/length table of a well-formed coding is canonical, and not too big to be decoded. -/
theorem canonical_litlen {b : CodedBlock} (h : b.coding.WellFormed) :
    b.litlen.Canonical ∧ b.litlen.size ≤ symbolLimit := by
  unfold litlen
  split
  · exact ⟨CodeTable.canonical_fixedLitlen, by rw [CodeTable.size_fixedLitlen]; decide⟩
  · next hc =>
    rw [hc] at h
    obtain ⟨hw, hl, -, hls, -⟩ := h
    have hle := hw.litlenCount_le
    refine ⟨hl, ?_⟩
    rw [hls, symbolLimit]
    omega

/-- The distance table of a well-formed coding is canonical, and not too big to be decoded. -/
theorem canonical_dist {b : CodedBlock} (h : b.coding.WellFormed) :
    b.dist.Canonical ∧ b.dist.size ≤ symbolLimit := by
  unfold dist
  split
  · exact ⟨CodeTable.canonical_fixedDist, by rw [CodeTable.size_fixedDist]; decide⟩
  · next hc =>
    rw [hc] at h
    obtain ⟨hw, -, hd, -, hds, -⟩ := h
    have hle := hw.distCount_le
    refine ⟨hd, ?_⟩
    rw [hds, symbolLimit]
    omega

/-- The decoders of a block are those of its tables. -/
theorem decoders_eq (b : CodedBlock) :
    decoders b.coding = (Decoder.ofTable b.litlen, Decoder.ofTable b.dist) := by
  unfold litlen dist
  split
  · next hc =>
    rw [hc]
    rfl
  · next hc =>
    rw [hc]
    rfl

/-- A block that can be written has as many bits as its size says. -/
theorem length_bits {b : CodedBlock} (h : b.Writable) : b.bits.length = b.bitSize := by
  have hcoding : b.coding.bits.length = b.header?.elim 0 (·.bitSize) := by
    have hw := h.coding
    unfold header?
    cases hc : b.coding with
    | fixed => rfl
    | dynamic litlen dist header =>
      rw [hc] at hw
      exact TableHeader.length_bits hw.1
  rw [bits, List.length_append, hcoding, length_tokensBits h.legal, bitSize, h.tokenBits_eq]

/-- Writing a block puts its bits. -/
theorem puts_write {b : CodedBlock} (h : b.Writable) {w : BitWriter} (hv : w.Valid) :
    ∃ w', b.write w = .ok w' ∧ w.Puts w' b.bits := by
  have htokens := fun (w₁ : BitWriter) (hv₁ : w₁.Valid) => BitWriter.puts_foldlM
    (fun t ht w hv => Token.puts_write (h.legal t ht) (h.coded t ht) hv) hv₁
  have hcoding := h.coding
  rw [bits]
  unfold write header?
  cases hc : b.coding with
  | fixed =>
    obtain ⟨w', e, p⟩ := htokens w hv
    exact ⟨w', e, p⟩
  | dynamic litlen dist header =>
    rw [hc] at hcoding
    obtain ⟨w₁, e₁, p₁⟩ := TableHeader.puts_write hcoding.1 hv
    obtain ⟨w', e, p⟩ := htokens w₁ p₁.1
    refine ⟨w', ?_, p₁.trans p⟩
    dsimp only
    rw [e₁]
    exact e

/-- Reading a block undoes writing it, and gives nothing but well-formed blocks. -/
theorem read_recognises {kind : BlockKind} (hkind : kind ≠ .stored) (window : Window) :
    (read kind window).Recognises fun _ b u =>
      b.kind = kind ∧ b.WellFormed window ∧ u = b.bits := by
  refine ((readCoding_recognises hkind).bind_of_mem (M := fun c _ b u => b.coding = c ∧
    b.WellFormed window ∧ u = tokensBits b.litlen b.dist b.tokens) ?_).congr
    fun _ b u => ⟨?_, ?_⟩
  · rintro n c u ⟨-, hw, -⟩
    -- The tables are those of any block with this coding.
    have htables := decoders_eq (ofCoding c [] [])
    obtain ⟨hl, hls⟩ := @canonical_litlen (ofCoding c [] []) hw
    obtain ⟨hd, hds⟩ := @canonical_dist (ofCoding c [] []) hw
    rw [show decoders c = _ from htables]
    refine ((readTokens_recognises hl hd hls hds #[] [] 0).bind fun p => .pure _).congr
      fun _ b u => ⟨?_, ?_⟩
    · rintro ⟨⟨tokens, tokenBits, bytes⟩, _, _, rfl,
        ⟨⟨rest, hp, hclosed, hall, hfol, rfl, hbytes⟩, hsize⟩, rfl, rfl⟩
      rw [List.append_nil]
      cases hp
      refine ⟨rfl, ⟨hw, hclosed, fun t ht => (hall t ht).1, fun t ht => (hall t ht).2, hfol, ?_,
        hbytes⟩, rfl⟩
      rw [← length_tokensBits fun t ht => (hall t ht).1]
      exact hsize.trans (Nat.zero_add _)
    · rintro ⟨rfl, hb, rfl⟩
      refine ⟨(b.tokens, b.tokenBits, b.bytes), _, [], (List.append_nil _).symm, ⟨⟨b.tokens, rfl,
        hb.closed, fun t ht => ⟨hb.legal t ht, hb.coded t ht⟩, hb.follows, rfl, hb.bytes_eq⟩, ?_⟩,
        rfl, rfl⟩
      rw [hb.tokenBits_eq, Nat.zero_add]
      exact (length_tokensBits hb.legal).symm
  · rintro ⟨c, _, _, rfl, ⟨rfl, -, rfl⟩, rfl, hb, rfl⟩
    exact ⟨rfl, hb, rfl⟩
  · rintro ⟨rfl, hb, rfl⟩
    exact ⟨b.coding, _, _, rfl, ⟨rfl, hb.coding, rfl⟩, rfl, hb, rfl⟩

end CodedBlock

end DeflateRecoder
