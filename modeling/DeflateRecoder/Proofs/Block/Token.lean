import DeflateRecoder.Block.Coded.Reading
import DeflateRecoder.Proofs.Alphabet
import DeflateRecoder.Proofs.Code.Decoder
import DeflateRecoder.Proofs.Window

/-!
# Tokens, written and read

`Token.bits` spells a token under two tables that have words for it (`Token.Coded`).
`Token.puts_write` writes these bits, `CodedBlock.readToken_recognises` reads nothing else, and
`CodedBlock.readTokens_recognises` does so up to the end of a block. Matches are read together with
their bytes, so the tokens before them come in through `Follows`.
-/

namespace DeflateRecoder

namespace Token

/-- The length and the distance of a match are those that the format has symbols for. -/
def Legal : Token → Prop
  | copy length distance _ => 3 ≤ length ∧ length ≤ 258 ∧ 1 ≤ distance ∧ distance ≤ maxDistance
  | _ => True

/-- Two tables have words for the symbols of a token. -/
structure Coded (litlen dist : CodeTable) (t : Token) : Prop where
  litlen_pos : 0 < litlen.lengthOf t.symbol
  dist_pos : t.isCopy = true → 0 < dist.lengthOf (distanceSymbol t.distance)

/-- The bytes of a match are those that it refers to, behind a window and what its block has decoded
so far. -/
def Resolves (window : Window) (current : Array UInt8) : Token → Prop
  | copy length distance bytes => resolve current window distance length = .ok bytes
  | _ => True

/-- The bits behind the length symbol of a match. -/
def lengthTail (length : Nat) : List Bool :=
  (encodeLength? length).elim [] fun c => bitsOf c.extraBits c.extra

/-- The bits behind the distance symbol of a match. -/
def distanceTail (distance : Nat) : List Bool :=
  (encodeDistance? distance).elim [] fun c => bitsOf c.extraBits c.extra

/-- The bits of a token. -/
def bits (litlen dist : CodeTable) : Token → List Bool
  | copy length distance _ =>
    (litlen.word (lengthSymbol length)).bits ++ (lengthTail length ++
      ((dist.word (distanceSymbol distance)).bits ++ distanceTail distance))
  | t => (litlen.word t.symbol).bits

variable {litlen dist : CodeTable} {t : Token}

/-- A token that the format has is written in as many bits as it costs. -/
theorem length_bits (h : t.Legal) : (t.bits litlen dist).length = t.cost litlen dist := by
  cases t with
  | literal byte => exact CodeWord.length_bits _
  | endOfBlock => exact CodeWord.length_bits _
  | copy length distance bytes =>
    obtain ⟨h₁, h₂, h₃, h₄⟩ := h
    obtain ⟨band, hband, -⟩ := lengthBand?_lengthSymbol h₁ h₂
    obtain ⟨far, hfar, -⟩ := distanceBand?_distanceSymbol h₃ h₄
    rw [bits, lengthTail, distanceTail, encodeLength?_eq h₁ h₂ hband,
      encodeDistance?_eq h₃ h₄ hfar, Option.elim_some, Option.elim_some, List.length_append,
      List.length_append, List.length_append, CodeWord.length_bits, CodeWord.length_bits,
      length_bitsOf, length_bitsOf, cost]
    dsimp only
    rw [lengthExtraBits, hband, distanceExtraBits, hfar, Option.elim_some, Option.elim_some,
      Nat.add_assoc, Nat.add_assoc]
    rfl

/-- Writing a token puts its bits. -/
theorem puts_write (hl : t.Legal) (hc : t.Coded litlen dist) {w : BitWriter} (hv : w.Valid) :
    ∃ w', t.write litlen dist w = .ok w' ∧ w.Puts w' (t.bits litlen dist) := by
  obtain ⟨w₁, e₁, p₁⟩ := BitWriter.puts_writeSymbol hv hc.litlen_pos
  cases t with
  | literal byte =>
    refine ⟨w₁, ?_, p₁⟩
    rw [write, e₁]
    rfl
  | endOfBlock =>
    refine ⟨w₁, ?_, p₁⟩
    rw [write, e₁]
    rfl
  | copy length distance bytes =>
    obtain ⟨h₁, h₂, h₃, h₄⟩ := hl
    obtain ⟨band, hband, -⟩ := lengthBand?_lengthSymbol h₁ h₂
    obtain ⟨far, hfar, -⟩ := distanceBand?_distanceSymbol h₃ h₄
    have hlen := encodeLength?_eq h₁ h₂ hband
    have hdist := encodeDistance?_eq h₃ h₄ hfar
    have p₂ := BitWriter.puts_writeBits band.extraBits (length - band.base) p₁.1
    obtain ⟨w₃, e₃, p₃⟩ := BitWriter.puts_writeSymbol p₂.1 (hc.dist_pos rfl)
    have p₄ := BitWriter.puts_writeBits far.extraBits (distance - far.base) p₃.1
    refine ⟨w₃.writeBits far.extraBits (distance - far.base), ?_, ?_⟩
    · simp only [write, e₁, hlen, hdist]
      show (w₁.writeBits band.extraBits (length - band.base)).writeSymbol dist
        (distanceSymbol distance) >>= _ = _
      rw [show distanceSymbol distance = distanceSymbol (copy length distance bytes).distance from
        rfl, e₃]
      rfl
    · rw [bits, lengthTail, distanceTail, hlen, hdist]
      exact p₁.trans (p₂.trans (p₃.trans p₄))

/-! ## What is behind a symbol -/

/-- The bits behind the word of a token's literal/length symbol. -/
def tailBits (dist : CodeTable) : Token → List Bool
  | copy length distance _ =>
    lengthTail length ++ ((dist.word (distanceSymbol distance)).bits ++ distanceTail distance)
  | _ => []

/-- The bits of a token are the word of its symbol and what is behind it. -/
theorem bits_eq (litlen dist : CodeTable) (t : Token) :
    t.bits litlen dist = (litlen.word t.symbol).bits ++ t.tailBits dist := by
  cases t with
  | literal byte => exact (List.append_nil _).symm
  | endOfBlock => exact (List.append_nil _).symm
  | copy length distance bytes => rfl

/-- The bits behind a length symbol tell the length, one for each of their values. -/
theorem lengthTail_iff {symbol length : Nat} {band : Band} (hband : lengthBand? symbol = some band)
    {u : List Bool} :
    (3 ≤ length ∧ length ≤ 258 ∧ lengthSymbol length = symbol ∧ u = lengthTail length) ↔
      ∃ extra < 2 ^ band.extraBits, decodeLength? symbol extra = some length ∧
        u = bitsOf band.extraBits extra := by
  constructor
  · rintro ⟨h₁, h₂, rfl, rfl⟩
    obtain ⟨band', hband', -, hlt, hdec⟩ := lengthBand?_lengthSymbol h₁ h₂
    rw [lengthTail, encodeLength?_eq h₁ h₂ hband', Option.elim_some]
    rw [hband] at hband'
    cases hband'
    exact ⟨length - band.base, hlt, hdec, rfl⟩
  · rintro ⟨extra, hlt, hdec, rfl⟩
    obtain ⟨h₁, h₂, h₃, rfl⟩ := lengthSymbol_add hband hlt hdec
    refine ⟨h₁, h₂, h₃, ?_⟩
    rw [lengthTail, encodeLength?_eq h₁ h₂ (h₃ ▸ hband), Option.elim_some]
    dsimp only
    rw [Nat.add_sub_cancel_left]

/-- The bits behind a distance symbol tell the distance, one for each of their values. -/
theorem distanceTail_iff {symbol distance : Nat} {band : Band}
    (hband : distanceBand? symbol = some band) {u : List Bool} :
    (1 ≤ distance ∧ distance ≤ maxDistance ∧ distanceSymbol distance = symbol ∧
        u = distanceTail distance) ↔
      ∃ extra < 2 ^ band.extraBits, decodeDistance? symbol extra = some distance ∧
        u = bitsOf band.extraBits extra := by
  constructor
  · rintro ⟨h₁, h₂, rfl, rfl⟩
    obtain ⟨band', hband', hle, hlt⟩ := distanceBand?_distanceSymbol h₁ h₂
    rw [distanceTail, encodeDistance?_eq h₁ h₂ hband', Option.elim_some]
    rw [hband] at hband'
    cases hband'
    refine ⟨distance - band.base, hlt, ?_, rfl⟩
    rw [decodeDistance?_eq hband hlt, Nat.add_sub_cancel' hle]
  · rintro ⟨extra, hlt, hdec, rfl⟩
    rw [decodeDistance?_eq hband hlt] at hdec
    obtain rfl := Option.some.inj hdec
    obtain ⟨h₁, h₂, h₃⟩ := distanceSymbol_add hband hlt
    refine ⟨h₁, h₂, h₃, ?_⟩
    rw [distanceTail, encodeDistance?_eq h₁ h₂ (h₃ ▸ hband), Option.elim_some]
    dsimp only
    rw [Nat.add_sub_cancel_left]

/-- The bits `u` behind a match's length spell its distance. -/
def Reaches (dist : CodeTable) (window : Window) (current : Array UInt8) (length : Nat)
    (t : Token) (u : List Bool) : Prop :=
  ∃ distance bytes, t = .copy length distance bytes ∧ 1 ≤ distance ∧ distance ≤ maxDistance ∧
    0 < dist.lengthOf (distanceSymbol distance) ∧
    resolve current window distance length = .ok bytes ∧
    u = (dist.word (distanceSymbol distance)).bits ++ distanceTail distance

/-- A token and the bits behind its literal/length symbol. -/
structure Tail (dist : CodeTable) (window : Window) (current : Array UInt8) (symbol : Nat)
    (t : Token) (u : List Bool) : Prop where
  symbol_eq : t.symbol = symbol
  legal : t.Legal
  resolves : t.Resolves window current
  dist_pos : t.isCopy = true → 0 < dist.lengthOf (distanceSymbol t.distance)
  bits_eq : u = t.tailBits dist

section

variable {window : Window} {current : Array UInt8} {symbol : Nat} {u : List Bool}

/-- Nothing is behind the symbol of a literal. -/
theorem tail_literal (h : symbol < 256) :
    Tail dist window current symbol t u ↔ t = .literal symbol.toUInt8 ∧ u = [] := by
  constructor
  · rintro ⟨hs, hl, -, -, hu⟩
    cases t with
    | literal byte =>
      rw [Token.symbol] at hs
      exact ⟨by rw [← hs, Nat.toUInt8_eq, UInt8.ofNat_toNat], hu⟩
    | endOfBlock => exact absurd hs.symm (Nat.ne_of_lt h)
    | copy length distance bytes =>
      have hge := (lengthSymbol_bounds hl.1 hl.2.1).1
      rw [Token.symbol] at hs
      omega
  · rintro ⟨rfl, rfl⟩
    exact ⟨Nat.mod_eq_of_lt h, trivial, trivial, (fun hc => by cases hc), rfl⟩

/-- Nothing is behind the symbol of an end. -/
theorem tail_endOfBlock :
    Tail dist window current endSymbol t u ↔ t = .endOfBlock ∧ u = [] := by
  constructor
  · rintro ⟨hs, hl, -, -, hu⟩
    cases t with
    | literal byte =>
      have hb : byte.toNat < 256 := byte.toNat_lt
      rw [Token.symbol, endSymbol] at hs
      omega
    | endOfBlock => exact ⟨rfl, hu⟩
    | copy length distance bytes =>
      have hge := (lengthSymbol_bounds hl.1 hl.2.1).1
      rw [Token.symbol, endSymbol] at hs
      omega
  · rintro ⟨rfl, rfl⟩
    exact ⟨rfl, trivial, trivial, (fun hc => by cases hc), rfl⟩

/-- Behind a length symbol are the bits that tell the length and those that tell the distance. -/
theorem tail_copy (h : endSymbol < symbol) :
    Tail dist window current symbol t u ↔ ∃ length v, 3 ≤ length ∧ length ≤ 258 ∧
      lengthSymbol length = symbol ∧ Reaches dist window current length t v ∧
      u = lengthTail length ++ v := by
  constructor
  · rintro ⟨hs, hl, hres, hpos, hu⟩
    cases t with
    | literal byte =>
      have hb : byte.toNat < 256 := byte.toNat_lt
      rw [Token.symbol] at hs
      rw [endSymbol] at h
      omega
    | endOfBlock => exact absurd hs (Nat.ne_of_lt h)
    | copy length distance bytes =>
      obtain ⟨h₁, h₂, h₃, h₄⟩ := hl
      exact ⟨length, _, h₁, h₂, hs, ⟨distance, bytes, rfl, h₃, h₄, hpos rfl, hres, rfl⟩, hu⟩
  · rintro ⟨length, v, h₁, h₂, rfl, ⟨distance, bytes, rfl, h₃, h₄, hpos, hres, rfl⟩, rfl⟩
    exact ⟨rfl, ⟨h₁, h₂, h₃, h₄⟩, hres, fun _ => hpos, rfl⟩

end

end Token

namespace CodedBlock

variable {litlen dist : CodeTable} {window : Window}

/-! ## Reading a token -/

/-- Reading a distance undoes writing its word and the bits behind it, and counts the bits taken. -/
theorem readDistance_recognises (hd : dist.Canonical) (hsize : dist.size ≤ symbolLimit) :
    (readDistance (Decoder.ofTable dist)).Recognises fun _ p u =>
      (1 ≤ p.1 ∧ p.1 ≤ maxDistance ∧ 0 < dist.lengthOf (distanceSymbol p.1) ∧
        u = (dist.word (distanceSymbol p.1)).bits ++ Token.distanceTail p.1) ∧ p.2 = u.length := by
  -- The symbol says how many bits follow it.
  refine ((Decoder.read_recognises hd hsize).bind_of_mem (M := fun far _ p u =>
    (1 ≤ p.1 ∧ p.1 ≤ maxDistance ∧ distanceSymbol p.1 = far.symbol ∧
      u = Token.distanceTail p.1) ∧ p.2 = far.width + u.length) ?_).congr fun _ p u => ⟨?_, ?_⟩
  · rintro n far u -
    cases hfar : distanceBand? far.symbol with
    | none =>
      refine (Parser.Recognises.throw _).congr fun _ p u => ⟨False.elim, ?_⟩
      rintro ⟨⟨h₁, h₂, h₃, -⟩, -⟩
      obtain ⟨band, hband, -⟩ := distanceBand?_distanceSymbol h₁ h₂
      rw [h₃, hfar] at hband
      cases hband
    | some band =>
      refine ((Parser.Recognises.readBits band.extraBits).bind_of_mem (M := fun extra _ p u =>
        p = (band.base + extra, far.width + band.extraBits) ∧ u = []) ?_).congr
          fun _ p u => ⟨?_, ?_⟩
      · rintro n extra u ⟨hlt, -⟩
        rw [decodeDistance?_eq hfar hlt]
        exact .pure _
      · rintro ⟨extra, _, _, rfl, ⟨hlt, rfl⟩, rfl, rfl⟩
        rw [List.append_nil, length_bitsOf]
        exact ⟨(Token.distanceTail_iff hfar).2 ⟨extra, hlt, decodeDistance?_eq hfar hlt, rfl⟩, rfl⟩
      · rintro ⟨htail, hwidth⟩
        obtain ⟨extra, hlt, hdec, rfl⟩ := (Token.distanceTail_iff hfar).1 htail
        rw [decodeDistance?_eq hfar hlt, Option.some.injEq] at hdec
        rw [length_bitsOf] at hwidth
        exact ⟨extra, _, [], (List.append_nil _).symm, ⟨hlt, rfl⟩, Prod.ext hdec.symm hwidth, rfl⟩
  · rintro ⟨far, _, _, rfl, ⟨hpos, hw, rfl⟩, ⟨h₁, h₂, h₃, rfl⟩, hwidth⟩
    rw [List.length_append, CodeWord.length_bits, hwidth, hw]
    rw [← h₃] at hpos ⊢
    exact ⟨⟨h₁, h₂, hpos, rfl⟩, rfl⟩
  · rintro ⟨⟨h₁, h₂, hpos, rfl⟩, hwidth⟩
    rw [List.length_append, CodeWord.length_bits] at hwidth
    exact ⟨⟨distanceSymbol p.1, dist.lengthOf (distanceSymbol p.1)⟩, _, _, rfl, ⟨hpos, rfl, rfl⟩,
      ⟨h₁, h₂, rfl, rfl⟩, hwidth⟩

/-- Reading the rest of a match undoes writing it, and counts the bits taken. -/
theorem readMatch_recognises (hd : dist.Canonical) (hsize : dist.size ≤ symbolLimit)
    (current : Array UInt8) {symbol : Nat} {band : Band} (hband : lengthBand? symbol = some band) :
    (readMatch (Decoder.ofTable dist) window current symbol band).Recognises fun _ p u =>
      (∃ length v, 3 ≤ length ∧ length ≤ 258 ∧ lengthSymbol length = symbol ∧
        Token.Reaches dist window current length p.1 v ∧ u = Token.lengthTail length ++ v) ∧
      p.2 = u.length := by
  refine ((Parser.Recognises.readBits band.extraBits).bind_of_mem (M := fun extra _ p u =>
    (∃ length, decodeLength? symbol extra = some length ∧
      Token.Reaches dist window current length p.1 u) ∧ p.2 = band.extraBits + u.length)
    ?_).congr fun _ p u => ⟨?_, ?_⟩
  · rintro n extra u -
    dsimp only
    cases hdec : decodeLength? symbol extra with
    | none =>
      refine (Parser.Recognises.throw _).congr fun _ p u => ⟨False.elim, ?_⟩
      rintro ⟨⟨length, h, -⟩, -⟩
      cases h
    | some length =>
      refine ((readDistance_recognises hd hsize).bind fun far =>
        (Parser.Recognises.ofExcept _).bind fun bytes => .pure _).congr fun _ p u => ⟨?_, ?_⟩
      · rintro ⟨far, _, _, rfl, ⟨⟨h₁, h₂, hpos, rfl⟩, hwidth⟩, bytes, _, _, rfl, ⟨hbytes, rfl⟩,
          rfl, rfl⟩
        rw [List.append_nil, List.append_nil, ← hwidth]
        exact ⟨⟨length, rfl, far.1, bytes, rfl, h₁, h₂, hpos, hbytes, rfl⟩, rfl⟩
      · rintro ⟨⟨_, ⟨⟩, distance, bytes, hp, h₁, h₂, hpos, hbytes, rfl⟩, hwidth⟩
        exact ⟨(distance, _), _, [], (List.append_nil _).symm, ⟨⟨h₁, h₂, hpos, rfl⟩, rfl⟩, bytes, [],
          [], rfl, ⟨hbytes, rfl⟩, Prod.ext hp hwidth, rfl⟩
  · rintro ⟨extra, _, v, rfl, ⟨hlt, rfl⟩, ⟨length, hdec, hreach⟩, hwidth⟩
    obtain ⟨h₁, h₂, h₃, h₄⟩ := (Token.lengthTail_iff hband).2 ⟨extra, hlt, hdec, rfl⟩
    refine ⟨⟨length, v, h₁, h₂, h₃, hreach, by rw [h₄]⟩, ?_⟩
    rw [hwidth, List.length_append, length_bitsOf]
  · rintro ⟨⟨length, v, h₁, h₂, h₃, hreach, rfl⟩, hwidth⟩
    obtain ⟨extra, hlt, hdec, hu⟩ := (Token.lengthTail_iff hband).1 ⟨h₁, h₂, h₃, rfl⟩
    rw [hu, List.length_append, length_bitsOf] at hwidth
    exact ⟨extra, _, v, rfl, ⟨hlt, hu⟩, ⟨length, hdec, hreach⟩, hwidth⟩

/-- Reading a token undoes writing it, and counts the bits taken. -/
theorem readToken_recognises (hl : litlen.Canonical) (hd : dist.Canonical)
    (hlsize : litlen.size ≤ symbolLimit) (hdsize : dist.size ≤ symbolLimit)
    (current : Array UInt8) :
    (readToken (Decoder.ofTable litlen) (Decoder.ofTable dist) window current).Recognises
      fun _ p u => (p.1.Legal ∧ p.1.Coded litlen dist ∧ p.1.Resolves window current ∧
        u = p.1.bits litlen dist) ∧ p.2 = u.length := by
  refine ((Decoder.read_recognises hl hlsize).bind_of_mem (M := fun symbol _ p u =>
    Token.Tail dist window current symbol.symbol p.1 u ∧ p.2 = symbol.width + u.length)
    ?_).congr fun _ p u => ⟨?_, ?_⟩
  · rintro n ⟨symbol, width⟩ u -
    -- Literals and the end are told by their symbol alone.
    have hbare : ∀ {t : Token} {s : Nat}, (∀ t' v, Token.Tail dist window current s t' v ↔
        t' = t ∧ v = []) → ∀ (p : Token × Nat) v, (p = (t, width) ∧ v = []) ↔
          Token.Tail dist window current s p.1 v ∧ p.2 = width + v.length := by
      intro t s htail p v
      rw [htail, and_assoc]
      constructor
      · rintro ⟨rfl, rfl⟩
        exact ⟨rfl, rfl, rfl⟩
      · rintro ⟨h₁, rfl, h₂⟩
        exact ⟨Prod.ext h₁ h₂, rfl⟩
    dsimp only
    split
    · next hlit =>
      exact (Parser.Recognises.pure _).congr fun _ p v =>
        hbare (fun _ _ => Token.tail_literal hlit) p v
    · split
      · next hend =>
        subst hend
        exact (Parser.Recognises.pure _).congr fun _ p v =>
          hbare (fun _ _ => Token.tail_endOfBlock) p v
      · next hlit hend =>
        have hgt : endSymbol < symbol := by
          rw [endSymbol] at hend ⊢
          omega
        cases hband : lengthBand? symbol with
        | none =>
          -- No length has a symbol beyond the last band.
          refine (Parser.Recognises.throw _).congr fun _ p u => ⟨False.elim, fun h => ?_⟩
          obtain ⟨length, _, h₁, h₂, rfl, -⟩ := (Token.tail_copy hgt).1 h.1
          obtain ⟨band, hb, -⟩ := lengthBand?_lengthSymbol h₁ h₂
          rw [hband] at hb
          cases hb
        | some band =>
          refine ((readMatch_recognises hd hdsize current hband).bind fun p => .pure _).congr
            fun _ p u => ⟨?_, ?_⟩
          · rintro ⟨⟨t, behind⟩, _, _, rfl, ⟨hmatch, hwidth⟩, rfl, rfl⟩
            rw [List.append_nil]
            exact ⟨(Token.tail_copy hgt).2 hmatch, congrArg (width + ·) hwidth⟩
          · rintro ⟨htail, hwidth⟩
            exact ⟨(p.1, u.length), u, [], (List.append_nil _).symm,
              ⟨(Token.tail_copy hgt).1 htail, rfl⟩, Prod.ext rfl hwidth, rfl⟩
  · rintro ⟨symbol, _, v, rfl, ⟨hpos, hw, rfl⟩, ⟨hs, hleg, hres, hd, rfl⟩, hwidth⟩
    rw [List.length_append, CodeWord.length_bits, hwidth, hw]
    rw [← hs] at hpos ⊢
    exact ⟨⟨hleg, ⟨hpos, hd⟩, hres, (Token.bits_eq _ _ _).symm⟩, rfl⟩
  · rintro ⟨⟨hleg, hc, hres, rfl⟩, hwidth⟩
    rw [Token.bits_eq, List.length_append, CodeWord.length_bits] at hwidth
    exact ⟨⟨p.1.symbol, litlen.lengthOf p.1.symbol⟩, _, _, Token.bits_eq _ _ _,
      ⟨hc.litlen_pos, rfl, rfl⟩, ⟨rfl, hleg, hres, hc.dist_pos, rfl⟩, hwidth⟩

end CodedBlock

end DeflateRecoder
