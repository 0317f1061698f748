import DeflateRecoder.Proofs.Inflate.Reading
import DeflateRecoder.Proofs.Stream.RoundTrip
import DeflateRecoder.Proofs.Window.Copying

/-!
# The parser agrees with the plain inflater

`Stream.parse_inflates` says that a stream is parsed exactly when the plain inflater decodes it, and
that its bytes are what the inflater puts out.

The inflater has one list of bytes, the parser a window of blocks and the bytes of the block at
hand. A match sees the same in both (`Sees`), also in what is left of the window for a block
(`sees_nearest`), and copying byte by byte repeats the bytes that the match reaches back to
(`copyBytes_eq`), whichever blocks they come from.
-/

namespace DeflateRecoder

namespace Inflate

open Window (flatten)

/-! ## Matches -/

/-- Matches find in a window, behind what a block has decoded, what they find in a list of bytes
behind which the block comes. -/
def Sees (window : Window) (before : List UInt8) : Prop :=
  ∀ (current : Array UInt8) (distance length : Nat) (bytes : List UInt8),
    resolve current window distance length = .ok bytes ↔
      1 ≤ distance ∧ distance ≤ (before ++ current.toList).length ∧ distance ≤ maxDistance ∧
        bytes = repeated (before ++ current.toList) distance length

/-- What is left of a window for a block is all that its matches can reach. -/
theorem sees_nearest (window : Window) : Sees window.nearest (flatten window.blocks) :=
  fun current distance length bytes =>
    (window.agrees_nearest current distance length bytes).trans resolve_eq_ok

variable {r : BitReader} {window : Window} {before : List UInt8} {litlen dist : CodeTable}

/-- Resolving a match and copying it byte by byte. -/
theorem agree_resolve (hsees : Sees window before) (current : Array UInt8) {distance length : Nat}
    (hlength : 1 ≤ length) (h₁ : 1 ≤ distance) (hmax : distance ≤ maxDistance) (hr : r.Valid) :
    Agree (fun bytes out => out = before ++ current.toList ++ bytes)
      (Parser.ofExcept (resolve current window distance length) r)
      ((liftM (copyBytes distance length (before ++ current.toList)) : Take _) r.bits) := by
  by_cases h₂ : distance ≤ (before ++ current.toList).length
  · rw [copyBytes_eq h₁ h₂, (hsees _ _ _ _).2 ⟨h₁, h₂, hmax, rfl⟩]
    exact .read hr rfl
  · have hcopy : copyBytes distance length (before ++ current.toList) = none := by
      cases length with
      | zero => cases hlength
      | succ length => rw [copyBytes, if_pos (Nat.lt_of_not_le h₂)]
    rw [hcopy]
    cases hresolve : resolve current window distance length with
    | ok bytes => exact absurd ((hsees _ _ _ _).1 hresolve).2.1 h₂
    | error e => exact .failed

/-! ## Tokens -/

/-- The band that is built up for a length symbol is the one in the table of the format. -/
theorem getElem?_lengthBandTable {s : Nat} (hs : firstLengthSymbol ≤ s) :
    lengthBandTable[s - firstLengthSymbol]? =
      (lengthBand? s).map fun band => (band.base, band.extraBits) := by
  have h : lengthBandTable = lengthBands.toList.map fun band => (band.base, band.extraBits) := by
    decide
  rw [h, List.getElem?_map, Array.getElem?_toList, lengthBand?, if_neg (Nat.not_lt.2 hs)]

/-- The band that is built up for a distance symbol is the one in the table of the format. -/
theorem getElem?_distBandTable (i : Nat) :
    distBandTable[i]? = (distanceBand? i).map fun band => (band.base, band.extraBits) := by
  have h : distBandTable = distanceBands.toList.map fun band => (band.base, band.extraBits) := by
    decide
  rw [h, List.getElem?_map, Array.getElem?_toList]
  rfl

/-- Both read what is added to the base of a band. -/
theorem agree_valueIn {table : List (Nat × Nat)} {index : Nat} {band : Band}
    (hband : table[index]? = some (band.base, band.extraBits)) (hr : r.Valid) :
    Agree (fun extra value => value = band.base + extra ∧ extra < 2 ^ band.extraBits)
      (BitReader.readBits band.extraBits r) (valueIn table index r.bits) := by
  have h : valueIn table index = (band.base + ·) <$> number band.extraBits := by
    rw [valueIn, hband]
  rw [h, ← id_map (BitReader.readBits _)]
  refine (agree_readBits band.extraBits hr).map fun extra _ hextra => ?_
  obtain ⟨rfl, hlt⟩ := hextra
  exact ⟨rfl, hlt⟩

/-- The length that the bits behind a symbol give, but for the second spelling of the greatest. -/
theorem decodeLength?_eq {s extra : Nat} {band : Band} (hband : lengthBand? s = some band)
    (hextra : extra < 2 ^ band.extraBits) :
    decodeLength? s extra =
      if s = 284 ∧ band.base + extra = 258 then none else some (band.base + extra) := by
  have h284 : s = 284 → band = ⟨227, 5⟩ := by
    rintro rfl
    have h : lengthBand? 284 = some ⟨227, 5⟩ := by decide
    rw [h, Option.some.injEq] at hband
    exact hband.symm
  by_cases hrefused : s = 284 ∧ extra = 31
  · obtain ⟨hs, rfl⟩ := hrefused
    rw [decodeLength?, if_pos ⟨hs, rfl⟩, if_pos ⟨hs, by rw [h284 hs]⟩]
  · have hdecode : decodeLength? s extra = some (band.base + extra % extraLimit) := by
      rw [decodeLength?, if_neg hrefused, hband]
      rfl
    obtain ⟨-, -, -, hlength⟩ := lengthSymbol_add hband hextra hdecode
    rw [hdecode, hlength, if_neg]
    rintro ⟨hs, h258⟩
    rw [h284 hs] at h258
    dsimp only at h258
    exact hrefused ⟨hs, by omega⟩

/-- Both read a distance, one that a match can have. -/
theorem agree_readDistance (hd : dist.Canonical) (hsize : dist.size ≤ symbolLimit) (hr : r.Valid) :
    Agree (fun p distance => distance = p.1 ∧ 1 ≤ p.1 ∧ p.1 ≤ maxDistance)
      (CodedBlock.readDistance (Decoder.ofTable dist) r)
      ((symbol dist.lengths >>= valueIn distBandTable) r.bits) := by
  refine (agree_read hd hsize hr).bind fun far _ r₁ _ hr₁ hfar => ?_
  obtain ⟨rfl, -⟩ := hfar
  have hentry := getElem?_distBandTable far.symbol
  cases hband : distanceBand? far.symbol with
  | none =>
    have hvalue : valueIn distBandTable far.symbol = failure := by
      rw [valueIn, hentry, hband]
      rfl
    rw [hvalue]
    exact .failed
  | some band =>
    rw [hband] at hentry
    refine (agree_valueIn hentry hr₁).bind_left fun extra _ r₂ hr₂ hextra => ?_
    obtain ⟨rfl, hextra⟩ := hextra
    obtain ⟨h₁, hmax, -⟩ := distanceSymbol_add hband hextra
    rw [decodeDistance?_eq hband hextra]
    exact .read hr₂ ⟨rfl, h₁, hmax⟩

/-- Reading a match and copying it. -/
theorem agree_readMatch (hd : dist.Canonical) (hsize : dist.size ≤ symbolLimit)
    (hsees : Sees window before) (current : Array UInt8) {s : Nat} {band : Band}
    (hband : lengthBand? s = some band) (hr : r.Valid) :
    Agree (fun t out => t.1 ≠ .endOfBlock ∧ out = before ++ current.toList ++ t.1.bytes)
      (CodedBlock.readMatch (Decoder.ofTable dist) window current s band r)
      (copy dist.lengths (before ++ current.toList) s r.bits) := by
  have hs : firstLengthSymbol ≤ s := by
    refine Nat.le_of_not_lt fun hlt => ?_
    rw [lengthBand?, if_pos hlt] at hband
    cases hband
  have hentry := getElem?_lengthBandTable hs
  rw [hband] at hentry
  refine (agree_valueIn hentry hr).bind fun extra _ r₁ _ hr₁ hextra => ?_
  obtain ⟨rfl, hextra⟩ := hextra
  have hdecode := decodeLength?_eq hband hextra
  rw [hdecode]
  by_cases hrefused : s = 284 ∧ band.base + extra = 258
  · rw [if_pos hrefused, guard_of_not (not_not_intro hrefused)]
    exact .failed
  · rw [if_neg hrefused] at hdecode ⊢
    rw [guard_of hrefused, pure_bind, ← bind_assoc]
    obtain ⟨hge, -⟩ := lengthSymbol_add hband hextra hdecode
    refine (agree_readDistance hd hsize hr₁).bind fun far _ r₂ _ hr₂ hfar => ?_
    obtain ⟨rfl, h₁, hmax⟩ := hfar
    refine (agree_resolve hsees current (by omega) h₁ hmax hr₂).then_pure fun bytes out hout => ?_
    exact ⟨nofun, hout⟩

/-- Reading a token and decoding it: nothing comes of the end of the block, and of any other token
the bytes that it stands for. -/
theorem agree_readToken (hl : litlen.Canonical) (hd : dist.Canonical)
    (hlsize : litlen.size ≤ symbolLimit) (hdsize : dist.size ≤ symbolLimit)
    (hsees : Sees window before) (current : Array UInt8) (hr : r.Valid) :
    Agree (fun t out => t.1 = .endOfBlock ∧ out = none ∨
        t.1 ≠ .endOfBlock ∧ out = some (before ++ current.toList ++ t.1.bytes))
      (CodedBlock.readToken (Decoder.ofTable litlen) (Decoder.ofTable dist) window current r)
      (step litlen.lengths dist.lengths (before ++ current.toList) r.bits) := by
  refine (agree_read hl hlsize hr).bind fun symbol _ r₁ _ hr₁ hs => ?_
  obtain ⟨rfl, -⟩ := hs
  obtain ⟨s, width⟩ := symbol
  dsimp only
  split
  · exact .pure hr₁ (.inr ⟨nofun, rfl⟩)
  · split
    · next hend =>
      rw [if_pos (show s = 256 from hend)]
      exact .pure hr₁ (.inl ⟨rfl, rfl⟩)
    · next hlow hend =>
      rw [if_neg (show ¬s = 256 from hend)]
      have hge : firstLengthSymbol ≤ s := Nat.lt_of_le_of_ne (Nat.not_lt.1 hlow) (Ne.symm hend)
      cases hband : lengthBand? s with
      | none =>
        have hentry := getElem?_lengthBandTable hge
        have hvalue : valueIn lengthBandTable (s - 257) = failure := by
          rw [valueIn, show s - 257 = s - firstLengthSymbol from rfl, hentry, hband]
          rfl
        rw [copy, hvalue]
        exact .failed
      | some band =>
        rw [← bind_pure_comp]
        refine (agree_readMatch hd hdsize hsees current hband hr₁).bind
          fun t out r₂ _ hr₂ hout => ?_
        obtain ⟨hne, rfl⟩ := hout
        exact .pure hr₂ (.inr ⟨hne, rfl⟩)

/-! ## Coded blocks -/

/-- Decoding stops at the end of a block, and goes on behind any other token with the bytes that
there are then. -/
theorem tokens_eq (litlen dist : List Nat) (out : List UInt8) (bits : List Bool) :
    tokens litlen dist out bits = match step litlen dist out bits with
      | none => none
      | some (none, rest) => some (out, rest)
      | some (some out, rest) => tokens litlen dist out rest := by
  rw [tokens]
  split <;> simp_all

/-- Reading the tokens of a block. -/
theorem agree_readTokens (hl : litlen.Canonical) (hd : dist.Canonical)
    (hlsize : litlen.size ≤ symbolLimit) (hdsize : dist.size ≤ symbolLimit)
    (hsees : Sees window before) (current : Array UInt8) (tokens : List Token) (bits : Nat)
    (hr : r.Valid) :
    Agree (fun t out => out = before ++ t.2.2)
      (CodedBlock.readTokens (Decoder.ofTable litlen) (Decoder.ofTable dist) window current tokens
        bits r)
      (Inflate.tokens litlen.lengths dist.lengths (before ++ current.toList) r.bits) := by
  fun_induction CodedBlock.readTokens (Decoder.ofTable litlen) (Decoder.ofTable dist) window current
    tokens bits r with
  | case1 current tokens bits r e r₁ h =>
    have htoken := agree_readToken hl hd hlsize hdsize hsees current hr
    rw [h] at htoken
    rw [tokens_eq, htoken.eq_none]
    exact .failed
  | case2 current tokens bits r width r₁ h =>
    have htoken := agree_readToken hl hd hlsize hdsize hsees current hr
    rw [h] at htoken
    obtain ⟨hr₁, out, hstep, ⟨-, rfl⟩ | ⟨hne, -⟩⟩ := htoken.eq_some
    · rw [tokens_eq, hstep]
      exact .read hr₁ rfl
    · exact absurd rfl hne
  | case3 current tokens bits r token width r₁ hne h ih =>
    have htoken := agree_readToken hl hd hlsize hdsize hsees current hr
    rw [h] at htoken
    obtain ⟨hr₁, out, hstep, ⟨hend, -⟩ | ⟨-, rfl⟩⟩ := htoken.eq_some
    · exact (hne hend).elim
    · rw [tokens_eq, hstep]
      have hlater := ih hr₁
      rw [CodedBlock.toList_appendList, ← List.append_assoc] at hlater
      exact hlater

/-- The fixed literal/length table has the lengths that the inflater uses. -/
theorem fixedLitlen_eq : CodeTable.fixedLitlen.lengths = fixedLitlen := by
  rw [CodeTable.lengths_fixedLitlen]
  decide +kernel

/-- The fixed distance table has the lengths that the inflater uses. -/
theorem fixedDist_eq : CodeTable.fixedDist.lengths = fixedDist := CodeTable.lengths_fixedDist

/-! ## Stored blocks -/

/-- The bits of the greatest number less another are the other's, each turned around. -/
theorem bitsOf_complement {n v : Nat} (h : v < 2 ^ n) :
    bitsOf n (2 ^ n - 1 - v) = (bitsOf n v).map (!·) := by
  induction n generalizing v with
  | zero => rfl
  | succ n ih =>
    rw [Nat.pow_succ] at h ⊢
    have hhalf : (2 ^ n * 2 - 1 - v) / 2 = 2 ^ n - 1 - v / 2 := by omega
    have hlow : decide ((2 ^ n * 2 - 1 - v) % 2 = 1) = !decide (v % 2 = 1) := by
      rw [← decide_not]
      exact decide_eq_decide.2 (by omega)
    rw [bitsOf, bitsOf, List.map_cons, hhalf, hlow, ih (by omega)]

/-- Of two words each bit of one is the other's turned around just when they add up to the greatest
length. -/
theorem complement_iff {v w : Nat} (hv : v < 2 ^ 16) (hw : w < 2 ^ 16) :
    bitsOf 16 w = (bitsOf 16 v).map (!·) ↔ v + w = maxStoredLength := by
  rw [← bitsOf_complement hv, maxStoredLength]
  constructor
  · intro h
    have hmod := mod_eq_of_bitsOf_eq h
    omega
  · intro h
    rw [show w = 2 ^ 16 - 1 - v by omega]

/-- What is left of a byte begun is what aligning drops. -/
theorem bits_align (hr : r.Valid) :
    r.align.Valid ∧ r.align.bits = r.bits.drop (r.bits.length % 8) ∧
      r.align.bits.length % 8 = 0 := by
  obtain ⟨halign, hbits, -⟩ := BitReader.align_spec hr
  have hpad : paddingAt r.position = r.bits.length % 8 := by
    rw [← hr.position_mod, BitReader.length_bits, BitReader.remaining, Nat.mul_add_mod]
  rw [hpad] at hbits
  refine ⟨halign, hbits, ?_⟩
  rw [hbits, List.length_drop]
  omega

/-- Nothing is dropped at a byte boundary. -/
theorem align_eq_self (h : r.bits.length % 8 = 0) : r.align = r := by
  rw [BitReader.length_bits, BitReader.remaining, Nat.mul_add_mod] at h
  rw [BitReader.align, h]
  rfl

/-- At a byte boundary a word is a number of 16 bits. -/
theorem readWord_bind {α : Type} (f : Nat → Parser α) (h : r.bits.length % 8 = 0) :
    (BitReader.readWord >>= f) r = (BitReader.readBits 16 >>= f) r := by
  have hword : (BitReader.readWord >>= f) r = (BitReader.readBits 16 >>= f) r.align := rfl
  rw [hword, align_eq_self h]

/-- A number of whole bytes ends at a byte boundary. -/
theorem aligned_of_readBits {v : Nat} {r' : BitReader} (h : BitReader.readBits 16 r = .ok v r')
    (halign : r.bits.length % 8 = 0) : r'.bits.length % 8 = 0 := by
  have := BitReader.readBits_remaining h
  rw [BitReader.length_bits] at halign ⊢
  omega

/-- The bits of a byte are the number that it is. -/
theorem number_byte (b : UInt8) (rest : List Bool) :
    number 8 (bitsOf 8 b.toNat ++ rest) = some (b.toNat, rest) := by
  rw [number_eq (by simp), List.take_left' (length_bitsOf _ _), List.drop_left' (length_bitsOf _ _),
    valueOf_bitsOf, Nat.mod_eq_of_lt b.toNat_lt]

/-- The bits of some bytes are taken as the numbers that they are. -/
theorem mapM_number_bytesBits (bytes : List UInt8) (rest : List Bool) :
    (List.replicate bytes.length 8).mapM number (bytesBits bytes ++ rest) =
      some (bytes.map (·.toNat), rest) := by
  induction bytes with
  | nil => rfl
  | cons b bytes ih =>
    rw [List.length_cons, List.replicate_succ, List.mapM_cons, bytesBits_cons, List.append_assoc]
    simp only [Bind.bind, StateT.bind, Option.bind, number_byte, ih]
    rfl

/-- No more bytes can be taken than there are bits for. -/
theorem mapM_number_eq_none {n : Nat} {bits : List Bool} (h : bits.length < 8 * n) :
    (List.replicate n 8).mapM number bits = none := by
  induction n generalizing bits with
  | zero => omega
  | succ n ih =>
    rw [List.replicate_succ, List.mapM_cons]
    simp only [Bind.bind, StateT.bind, Option.bind]
    rcases Nat.lt_or_ge bits.length 8 with h8 | h8
    · rw [number_eq_none h8]
    · rw [number_eq h8]
      dsimp only
      rw [ih (by rw [List.length_drop]; omega)]

/-- Reading bytes at a byte boundary. -/
theorem agree_readBytes (n : Nat) (halign : r.bits.length % 8 = 0) (hr : r.Valid) :
    Agree (fun bytes vs => bytes = vs.map (·.toUInt8)) (BitReader.readBytes n r)
      ((List.replicate n 8).mapM number r.bits) := by
  have hpad : paddingAt r.position = 0 := by
    rw [← hr.position_mod]
    rw [BitReader.length_bits, BitReader.remaining] at halign
    omega
  rcases Nat.lt_or_ge r.remaining (8 * n) with hn | hn
  · obtain ⟨r', he, -⟩ := BitReader.readBytes_error (n := n) hr (by omega)
    rw [he, mapM_number_eq_none (by rw [BitReader.length_bits]; exact hn)]
    exact .failed
  · obtain ⟨bytes, r', he, hlen, hr', hbits, -⟩ := BitReader.readBytes_ok (n := n) hr (by omega)
    rw [hpad, List.drop_zero] at hbits
    rw [he, hbits, ← hlen, mapM_number_bytesBits]
    refine .read hr' ?_
    rw [List.map_map]
    exact (List.map_id'' (fun b => UInt8.ofNat_toNat) bytes).symm

/-- Reading a stored block. -/
theorem agree_stored (out : List UInt8) (hr : r.Valid) :
    Agree (fun b out' => out' = out ++ b.bytes) (StoredBlock.read .stored r) (stored out r.bits) := by
  obtain ⟨hr₀, hbits, halign⟩ := bits_align hr
  have hread : StoredBlock.read .stored = BitReader.readWord >>= fun length =>
      BitReader.readWord >>= fun complement =>
        (if length + complement = maxStoredLength then pure length
          else throw (.storedLengthMismatch length complement)) >>= fun length =>
        BitReader.readBytes length >>= fun bytes => Parser.ofExcept (StoredBlock.ofBytes bytes) := by
    simp only [StoredBlock.read, StoredBlock.readLength, bind_assoc, if_true]
  have hstored : stored out r.bits = (number 16 >>= fun length => number 16 >>= fun complement => do
      guard (bitsOf 16 complement = (bitsOf 16 length).map (!·))
      let bytes ← (List.replicate length 8).mapM number
      return out ++ bytes.map (·.toUInt8) : Take (List UInt8)) r.align.bits := by
    rw [hbits]
    rfl
  rw [hread, hstored]
  refine (agree_readBits 16 hr₀).bind fun length _ r₁ h₁ hr₁ hlength => ?_
  obtain ⟨rfl, hlength⟩ := hlength
  have halign₁ := aligned_of_readBits h₁ halign
  rw [readWord_bind _ halign₁]
  refine (agree_readBits 16 hr₁).bind fun complement _ r₂ h₂ hr₂ hcomplement => ?_
  obtain ⟨rfl, hcomplement⟩ := hcomplement
  have halign₂ := aligned_of_readBits h₂ halign₁
  have hcheck := complement_iff hlength hcomplement
  -- One side adds the two words up, the other compares their bits.
  by_cases hsum : length + complement = maxStoredLength
  · rw [if_pos hsum, guard_of (hcheck.2 hsum), pure_bind, pure_bind]
    refine (agree_readBytes length halign₂ hr₂).bind fun bytes vs r₃ h₃ hr₃ hbytes => ?_
    obtain ⟨-, _, -, -, hlen, -⟩ := (Parser.Recognises.readBytes length).sound hr₂ h₃
    have hblock : StoredBlock.ofBytes bytes = .ok ⟨bytes, by rw [hlen, maxStoredLength]; omega⟩ :=
      dif_pos _
    rw [hblock, ← hbytes]
    exact .pure hr₃ rfl
  · rw [if_neg hsum, guard_of_not fun h => hsum (hcheck.1 h)]
    exact .failed

/-! ## Blocks -/

/-- Reading the tokens of a whole block. -/
theorem agree_block_tokens (hl : litlen.Canonical) (hd : dist.Canonical)
    (hlsize : litlen.size ≤ symbolLimit) (hdsize : dist.size ≤ symbolLimit)
    (hsees : Sees window before) (hr : r.Valid) :
    Agree (fun t out => out = before ++ t.2.2)
      (CodedBlock.readTokens (Decoder.ofTable litlen) (Decoder.ofTable dist) window #[] [] 0 r)
      (tokens litlen.lengths dist.lengths before r.bits) := by
  have htokens := agree_readTokens hl hd hlsize hdsize hsees #[] [] 0 hr
  rw [List.append_nil] at htokens
  exact htokens

/-- Reading the body of a block. -/
theorem agree_body (kind : BlockKind) (hsees : Sees window before) (hr : r.Valid) :
    Agree (fun b out => out = before ++ b.bytes) (Block.read kind window r)
      (body before kind.code r.bits) := by
  cases kind with
  | stored => exact (agree_stored before hr).then_pure fun b out hout => hout
  | fixed =>
    have hsize : CodeTable.fixedLitlen.size ≤ symbolLimit ∧ CodeTable.fixedDist.size ≤ symbolLimit := by
      rw [CodeTable.size_fixedLitlen, CodeTable.size_fixedDist]
      decide
    have htokens := agree_block_tokens CodeTable.canonical_fixedLitlen CodeTable.canonical_fixedDist
      hsize.1 hsize.2 hsees hr
    rw [fixedLitlen_eq, fixedDist_eq] at htokens
    have hblock : Agree (fun b out => out = before ++ b.bytes) (CodedBlock.read .fixed window r)
        (tokens fixedLitlen fixedDist before r.bits) := htokens.then_pure fun t out hout => hout
    exact hblock.then_pure fun b out hout => hout
  | dynamic =>
    have hblock : Agree (fun b out => out = before ++ b.bytes) (CodedBlock.read .dynamic window r)
        (body before 2 r.bits) := by
      refine (agree_header hr).bind fun coding lengths r₁ _ hr₁ hcoding => ?_
      obtain ⟨litlen, dist, h, rfl, ⟨hl, hlitlen⟩, ⟨hd, hdist⟩, hlsize, hdsize⟩ := hcoding
      rw [← hlitlen, CodeTable.length_lengths] at hlsize
      rw [← hdist, CodeTable.length_lengths] at hdsize
      have htokens := agree_block_tokens hl hd hlsize hdsize hsees hr₁
      rw [hlitlen, hdist] at htokens
      exact htokens.then_pure fun t out hout => hout
    exact hblock.then_pure fun b out hout => hout

/-- Reading a block and the bits that open it. -/
theorem agree_readBlock (window : Window) (hr : r.Valid) :
    Agree (fun b out => out.2 = b.2 ∧ out.1 = flatten window.blocks ++ b.1.bytes)
      (Stream.readBlock window r) (block (flatten window.blocks) r.bits) := by
  refine (agree_readBit hr).bind fun last _ r₁ _ hr₁ hlast => ?_
  subst hlast
  refine (agree_readBits 2 hr₁).bind fun code _ r₂ _ hr₂ hcode => ?_
  obtain ⟨rfl, hcode⟩ := hcode
  cases hkind : BlockKind.ofCode? code with
  | none =>
    obtain rfl | rfl | rfl | rfl : code = 0 ∨ code = 1 ∨ code = 2 ∨ code = 3 := by omega
    · cases hkind
    · cases hkind
    · cases hkind
    · exact .failed
  | some kind =>
    obtain rfl : kind.code = code := by
      unfold BlockKind.ofCode? at hkind
      split at hkind <;> cases hkind <;> rfl
    refine (agree_body kind (sees_nearest window) hr₂).bind fun b out r₃ _ hr₃ hout => ?_
    exact .pure hr₃ ⟨rfl, hout⟩

/-- Decoding stops at the last block, and goes on behind any other with the bytes that there are
then. -/
theorem blocks_eq (out : List UInt8) (bits : List Bool) :
    blocks out bits = match block out bits with
      | none => none
      | some ((out, true), _) => some out
      | some ((out, false), rest) => blocks out rest := by
  rw [blocks]
  split <;> simp_all

/-- Reading all blocks. -/
theorem blocks_readBlocks {done : List Block}
    (hdone : flatten window.blocks = done.reverse.flatMap (·.bytes)) (hr : r.Valid) :
    blocks (flatten window.blocks) r.bits =
      match Stream.readBlocks window done r with
      | .ok bs _ => some (bs.flatMap (·.bytes))
      | .error _ _ => none := by
  fun_induction Stream.readBlocks window done r with
  | case1 window done r e r₁ h =>
    have hblock := agree_readBlock window hr
    rw [h] at hblock
    rw [blocks_eq, hblock.eq_none]
  | case2 window done r b r₁ h =>
    have hblock := agree_readBlock window hr
    rw [h] at hblock
    obtain ⟨-, ⟨out, last⟩, hstep, rfl, rfl⟩ := hblock.eq_some
    rw [blocks_eq, hstep]
    dsimp only
    rw [hdone, List.reverse_cons, List.flatMap_append, List.flatMap_singleton]
  | case3 window done r b r₁ h ih =>
    have hblock := agree_readBlock window hr
    rw [h] at hblock
    obtain ⟨hr₁, ⟨out, last⟩, hstep, rfl, rfl⟩ := hblock.eq_some
    rw [blocks_eq, hstep]
    refine ih ?_ hr₁
    rw [List.reverse_cons, List.flatMap_append, List.flatMap_singleton, ← hdone]
    rfl

end Inflate

/-- The plain inflater decodes exactly the byte lists that are parsed, and it puts out the bytes of
the stream that they are parsed as. -/
theorem Stream.parse_inflates (name : String) (bytes : List UInt8) :
    inflate bytes = (parse name bytes).toOption.map Stream.bytes := by
  have hblocks := @Inflate.blocks_readBlocks _ Window.empty [] rfl (BitReader.valid_ofBytes bytes)
  rw [inflate, ← BitReader.bits_ofBytes]
  rw [show Window.flatten Window.empty.blocks = [] from rfl] at hblocks
  rw [hblocks, parse]
  cases readBlocks Window.empty [] (BitReader.ofBytes bytes) with
  | ok blocks r =>
    show _ = some (ofBlocks name blocks).bytes
    rw [Stream.bytes, blocks_ofBlocks]
  | error e r => rfl

end DeflateRecoder
