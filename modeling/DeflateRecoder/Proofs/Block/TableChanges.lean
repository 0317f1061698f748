import DeflateRecoder.Block.Coded.Tables
import DeflateRecoder.Proofs.Block.TokenChanges

/-!
# Blocks with new tables

Tokens that make up a block (`CodedBlock.Body`) make a well-formed one under optimal tables
(`CodedBlock.wellFormed_encode`) and under the fixed ones (`CodedBlock.toFixed_refines`), because
each of these tables has words for whatever symbols occur. Together with the changes of tokens and
of headers this says that every operation of the search refines the block it starts from. A block
transmits nothing of its tables but their code lengths, and these are enough (`CodeTable.Rebuilt`).
-/

namespace DeflateRecoder

namespace CodedBlock

/-! ## Changes of the header -/

/-- Tables stay well-formed under another header that transmits them. -/
theorem coding_of_header {litlen dist : CodeTable} {h k : TableHeader}
    (hk : h.Transmits litlen dist → litlen.Canonical → dist.Canonical → k.Transmits litlen dist)
    (hc : (Coding.dynamic litlen dist h).WellFormed) : (Coding.dynamic litlen dist k).WellFormed := by
  obtain ⟨hw, hl, hd, hls, hds, hu⟩ := hc
  have ht := hk ⟨hw, hls, hds, hu⟩ hl hd
  exact ⟨ht.wellFormed, hl, hd, ht.litlen_size, ht.dist_size, ht.unpack_eq⟩

/-- A header that stands for the tables in the place of another one refines a block. -/
theorem refines_of_header {litlen dist : CodeTable} {h k : TableHeader} {tokens : List Token}
    {bits : Nat} {bytes : List UInt8} (hk : h.Transmits litlen dist → litlen.Canonical →
      dist.Canonical → k.Transmits litlen dist) :
    Refines ⟨.dynamic litlen dist h, tokens, bits, bytes⟩
      ⟨.dynamic litlen dist k, tokens, bits, bytes⟩ where
  bytes_eq := rfl
  writable := fun hb => { hb with coding := coding_of_header hk hb.coding }
  wellFormed := fun _ hb => { hb with coding := coding_of_header hk hb.coding }

/-- A block with a new header that transmits the same tables refines the old one. -/
theorem mapHeader_refines {f : CodeTable → CodeTable → TableHeader → Except Error TableHeader}
    (hf : ∀ {litlen dist h k}, f litlen dist h = .ok k → h.Transmits litlen dist →
      litlen.Canonical → dist.Canonical → k.Transmits litlen dist)
    {b c : CodedBlock} (e : b.mapHeader f = .ok c) : b.Refines c := by
  obtain ⟨coding, tokens, bits⟩ := b
  cases coding with
  | fixed =>
    cases e
    exact .refl _
  | dynamic litlen dist header =>
    obtain ⟨k, hk, e⟩ := bind_eq_ok.1 e
    cases e
    exact refines_of_header (hf hk)

/-- Packing a header by any rules refines the block. -/
theorem packHeader_refines {rules : PackingRules} {b c : CodedBlock}
    (e : b.packHeader rules = .ok c) : b.Refines c := by
  refine mapHeader_refines (fun hk ht hl hd => ?_) e
  have hw := ht.wellFormed
  have h₁ := hw.litlenCount_ge
  have h₂ := hw.litlenCount_le
  have h₃ := hw.distCount_ge
  have h₄ := hw.distCount_le
  rw [← ht.litlen_size] at h₁ h₂
  rw [← ht.dist_size] at h₃ h₄
  exact TableHeader.transmits_of_pack hk
    (List.forall_mem_append.2 ⟨hl.le_of_mem, hd.le_of_mem⟩) ⟨h₁, h₂⟩ ⟨h₃, h₄⟩

/-- A header with an optimal code refines the block. -/
theorem recodeHeader_refines {b c : CodedBlock} (e : b.recodeHeader = .ok c) : b.Refines c :=
  mapHeader_refines (fun hk ht _ _ => ht.of_refines (TableHeader.recode_refines hk)) e

/-- A header without the runs that save nothing refines the block. -/
theorem pruneHeader_refines {b c : CodedBlock} (e : b.pruneHeader = .ok c) : b.Refines c :=
  mapHeader_refines (fun hk ht _ _ => ht.of_refines
    ((TableHeader.expandRuns_refines true _).trans (TableHeader.recode_refines hk))) e

/-- Making the header smaller without a new code refines the block. -/
theorem tidyHeader_refines (b : CodedBlock) : b.Refines b.tidyHeader.1 := by
  obtain ⟨coding, tokens, bits⟩ := b
  cases coding with
  | fixed => exact .refl _
  | dynamic litlen dist header =>
    exact refines_of_header fun ht _ _ => ht.of_refines
      ((TableHeader.trim_refines header).trans (TableHeader.expandRuns_refines false _))

/-- Making tokens and header smaller without new tables refines the block. -/
theorem tidy_refines (b : CodedBlock) : b.Refines b.tidy.1 := by
  unfold tidy
  split
  · exact .refl b
  · exact (expandMatches_refines false b).trans (tidyHeader_refines _)

/-- A header is changed without an error if the change of the header is. -/
theorem mapHeader_total {f : CodeTable → CodeTable → TableHeader → Except Error TableHeader}
    (hf : ∀ litlen dist h, ∃ k, f litlen dist h = .ok k) (b : CodedBlock) :
    ∃ c, b.mapHeader f = .ok c := by
  unfold mapHeader
  split
  · exact ⟨b, rfl⟩
  · next litlen dist header _ =>
    obtain ⟨k, e⟩ := hf litlen dist header
    rw [e]
    exact ⟨_, rfl⟩

/-! ## Counts of symbols -/

/-- Only zeros are left out, and all of those at the end. -/
theorem exists_eq_dropFinalZeros_append (counts : List Nat) :
    ∃ zeros, counts = dropFinalZeros counts ++ zeros ∧ ∀ n ∈ zeros, n = 0 := by
  have hsplit := congrArg List.reverse (List.takeWhile_append_dropWhile (p := (· == 0))
    (l := counts.reverse))
  rw [List.reverse_append, List.reverse_reverse, ← dropFinalZeros] at hsplit
  refine ⟨_, hsplit.symm, fun n hn => ?_⟩
  exact beq_iff_eq.1 (List.all_eq_true.1 List.all_takeWhile n (List.mem_reverse.1 hn))

/-- Leaving out the zeros at the end keeps the counts of all symbols that occur. -/
theorem dropFinalZeros_spec (counts : List Nat) :
    (dropFinalZeros counts).length ≤ counts.length ∧
      (∀ s n : Nat, counts[s]? = some n → 0 < n → (dropFinalZeros counts)[s]? = some n) ∧
      ∀ init n, dropFinalZeros counts = init ++ [n] → 0 < n := by
  obtain ⟨zeros, hsplit, hzeros⟩ := exists_eq_dropFinalZeros_append counts
  refine ⟨?_, ?_, ?_⟩
  · have hlen := congrArg List.length hsplit
    rw [List.length_append] at hlen
    omega
  · intro s n hs hn
    rw [hsplit] at hs
    rcases Nat.lt_or_ge s (dropFinalZeros counts).length with hlt | hge
    · rwa [List.getElem?_append_left hlt] at hs
    · rw [List.getElem?_append_right hge] at hs
      have hz := hzeros n (List.mem_of_getElem? hs)
      omega
  · intro init n h
    have hhead : (counts.reverse.dropWhile (· == 0)) = n :: init.reverse := by
      rw [← List.reverse_reverse (List.dropWhile _ _), ← dropFinalZeros, h, List.reverse_append]
      rfl
    have hne := List.head_dropWhile_not (· == 0) (l := counts.reverse) (by rw [hhead]; simp)
    simp only [hhead, List.head_cons, beq_eq_false_iff_ne] at hne
    exact Nat.pos_of_ne_zero hne

/-- What is left when the zeros at the end are left out was there before. -/
theorem mem_of_mem_dropFinalZeros {counts : List Nat} {n : Nat} (h : n ∈ dropFinalZeros counts) :
    n ∈ counts := by
  obtain ⟨zeros, hsplit, -⟩ := exists_eq_dropFinalZeros_append counts
  rw [hsplit]
  exact List.mem_append_left _ h

/-- A token that the format has has one of the 286 literal/length symbols. -/
theorem Token.symbol_lt {t : Token} (h : t.Legal) : t.symbol < 286 := by
  cases t with
  | literal byte => exact Nat.lt_of_lt_of_le byte.toNat_lt (by decide)
  | endOfBlock => decide
  | copy length distance bytes => exact (lengthSymbol_bounds h.1 h.2.1).2

/-- A match that the format has has one of the 30 distance symbols. -/
theorem Token.distanceSymbol_lt_of_isCopy {t : Token} (h : t.Legal) (hc : t.isCopy = true) :
    distanceSymbol t.distance < 30 := by
  cases t with
  | literal byte => cases hc
  | endOfBlock => cases hc
  | copy length distance bytes => exact distanceSymbol_lt h.2.2.1 h.2.2.2

/-- There are no more counts than literal/length symbols. -/
theorem length_litlenCounts_le (tokens : List Token) : (litlenCounts tokens).length ≤ 286 :=
  Nat.le_trans (dropFinalZeros_spec _).1 (Nat.le_of_eq (length_tally _ _))

/-- There are no more counts than distance symbols. -/
theorem length_distCounts_le (tokens : List Token) : (distCounts tokens).length ≤ 30 :=
  Nat.le_trans (dropFinalZeros_spec _).1 (Nat.le_of_eq (length_tally _ _))

/-- No literal/length symbol is counted more often than there are tokens. -/
theorem le_length_of_mem_litlenCounts {tokens : List Token} {n : Nat}
    (h : n ∈ litlenCounts tokens) : n ≤ tokens.length :=
  Nat.le_trans (le_length_of_mem_tally (mem_of_mem_dropFinalZeros h))
    (Nat.le_of_eq (List.length_map _))

/-- No distance symbol is counted more often than there are tokens. -/
theorem le_length_of_mem_distCounts {tokens : List Token} {n : Nat} (h : n ∈ distCounts tokens) :
    n ≤ tokens.length :=
  Nat.le_trans (le_length_of_mem_tally (mem_of_mem_dropFinalZeros h))
    (List.length_filterMap_le _ _)

/-- The symbol of a token is counted. -/
theorem litlenCounts_pos {tokens : List Token} {t : Token} (ht : t ∈ tokens) (h : t.Legal) :
    ∃ n, (litlenCounts tokens)[t.symbol]? = some n ∧ 0 < n := by
  have hmem : t.symbol ∈ tokens.map (·.symbol) := List.mem_map_of_mem ht
  obtain ⟨n, hn, hpos⟩ := tally_pos (Token.symbol_lt h) hmem
  exact ⟨n, (dropFinalZeros_spec _).2.1 _ n hn hpos, hpos⟩

/-- The distance symbol of a match is counted. -/
theorem distCounts_pos {tokens : List Token} {t : Token} (ht : t ∈ tokens) (h : t.Legal)
    (hcopy : t.isCopy = true) :
    ∃ n, (distCounts tokens)[distanceSymbol t.distance]? = some n ∧ 0 < n := by
  have hmem : distanceSymbol t.distance ∈ tokens.filterMap fun token =>
      if token.isCopy then some (distanceSymbol token.distance) else none :=
    List.mem_filterMap.2 ⟨t, ht, if_pos hcopy⟩
  obtain ⟨n, hn, hpos⟩ := tally_pos (Token.distanceSymbol_lt_of_isCopy h hcopy) hmem
  exact ⟨n, (dropFinalZeros_spec _).2.1 _ n hn hpos, hpos⟩

/-! ## Tables for distances -/

/-- Behind symbols without a length, a word of one bit is the first of them. -/
theorem assign_lone (n : Nat) (next : Array Nat) :
    CodeTable.assign (List.replicate n 0 ++ [1]) next =
      List.replicate n CodeWord.absent ++ [⟨1, next.getD 1 0 % 65536⟩] := by
  induction n with
  | zero => rfl
  | succ n ih =>
    rw [List.replicate_succ, List.cons_append, CodeTable.assign, if_pos rfl, ih]
    rfl

/-- The table for one distance is the canonical one in which only the last symbol has a length. -/
theorem loneTable_eq (n : Nat) :
    loneTable (n + 1) = CodeTable.ofLengths (List.replicate n 0 ++ [1]) := by
  have hmost : 1 ≤ (List.replicate n 0 ++ [1]).foldl max 0 :=
    CodeTable.le_foldl_max 0 (.inl (List.mem_append_right _ (List.mem_singleton.2 rfl)))
  rw [CodeTable.ofLengths, assign_lone, CodeTable.getD_firstCodes _ hmost, loneTable,
    Nat.add_sub_cancel, ← List.append_toArray, List.toArray_replicate]
  rfl

/-- A single word of one bit makes a canonical table. -/
theorem loneTable_spec (n : Nat) : (loneTable (n + 1)).Canonical ∧
    (loneTable (n + 1)).size = n + 1 ∧ 0 < (loneTable (n + 1)).lengthOf n := by
  have hshare : total CodeTable.kraftShare (List.replicate n 0) = 0 :=
    (total_replicate _ n 0).trans (Nat.mul_zero n)
  rw [loneTable_eq]
  refine ⟨CodeTable.canonical_ofLengths ?_ ?_, ?_, ?_⟩
  · intro m hm
    rcases List.mem_append.1 hm with hm | hm
    · rw [List.eq_of_mem_replicate hm]
      decide
    · rw [List.mem_singleton.1 hm]
      decide
  · rw [total_append, hshare]
    decide
  · rw [← CodeTable.length_lengths, CodeTable.lengths_ofLengths, List.length_append,
      List.length_replicate, List.length_singleton]
  · rw [CodeTable.lengthOf_eq, CodeTable.lengths_ofLengths,
      List.getElem?_append_right (Nat.le_of_eq List.length_replicate), List.length_replicate,
      Nat.sub_self]
    exact Nat.one_pos

/-- The table for counts of distance symbols can be transmitted, and has words for all that
occur. -/
theorem distTable_spec {counts : List Nat} {t : CodeTable} (e : distTable counts = .ok t)
    (hlen : counts.length ≤ 30) (hlast : ∀ init n, counts = init ++ [n] → 0 < n) :
    t.Canonical ∧ (1 ≤ t.size ∧ t.size ≤ 32) ∧
      ∀ s n : Nat, counts[s]? = some n → 0 < n → 0 < t.lengthOf s := by
  unfold distTable at e
  split at e
  · next hnone =>
    cases e
    refine ⟨⟨by decide +kernel, by decide +kernel⟩, by decide, fun s n hs hn => ?_⟩
    rw [List.countP_eq_zero] at hnone
    exact absurd (decide_eq_true hn) (hnone n (List.mem_of_getElem? hs))
  · next hone =>
    cases e
    -- The only symbol that occurs is the last one, since there are no zeros behind it.
    obtain ⟨init, n, hcounts⟩ := (List.eq_nil_or_concat counts).resolve_left (by
      rintro rfl
      cases hone)
    rw [List.concat_eq_append] at hcounts
    subst hcounts
    rw [List.countP_append, List.countP_singleton, if_pos (decide_eq_true (hlast _ _ rfl))] at hone
    have hzeros : ∀ m ∈ init, ¬ 0 < m := by
      intro m hm hpos
      have := List.countP_pos_iff (p := fun n => decide (0 < n)).2 ⟨m, hm, decide_eq_true hpos⟩
      omega
    have hlength : (init ++ [n]).length = init.length + 1 := List.length_append
    obtain ⟨hcanonical, hsize, hcode⟩ := loneTable_spec init.length
    rw [hlength]
    refine ⟨hcanonical, by omega, fun s m hs hm => ?_⟩
    rcases Nat.lt_trichotomy s init.length with hlt | rfl | hgt
    · rw [List.getElem?_append_left hlt] at hs
      exact absurd hm (hzeros m (List.mem_of_getElem? hs))
    · exact hcode
    · rw [List.getElem?_eq_none (by omega)] at hs
      cases hs
  · next h₀ h₁ =>
    obtain ⟨hcanonical, hsize, -, hcodes⟩ := CodeTable.ofWeights_spec (Nat.le_refl _) e
    refine ⟨hcanonical, ?_, hcodes⟩
    have hne : counts.length ≠ 0 := by
      intro hzero
      rw [List.length_eq_zero_iff.1 hzero] at h₀
      exact h₀ rfl
    omega

/-- There is a table for the counts of distances, however many of them occur. -/
theorem distTable_total {counts : List Nat} (h : counts.length ≤ 30) :
    ∃ t, distTable counts = .ok t := by
  unfold distTable
  split
  · exact ⟨_, rfl⟩
  · exact ⟨_, rfl⟩
  · next h₀ h₁ =>
    have htwo : 2 ≤ counts.countP (0 < ·) :=
      Nat.lt_of_le_of_ne (Nat.pos_of_ne_zero h₀) (Ne.symm h₁)
    exact CodeTable.ofWeights_total (Nat.le_trans htwo List.countP_le_length)
      (Nat.le_trans h (by decide))

/-! ## New tables -/

/-- Tokens that make up a block behind a window. -/
structure Body (window : Window) (tokens : List Token) : Prop where
  closed : Closed tokens
  legal : ∀ t ∈ tokens, t.Legal
  follows : Follows window [] tokens

/-- The tokens of a well-formed block make up a block. -/
theorem WellFormed.body {w : Window} {b : CodedBlock} (h : b.WellFormed w) : Body w b.tokens :=
  ⟨h.closed, h.legal, h.follows⟩

/-- Nothing but the tables decides whether tokens that make up a block make a well-formed one. -/
theorem Body.wellFormed {w : Window} {b : CodedBlock} (h : Body w b.tokens) (hw : b.Writable)
    (hbytes : b.bytes = tokenBytes b.tokens) : b.WellFormed w :=
  ⟨hw.coding, h.closed, h.legal, hw.coded, h.follows, hw.tokenBits_eq, hbytes⟩

/-- What went before when tokens are put under optimal tables: the two tables and the header that
transmits them. -/
theorem encode_eq_ok {tokens : List Token} {bytes : List UInt8} {b : CodedBlock}
    (e : encode tokens bytes = .ok b) :
    ∃ litlen dist header, distTable (distCounts tokens) = .ok dist ∧
      CodeTable.ofWeights (litlenCounts tokens) maxCodeLength = .ok litlen ∧
      TableHeader.pack litlen dist {} = .ok header ∧
      b = ofCoding (.dynamic litlen dist header) tokens bytes := by
  obtain ⟨dist, hdist, e⟩ := bind_eq_ok.1 e
  obtain ⟨litlen, hlitlen, e⟩ := bind_eq_ok.1 e
  obtain ⟨header, hheader, e⟩ := bind_eq_ok.1 e
  cases e
  exact ⟨litlen, dist, header, hdist, hlitlen, hheader, rfl⟩

/-- Tokens with an end among them can be written under optimal tables. -/
theorem writable_encode {tokens : List Token} {bytes : List UInt8} {b : CodedBlock}
    (e : encode tokens bytes = .ok b) (hend : Token.endOfBlock ∈ tokens)
    (hlegal : ∀ t ∈ tokens, t.Legal) : b.Writable := by
  obtain ⟨litlen, dist, header, hdist, hlitlen, hheader, rfl⟩ := encode_eq_ok e
  obtain ⟨hlc, hlsize, -, hlpos⟩ := CodeTable.ofWeights_spec (Nat.le_refl _) hlitlen
  obtain ⟨hdc, hdsize, hdpos⟩ := distTable_spec hdist (length_distCounts_le tokens)
    (dropFinalZeros_spec _).2.2
  have hsymbol : ∀ t ∈ tokens, 0 < litlen.lengthOf t.symbol := by
    intro t ht
    obtain ⟨n, hn, hpos⟩ := litlenCounts_pos ht (hlegal t ht)
    exact hlpos _ n hn hpos
  have hdistance : ∀ t ∈ tokens, t.isCopy = true →
      0 < dist.lengthOf (distanceSymbol t.distance) := by
    intro t ht hcopy
    obtain ⟨n, hn, hpos⟩ := distCounts_pos ht (hlegal t ht) hcopy
    exact hdpos _ n hn hpos
  -- The end of the block occurs, so that there are enough literal/length symbols for a header.
  have hleast : endSymbol < litlen.size := CodeTable.lt_size_of_pos (hsymbol _ hend)
  have hmost : litlen.size ≤ 288 := by
    rw [hlsize]
    exact Nat.le_trans (length_litlenCounts_le tokens) (by decide)
  have ht := TableHeader.transmits_of_pack hheader
    (List.forall_mem_append.2 ⟨hlc.le_of_mem, hdc.le_of_mem⟩) ⟨hleast, hmost⟩ hdsize
  exact ⟨⟨ht.wellFormed, hlc, hdc, ht.litlen_size, ht.dist_size, ht.unpack_eq⟩, hend, hlegal,
    fun t h => ⟨hsymbol t h, hdistance t h⟩, rfl⟩

/-- Tokens that make up a block make a well-formed one under optimal tables. -/
theorem wellFormed_encode {w : Window} {tokens : List Token} {bytes : List UInt8} {b : CodedBlock}
    (e : encode tokens bytes = .ok b) (hb : Body w tokens) (hbytes : bytes = tokenBytes tokens) :
    b.WellFormed w := by
  have hw := writable_encode e hb.closed.mem hb.legal
  obtain ⟨litlen, dist, header, -, -, -, rfl⟩ := encode_eq_ok e
  exact Body.wellFormed hb hw hbytes

/-- Tokens with an end among them have optimal tables. -/
theorem encode_total {tokens : List Token} (hend : Token.endOfBlock ∈ tokens)
    (bytes : List UInt8) : ∃ b, encode tokens bytes = .ok b := by
  obtain ⟨dist, hdist⟩ := distTable_total (length_distCounts_le tokens)
  obtain ⟨n, hn, -⟩ := litlenCounts_pos hend trivial
  have hlen : endSymbol < (litlenCounts tokens).length := (List.getElem?_eq_some_iff.1 hn).1
  obtain ⟨litlen, hlitlen⟩ :
      ∃ t, CodeTable.ofWeights (litlenCounts tokens) maxCodeLength = .ok t :=
    CodeTable.ofWeights_total (Nat.le_trans (by decide) hlen)
      (Nat.le_trans (length_litlenCounts_le tokens) (by decide))
  obtain ⟨header, hheader⟩ := TableHeader.ofSymbols_total litlen.size dist.size
    (pack {} (litlen.lengths ++ dist.lengths))
  exact ⟨_, bind_eq_ok.2 ⟨dist, hdist, bind_eq_ok.2 ⟨litlen, hlitlen,
    bind_eq_ok.2 ⟨header, hheader, rfl⟩⟩⟩⟩

/-- New tables keep the bytes. -/
theorem bytes_encode {tokens : List Token} {bytes : List UInt8} {b : CodedBlock}
    (e : encode tokens bytes = .ok b) : b.bytes = bytes := by
  obtain ⟨_, _, _, -, -, -, rfl⟩ := encode_eq_ok e
  rfl

/-- Optimal tables refine a block. -/
theorem recode_refines {b c : CodedBlock} (e : b.recode = .ok c) : b.Refines c :=
  ⟨bytes_encode e, fun h => writable_encode e h.ends h.legal,
    fun _ h => wellFormed_encode e h.body h.bytes_eq⟩

/-- Fewer matches and optimal tables refine a block. -/
theorem recodePruned_refines {b c : CodedBlock} (e : b.recodePruned = .ok c) : b.Refines c :=
  (expandMatches_refines true b).trans (recode_refines e)

/-- In a table without zeros every symbol has a word. -/
theorem lengthOf_pos {t : CodeTable} {s : Nat} (h : ∀ n ∈ t.lengths, 0 < n) (hs : s < t.size) :
    0 < t.lengthOf s := by
  have hlt : s < t.lengths.length := by rwa [CodeTable.length_lengths]
  rw [CodeTable.lengthOf_eq, List.getElem?_eq_getElem hlt]
  exact h _ (List.getElem_mem hlt)

/-- The fixed tables have words for all tokens that the format has. -/
theorem coded_fixed {t : Token} (h : t.Legal) :
    t.Coded CodeTable.fixedLitlen CodeTable.fixedDist := by
  refine ⟨lengthOf_pos ?_ ?_, fun hc => lengthOf_pos ?_ ?_⟩
  · rw [CodeTable.lengths_fixedLitlen]
    decide +kernel
  · rw [CodeTable.size_fixedLitlen]
    exact Nat.lt_of_lt_of_le (Token.symbol_lt h) (by decide)
  · rw [CodeTable.lengths_fixedDist]
    decide
  · rw [CodeTable.size_fixedDist]
    exact Nat.lt_of_lt_of_le (Token.distanceSymbol_lt_of_isCopy h hc) (by decide)

/-- Tokens with an end among them can be written under the fixed tables. -/
theorem writable_fixed {tokens : List Token} (hend : Token.endOfBlock ∈ tokens)
    (hlegal : ∀ t ∈ tokens, t.Legal) (bytes : List UInt8) :
    (ofCoding .fixed tokens bytes).Writable :=
  ⟨trivial, hend, hlegal, fun t ht => coded_fixed (hlegal t ht), rfl⟩

/-- The fixed tables have words for all tokens. -/
theorem toFixed_refines (b : CodedBlock) : b.Refines b.toFixed := by
  have hw : b.Writable → b.toFixed.Writable := fun h => writable_fixed h.ends h.legal b.bytes
  exact ⟨rfl, hw, fun _ h => Body.wellFormed h.body (hw h.writable) h.bytes_eq⟩

/-! ## Blocks from tokens, and two blocks as one -/

/-- Closed tokens are put under optimal tables with the bytes that they stand for. -/
theorem ofTokens_closed {tokens : List Token} (h : Closed tokens) :
    ofTokens tokens = encode tokens (tokenBytes tokens) := by
  obtain ⟨body, rfl, -⟩ := h
  rw [ofTokens, List.getLast?_concat]

/-- A block can be made of closed tokens. -/
theorem ofTokens_total {tokens : List Token} (h : Closed tokens) :
    ∃ b, ofTokens tokens = .ok b := by
  rw [ofTokens_closed h]
  exact encode_total h.mem _

/-- A block made of tokens has these tokens, and tables of its own. -/
theorem tokens_ofTokens {tokens : List Token} {b : CodedBlock} (e : ofTokens tokens = .ok b) :
    b.tokens = tokens ∧ b.kind = .dynamic := by
  unfold ofTokens at e
  split at e
  · obtain ⟨_, _, _, -, -, -, rfl⟩ := encode_eq_ok e
    exact ⟨rfl, rfl⟩
  · cases e

/-- Tokens that make up a block make a well-formed one of their bytes. -/
theorem wellFormed_ofTokens {w : Window} {tokens : List Token} {b : CodedBlock}
    (e : ofTokens tokens = .ok b) (hb : Body w tokens) :
    b.WellFormed w ∧ b.bytes = tokenBytes tokens := by
  rw [ofTokens_closed hb.closed] at e
  exact ⟨wellFormed_encode e hb rfl, bytes_encode e⟩

/-- Bytes as literals make up a block behind any window. -/
theorem body_literals (w : Window) (bytes : List UInt8) :
    Body w (bytes.map .literal ++ [.endOfBlock]) where
  closed := ⟨_, rfl, fun h => by
    obtain ⟨byte, -, hbyte⟩ := List.mem_map.1 h
    cases hbyte⟩
  legal := fun t ht => by
    rcases List.mem_append.1 ht with ht | ht
    · obtain ⟨byte, -, rfl⟩ := List.mem_map.1 ht
      trivial
    · rw [List.mem_singleton.1 ht]
      trivial
  follows := follows_append.2 ⟨follows_map_literal w [] bytes, trivial, trivial⟩

/-- A match alone makes up a block behind a window that it finds its bytes in. -/
theorem body_copy {w : Window} {length distance : Nat} {bytes : List UInt8}
    (hlegal : (Token.copy length distance bytes).Legal)
    (hfound : resolve #[] w distance length = .ok bytes) :
    Body w [.copy length distance bytes, .endOfBlock] where
  closed := ⟨[.copy length distance bytes], rfl, by simp⟩
  legal := List.forall_mem_cons.2 ⟨hlegal, List.forall_mem_singleton.2 trivial⟩
  follows := ⟨hfound, trivial, trivial⟩

/-- What a block adds to the window could as well have been decoded in the block itself. -/
theorem follows_pushNewer {w : Window} {block : Array UInt8} {current : List UInt8}
    {tokens : List Token} :
    Follows (w.pushNewer block) current tokens ↔ Follows w (block.toList ++ current) tokens := by
  induction tokens generalizing current with
  | nil => exact Iff.rfl
  | cons t tokens ih =>
    have hfirst : t.Resolves (w.pushNewer block) current.toArray ↔
        t.Resolves w (block.toList ++ current).toArray := by
      cases t with
      | literal byte => exact Iff.rfl
      | endOfBlock => exact Iff.rfl
      | copy length distance bytes =>
        rw [← List.append_toArray]
        exact Window.resolve_pushNewer
    rw [Follows, Follows, ih, hfirst, List.append_assoc]

/-- Two blocks as one: the tokens of the first without its end, then those of the second. The filter
is given by what it keeps, since each use of its pattern makes a function of its own. -/
theorem append_eq (a b : CodedBlock) : ∃ p : Token → Bool, (∀ t, p t = true ↔ t ≠ .endOfBlock) ∧
    a.append b = encode (a.tokens.filter p ++ b.tokens) (a.bytes ++ b.bytes) :=
  ⟨_, fun t => by cases t <;> simp, rfl⟩

/-- Of closed tokens the end goes and the others stay. -/
theorem filter_closed {p : Token → Bool} (hp : ∀ t, p t = true ↔ t ≠ .endOfBlock)
    {body : List Token} (h : Token.endOfBlock ∉ body) :
    (body ++ [Token.endOfBlock]).filter p = body := by
  rw [List.filter_append, List.filter_cons_of_neg (fun h => (hp _).1 h rfl), List.filter_nil,
    List.append_nil, List.filter_eq_self]
  intro t ht
  refine (hp t).2 ?_
  rintro rfl
  exact h ht

/-- Two blocks as one have the bytes of both. -/
theorem bytes_append {a b c : CodedBlock} (e : a.append b = .ok c) :
    c.bytes = a.bytes ++ b.bytes := by
  obtain ⟨p, -, happend⟩ := append_eq a b
  rw [happend] at e
  exact bytes_encode e

/-- Two blocks, the second of which is well-formed behind the first one, are well-formed as one. -/
theorem wellFormed_append {w : Window} {a b c : CodedBlock} (e : a.append b = .ok c)
    (ha : a.WellFormed w) (hb : b.WellFormed (w.pushNewer a.bytes.toArray)) : c.WellFormed w := by
  obtain ⟨front, hfront, hclosed⟩ := ha.closed
  obtain ⟨back, hback, hlast⟩ := hb.closed
  have hbytes : a.bytes = tokenBytes front := by
    rw [ha.bytes_eq, hfront, tokenBytes_append, tokenBytes_end, List.append_nil]
  obtain ⟨p, hp, happend⟩ := append_eq a b
  rw [happend, hfront, filter_closed hp hclosed] at e
  refine wellFormed_encode e ⟨?_, ?_, ?_⟩ (by rw [tokenBytes_append, hbytes, hb.bytes_eq])
  · rw [hback, ← List.append_assoc]
    refine ⟨front ++ back, rfl, ?_⟩
    rw [List.mem_append, not_or]
    exact ⟨hclosed, hlast⟩
  · intro t ht
    rcases List.mem_append.1 ht with ht | ht
    · exact ha.legal t (by rw [hfront]; exact List.mem_append_left _ ht)
    · exact hb.legal t ht
  · have hf := ha.follows
    have hg := hb.follows
    rw [hfront, follows_append] at hf
    rw [follows_pushNewer, hbytes, List.append_nil] at hg
    exact follows_append.2 ⟨hf.1, hg⟩

end CodedBlock

/-! ## Tables from their code lengths -/

namespace CodeTable

/-- A block transmits no more of a table than its code lengths, and a reader makes the same table
of them, with the same decoder. -/
structure Rebuilt (t : CodeTable) : Prop where
  words_eq : ofLengths t.lengths = t
  codec_eq : (ofLengths? t.lengths).map (fun u => (u, Decoder.ofTable u)) =
    .ok (t, Decoder.ofTable t)

/-- A canonical table is the one that its own lengths make. -/
theorem Canonical.rebuilt {t : CodeTable} (h : t.Canonical) : t.Rebuilt :=
  ⟨h.words_eq, by rw [h.ofLengths?_eq]; rfl⟩

/-- Tables of trees and tables for distances give words in ways of their own, and these are the
words that a reader gives. -/
theorem rebuilt_of_weights_or_tokens :
    (∀ {weights limit t}, limit ≤ maxCodeLength → ofWeights weights limit = .ok t → t.Rebuilt) ∧
    ∀ tokens, ∃ t, CodedBlock.distTable (CodedBlock.distCounts tokens) = .ok t ∧ t.Rebuilt := by
  refine ⟨fun hlimit h => (ofWeights_spec hlimit h).1.rebuilt, fun tokens => ?_⟩
  have hlen := CodedBlock.length_distCounts_le tokens
  obtain ⟨t, ht⟩ := CodedBlock.distTable_total hlen
  have ⟨hcanonical, _⟩ := CodedBlock.distTable_spec ht hlen (CodedBlock.dropFinalZeros_spec _).2.2
  exact ⟨t, ht, hcanonical.rebuilt⟩

/-- The tree for these weights is four deep before a leaf of it is moved. -/
theorem rebuilt_of_skewed_weights : ∃ t, ofWeights [1, 1, 2, 4, 8, 0] 3 = .ok t ∧ t.Rebuilt := by
  obtain ⟨leaves, h⟩ : ∃ leaves, CodeTree.ofWeights [1, 1, 2, 4, 8, 0] 3 = .ok leaves :=
    CodeTree.ofWeights_total (by decide) (by decide +kernel)
  have ht : ofWeights [1, 1, 2, 4, 8, 0] 3 = .ok (CodeTree.table 6 leaves) := by
    rw [ofWeights, h]
    rfl
  exact ⟨_, ht, rebuilt_of_weights_or_tokens.1 (by decide) ht⟩

end CodeTable

end DeflateRecoder
