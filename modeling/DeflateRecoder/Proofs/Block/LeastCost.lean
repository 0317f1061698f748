import DeflateRecoder.Proofs.Block.TableChanges
import DeflateRecoder.Proofs.Code.LeastCost

/-!
# Tables of least cost

The size of tokens is that of their literal/length symbols, of their distance symbols and of extra
bits that no table changes (`tokensCost_eq`). A symbol is weighted by how often it occurs, so that a
code of least cost for the weights is one for the tokens: `least_cost` says that no two prefix codes
make the tokens smaller than `CodedBlock.recode` does when no tree has to be limited.
-/

namespace DeflateRecoder

/-! ## The symbols of tokens -/

/-- The bits of a token that tell lengths and distances of the same symbols apart. -/
def Token.extraBits : Token → Nat
  | copy length distance _ =>
    lengthExtraBits (lengthSymbol length) + distanceExtraBits (distanceSymbol distance)
  | _ => 0

/-- The literal/length symbols of tokens. -/
def litlenSymbols (tokens : List Token) : List Nat := tokens.map (·.symbol)

/-- The distance symbols of tokens. -/
def distSymbols (tokens : List Token) : List Nat :=
  tokens.filterMap fun token =>
    if token.isCopy then some (distanceSymbol token.distance) else none

/-- Tables count only by the lengths of the words that the tokens' symbols have. -/
theorem tokensCost_eq (litlen dist : CodeTable) (tokens : List Token) :
    tokensCost litlen dist tokens = total litlen.lengthOf (litlenSymbols tokens) +
      total dist.lengthOf (distSymbols tokens) + total Token.extraBits tokens := by
  induction tokens with
  | nil => rfl
  | cons t tokens ih =>
    have hlitlen : litlenSymbols (t :: tokens) = t.symbol :: litlenSymbols tokens := rfl
    rw [tokensCost, total_cons, ← tokensCost, ih, hlitlen, total_cons, total_cons]
    cases t with
    | literal byte =>
      have hdist : distSymbols (.literal byte :: tokens) = distSymbols tokens := rfl
      rw [hdist]
      dsimp only [Token.cost, Token.extraBits]
      omega
    | endOfBlock =>
      have hdist : distSymbols (.endOfBlock :: tokens) = distSymbols tokens := rfl
      rw [hdist]
      dsimp only [Token.cost, Token.extraBits]
      omega
    | copy length distance bytes =>
      have hdist : distSymbols (.copy length distance bytes :: tokens) =
          distanceSymbol distance :: distSymbols tokens := rfl
      rw [hdist, total_cons]
      dsimp only [Token.cost, Token.extraBits, Token.symbol]
      omega

/-- Tokens that the format has have one of the 286 literal/length symbols. -/
theorem litlenSymbols_lt {tokens : List Token} (h : ∀ t ∈ tokens, t.Legal) :
    ∀ s ∈ litlenSymbols tokens, s < 286 := by
  intro s hs
  obtain ⟨t, ht, rfl⟩ := List.mem_map.1 hs
  exact CodedBlock.Token.symbol_lt (h t ht)

/-- A distance symbol is that of a match among the tokens. -/
theorem mem_distSymbols {tokens : List Token} {s : Nat} : s ∈ distSymbols tokens ↔
    ∃ t ∈ tokens, t.isCopy = true ∧ distanceSymbol t.distance = s := by
  simp only [distSymbols, List.mem_filterMap, Option.ite_none_right_eq_some, Option.some.injEq]

/-- Matches that the format has have one of the 30 distance symbols. -/
theorem distSymbols_lt {tokens : List Token} (h : ∀ t ∈ tokens, t.Legal) :
    ∀ s ∈ distSymbols tokens, s < 30 := by
  intro s hs
  obtain ⟨t, ht, hcopy, rfl⟩ := mem_distSymbols.1 hs
  exact CodedBlock.Token.distanceSymbol_lt_of_isCopy (h t ht) hcopy

/-! ## Counts as weights -/

section

variable {size : Nat} {symbols : List Nat}

/-- Under counts, the weighted length is the sum of the lengths of all symbols counted. Zeros that
are left out at the end weigh nothing. -/
theorem weightedLength_counts (h : ∀ s ∈ symbols, s < size) (length : Nat → Nat) :
    weightedLength (CodedBlock.dropFinalZeros (tally size symbols)) length =
      total length symbols := by
  obtain ⟨zeros, hsplit, hzeros⟩ :=
    CodedBlock.exists_eq_dropFinalZeros_append (tally size symbols)
  rw [← weightedLength_tally h, ← weightedLength_append_zeros _ hzeros, ← hsplit]

/-- Only symbols that occur have a weight. -/
theorem mem_of_mem_counts {s : Nat}
    (hs : s ∈ CodeTree.symbolsWhere (0 < ·) (CodedBlock.dropFinalZeros (tally size symbols))) :
    s ∈ symbols := by
  obtain ⟨w, hw, hpos⟩ := CodeTree.mem_symbolsWhere.1 hs
  obtain ⟨zeros, hsplit, -⟩ := CodedBlock.exists_eq_dropFinalZeros_append (tally size symbols)
  have hlt := (List.getElem?_eq_some_iff.1 hw).1
  have hcount : (tally size symbols)[s]? = some w := by
    rw [hsplit, List.getElem?_append_left hlt, hw]
  have hsize : s < size := by
    rw [← length_tally size symbols]
    exact (List.getElem?_eq_some_iff.1 hcount).1
  rw [getElem?_tally symbols hsize, Option.some.injEq] at hcount
  rw [decide_eq_true_eq, ← hcount] at hpos
  exact List.count_pos_iff.1 hpos

/-- A prefix code for symbols has lengths that fit beside each other. -/
theorem CodeTable.PrefixCode.fits {t : CodeTable} (h : t.PrefixCode symbols) :
    CodeTree.Fits (CodedBlock.dropFinalZeros (tally size symbols)) t.lengthOf where
  pos := fun s hs => h.coded s (mem_of_mem_counts hs)
  codeSpace_le_one :=
    (h.mono fun _ => mem_of_mem_counts).codeSpace_le_one (CodeTree.nodup_symbolsWhere _ _)

end

/-! ## The new tables -/

namespace CodedBlock

/-- The table of a single distance has no word of more than a bit. -/
theorem lengthOf_loneTable_le (size s : Nat) : (loneTable size).lengthOf s ≤ 1 := by
  refine CodeTable.lengthOf_le_of_lengths (fun n hn => ?_) s
  obtain ⟨w, hw, rfl⟩ := List.mem_map.1 hn
  rcases Array.mem_push.1 (Array.mem_toList_iff.1 hw) with hw | rfl
  · rw [Array.eq_of_mem_replicate hw]
    exact Nat.zero_le 1
  · exact Nat.le_refl 1

/-- Distance symbols take no more under their table than under any lengths that fit. -/
theorem distTable_least {counts : List Nat} {t : CodeTable} (e : distTable counts = .ok t)
    (hshallow : 2 ≤ counts.countP (0 < ·) → CodeTree.Shallow counts maxCodeLength)
    {length : Nat → Nat} (hfits : CodeTree.Fits counts length) :
    weightedLength counts t.lengthOf ≤ weightedLength counts length := by
  unfold distTable at e
  split at e
  · next hnone =>
    refine weightedLength_mono fun s hs => ?_
    have hlen := CodeTree.length_symbolsWhere (0 < ·) counts
    rw [hnone] at hlen
    rw [List.length_eq_zero_iff.1 hlen] at hs
    cases hs
  · cases e
    refine weightedLength_mono fun s hs => ?_
    exact Nat.le_trans (lengthOf_loneTable_le _ s) (hfits.pos s hs)
  · next h₀ h₁ =>
    have htwo : 2 ≤ counts.countP (0 < ·) :=
      Nat.lt_of_le_of_ne (Nat.pos_of_ne_zero h₀) (Ne.symm h₁)
    obtain ⟨t', e', hleast⟩ := CodeTable.ofWeights_least
      (Nat.le_trans htwo List.countP_le_length) (hshallow htwo)
    rw [e] at e'
    cases e'
    exact hleast length hfits

/-- The trees that new tables for tokens are taken from need no limiting. -/
structure ShallowTrees (tokens : List Token) : Prop where
  litlen : CodeTree.Shallow (litlenCounts tokens) maxCodeLength
  /-- There is no tree for fewer than two distance symbols. -/
  dist : 2 ≤ (distCounts tokens).countP (0 < ·) →
    CodeTree.Shallow (distCounts tokens) maxCodeLength

/-- No two prefix codes make tokens smaller than new tables do. -/
theorem tokensCost_encode_le {tokens : List Token} {bytes : List UInt8} {b : CodedBlock}
    (e : encode tokens bytes = .ok b) (hlegal : ∀ t ∈ tokens, t.Legal)
    (hend : Token.endOfBlock ∈ tokens) (hshallow : ShallowTrees tokens)
    {litlen dist : CodeTable} (hlitlen : litlen.PrefixCode (litlenSymbols tokens))
    (hdist : dist.PrefixCode (distSymbols tokens)) :
    tokensCost b.litlen b.dist tokens ≤ tokensCost litlen dist tokens := by
  obtain ⟨newLitlen, newDist, header, edist, elitlen, -, rfl⟩ := encode_eq_ok e
  obtain ⟨n, hn, -⟩ := litlenCounts_pos hend trivial
  have hlen : endSymbol < (litlenCounts tokens).length := (List.getElem?_eq_some_iff.1 hn).1
  obtain ⟨t, et, hleast⟩ := CodeTable.ofWeights_least (Nat.le_trans (by decide) hlen)
    hshallow.litlen
  obtain rfl : newLitlen = t := Except.ok.inj (elitlen.symm.trans et)
  have hlitlen := hleast _ hlitlen.fits
  have hdist := distTable_least edist hshallow.dist hdist.fits
  rw [litlenCounts, ← litlenSymbols, weightedLength_counts (litlenSymbols_lt hlegal),
    weightedLength_counts (litlenSymbols_lt hlegal)] at hlitlen
  rw [distCounts, ← distSymbols, weightedLength_counts (distSymbols_lt hlegal),
    weightedLength_counts (distSymbols_lt hlegal)] at hdist
  rw [tokensCost_eq, tokensCost_eq]
  exact Nat.add_le_add_right (Nat.add_le_add hlitlen hdist) _

/-- Canonical tables are prefix codes for tokens that they have words for. -/
theorem prefixCode_of_coded {litlen dist : CodeTable} (hl : litlen.Canonical)
    (hd : dist.Canonical) {tokens : List Token} (h : ∀ t ∈ tokens, t.Coded litlen dist) :
    litlen.PrefixCode (litlenSymbols tokens) ∧ dist.PrefixCode (distSymbols tokens) := by
  refine ⟨hl.prefixCode fun s hs => ?_, hd.prefixCode fun s hs => ?_⟩
  · obtain ⟨t, ht, rfl⟩ := List.mem_map.1 hs
    exact (h t ht).1
  · obtain ⟨t, ht, hcopy, rfl⟩ := mem_distSymbols.1 hs
    exact (h t ht).2 hcopy

end CodedBlock

/-- Weights whose tree is not too deep get a code of least cost, and tokens whose trees are not too
deep get tables of least cost: neither the tables they had nor the fixed ones are better. -/
theorem least_cost :
    (∀ weights limit, 2 ≤ weights.length → CodeTree.Shallow weights limit →
      ∃ t, CodeTable.ofWeights weights limit = .ok t ∧
        ∀ length, CodeTree.Fits weights length →
          weightedLength weights t.lengthOf ≤ weightedLength weights length) ∧
    ∀ b : CodedBlock, b.Writable → CodedBlock.ShallowTrees b.tokens →
      ∃ c, b.recode = .ok c ∧ c.tokens = b.tokens ∧
        c.tokenBits = tokensCost c.litlen c.dist b.tokens ∧
        (∀ litlen dist : CodeTable, litlen.PrefixCode (litlenSymbols b.tokens) →
          dist.PrefixCode (distSymbols b.tokens) →
            c.tokenBits ≤ tokensCost litlen dist b.tokens) ∧
        c.tokenBits ≤ b.tokenBits ∧ c.tokenBits ≤ b.toFixed.tokenBits := by
  refine ⟨fun weights limit => CodeTable.ofWeights_least, fun b hb hshallow => ?_⟩
  obtain ⟨c, e⟩ := CodedBlock.encode_total hb.ends b.bytes
  obtain ⟨_, _, _, -, -, -, hc⟩ := CodedBlock.encode_eq_ok e
  have hcost : c.tokenBits = tokensCost c.litlen c.dist b.tokens := by
    rw [hc]
    rfl
  have hleast : ∀ litlen dist : CodeTable, litlen.PrefixCode (litlenSymbols b.tokens) →
      dist.PrefixCode (distSymbols b.tokens) →
        c.tokenBits ≤ tokensCost litlen dist b.tokens := by
    intro litlen dist hlitlen hdist
    rw [hcost]
    exact CodedBlock.tokensCost_encode_le e hb.legal hb.ends hshallow hlitlen hdist
  have hold := CodedBlock.prefixCode_of_coded (CodedBlock.canonical_litlen hb.coding).1
    (CodedBlock.canonical_dist hb.coding).1 hb.coded
  have hfixed := CodedBlock.prefixCode_of_coded CodeTable.canonical_fixedLitlen
    CodeTable.canonical_fixedDist fun t ht => CodedBlock.coded_fixed (hb.legal t ht)
  refine ⟨c, e, by rw [hc]; rfl, hcost, hleast, ?_, ?_⟩
  · rw [hb.tokenBits_eq]
    exact hleast _ _ hold.1 hold.2
  · exact hleast _ _ hfixed.1 hfixed.2

/-- Three weighted symbols against words of two bits, and a byte with its repetition against the
fixed tables. -/
theorem least_cost_match :
    (∃ t, CodeTable.ofWeights [3, 1, 1, 0] 2 = .ok t ∧
      weightedLength [3, 1, 1, 0] t.lengthOf ≤ weightedLength [3, 1, 1, 0] fun _ => 2) ∧
    ∃ c, (CodedBlock.ofCoding .fixed [.literal 65, .copy 3 1 [65, 65, 65], .endOfBlock]
        [65, 65, 65, 65]).recode = .ok c ∧
      c.tokenBits ≤ (CodedBlock.ofCoding .fixed
        [.literal 65, .copy 3 1 [65, 65, 65], .endOfBlock] [65, 65, 65, 65]).tokenBits := by
  have hfits : CodeTree.Fits [3, 1, 1, 0] fun _ => 2 := by
    refine ⟨by decide, ?_⟩
    rw [show CodeTree.symbolsWhere (0 < ·) [3, 1, 1, 0] = [0, 1, 2] by decide]
    norm_num
  obtain ⟨t, et, hleast⟩ := least_cost.1 [3, 1, 1, 0] 2 (by decide)
    (CodeTree.shallow_of_length_le (by decide))
  refine ⟨⟨t, et, hleast _ hfits⟩, ?_⟩
  have hlegal : ∀ t ∈ [Token.literal 65, .copy 3 1 [65, 65, 65], .endOfBlock], t.Legal :=
    List.forall_mem_cons.2 ⟨trivial, List.forall_mem_cons.2
      ⟨⟨by decide, by decide, by decide, by decide⟩, List.forall_mem_singleton.2 trivial⟩⟩
  have hwritable := CodedBlock.writable_fixed (by decide) hlegal [65, 65, 65, 65]
  obtain ⟨c, ec, -, -, -, hold, -⟩ := least_cost.2 _ hwritable
    ⟨CodeTree.shallow_of_length_le (by decide +kernel),
      fun _ => CodeTree.shallow_of_length_le (by decide +kernel)⟩
  exact ⟨c, ec, hold⟩

end DeflateRecoder
