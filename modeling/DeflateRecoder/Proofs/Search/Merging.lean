import DeflateRecoder.Proofs.Search.Selection

/-!
# One block in the place of two

What `mergeBlocks` finds for two blocks stands for the bytes of both and needs nothing but the
window of the first one: matches of the second one that reach into the first now reach back within
the block, and those that reach through it still meet the window. It is smaller than the two and the
bits that open the second, wherever that one would begin (`mergeBlocks_sound`). Blocks of different
sorts stay apart, and so do stored blocks too long for one.
-/

namespace DeflateRecoder

variable {config : Config} {first second joined : Block} {position : Nat}

/-! ## Blocks that stay apart -/

/-- A stored block and a coded one cannot be put together. -/
theorem Block.append?_eq_none_of_kind
    (h : ¬(first.kind = .stored ↔ second.kind = .stored)) : first.append? second = none := by
  cases first with
  | stored a =>
    cases second with
    | stored b => exact absurd Iff.rfl h
    | coded b => rfl
  | coded a =>
    cases second with
    | stored b => rfl
    | coded b =>
      exact absurd (iff_of_false (kind_coded_ne_stored a) (kind_coded_ne_stored b)) h

/-- Stored blocks cannot be put together beyond the greatest length. -/
theorem StoredBlock.append?_eq_none_of_length {a b : StoredBlock}
    (h : maxStoredLength < a.bytes.length + b.bytes.length) : a.append? b = none := by
  rw [append?, ofBytes, dif_neg]
  · rfl
  · rw [List.length_append]
    omega

/-- Blocks that cannot be put together are not merged. -/
theorem mergeBlocks_eq_none (h : first.append? second = none) :
    (mergeBlocks config first second position).2 = none := by
  rw [mergeBlocks, h]

/-! ## Blocks that become one -/

/-- One block is found in the place of two whenever the search leaves a small enough one for what
they have together. -/
theorem exists_mergeBlocks_of_le {size : Nat} (h : first.append? second = some (.ok joined))
    (hle : ((search config joined position).2.elim joined (·.1)).bitSize position ≤ size)
    (hsmaller : position + size < second.endOf (position + first.bitSize position)) :
    ∃ merged, (mergeBlocks config first second position).2 = some merged := by
  refine ⟨(search config joined position).2.elim joined (·.1), ?_⟩
  rw [mergeBlocks, h]
  dsimp only
  rw [if_pos (by omega)]

/-- One block is found in the place of two whenever the joined tokens or bytes alone are smaller. -/
theorem exists_mergeBlocks (h : first.append? second = some (.ok joined))
    (hsmaller : position + joined.bitSize position <
      second.endOf (position + first.bitSize position)) :
    ∃ merged, (mergeBlocks config first second position).2 = some merged := by
  refine exists_mergeBlocks_of_le h ?_ hsmaller
  cases (search config joined position).2 with
  | none => exact Nat.le_refl _
  | some found => exact Nat.le_of_lt found.2

/-- One block is found in the place of two whenever a candidate for the joined block is smaller. -/
theorem exists_mergeBlocks_of_offer {attempt : Attempt} {c : Block}
    (h : first.append? second = some (.ok joined))
    (hoffer : .offer attempt c ∈ joined.trials config.rules)
    (hsmaller : position + c.bitSize position <
      second.endOf (position + first.bitSize position)) :
    ∃ merged, (mergeBlocks config first second position).2 = some merged :=
  exists_mergeBlocks_of_le h (search_elim_le_of_offer hoffer) hsmaller

/-- Two coded blocks are merged whenever the fixed tables take fewer bits for the tokens of both. -/
theorem exists_mergeBlocks_of_fixed {a b : CodedBlock} {tokens : List Token} {bytes : List UInt8}
    (happend : a.append b = CodedBlock.encode tokens bytes) (hend : Token.endOfBlock ∈ tokens)
    (hsmaller : tokensCost CodeTable.fixedLitlen CodeTable.fixedDist tokens <
      a.bitSize + openingBits + b.bitSize) :
    ∃ merged, (mergeBlocks config (.coded a) (.coded b) position).2 = some merged := by
  obtain ⟨joined, hjoined⟩ := CodedBlock.encode_total hend bytes
  have hboth : (Block.coded a).append? (.coded b) = some (.ok (.coded joined)) := by
    rw [Block.append?, happend, hjoined]
    rfl
  obtain ⟨litlen, dist, header, -, -, -, rfl⟩ := CodedBlock.encode_eq_ok hjoined
  refine exists_mergeBlocks_of_offer hboth (CodedBlock.offer_fixed_mem_trials _ _ _) ?_
  rw [Block.bitSize_fixed, Block.endOf, Block.bitSize, Block.bitSize]
  omega

/-- The tokens of two blocks of few bytes are joined to literals of the bytes of both. -/
theorem CodedBlock.append_of_few {window behind : Window} {a b : CodedBlock}
    (ha : a.WellFormed window) (hb : b.WellFormed behind) (hafew : a.bytes.length ≤ 2)
    (hbfew : b.bytes.length ≤ 2) :
    a.append b = encode ((a.bytes ++ b.bytes).map .literal ++ [.endOfBlock])
      (a.bytes ++ b.bytes) := by
  obtain ⟨p, hp, happend⟩ := append_eq a b
  have hend : Token.endOfBlock ∉ a.bytes.map .literal := fun h => by
    obtain ⟨byte, -, hbyte⟩ := List.mem_map.1 h
    cases hbyte
  rw [happend, tokens_of_few ha hafew, tokens_of_few hb hbfew, filter_closed hp hend,
    List.map_append, List.append_assoc]

/-- Two coded blocks of few bytes, all of them with short words under the fixed tables, are merged:
one block of these words saves at least an end and the bits that open the second. -/
theorem exists_mergeBlocks_of_few {window behind : Window} {a b : CodedBlock}
    (ha : a.WellFormed window) (hb : b.WellFormed behind) (hafew : a.bytes.length ≤ 2)
    (hbfew : b.bytes.length ≤ 2) (hshort : ∀ byte ∈ a.bytes ++ b.bytes, byte.toNat < 144) :
    ∃ merged, (mergeBlocks config (.coded a) (.coded b) position).2 = some merged := by
  have hbody := CodedBlock.body_literals window (a.bytes ++ b.bytes)
  refine exists_mergeBlocks_of_fixed (CodedBlock.append_of_few ha hb hafew hbfew)
    hbody.closed.mem ?_
  have hfirst := Block.le_bitSize_of_few (b := .coded a) ha hafew 0
  have hsecond := Block.le_bitSize_of_few (b := .coded b) hb hbfew 0
  rw [Block.bytes, Block.bitSize] at hfirst hsecond
  rw [tokensCost_literals hshort, List.length_append]
  omega

/-- Two literals in blocks of their own are merged. -/
theorem mergeBlocks_literals {a b : UInt8} (ha : a.toNat < 144) (hb : b.toNat < 144) :
    ∃ merged, (mergeBlocks config (literalBlock a) (literalBlock b) position).2 = some merged := by
  have hfirst := wellFormed_literalBlock Window.empty a
  have hsecond := wellFormed_literalBlock Window.empty b
  exact exists_mergeBlocks_of_few hfirst hsecond (Nat.le_succ 1) (Nat.le_succ 1)
    (List.forall_mem_cons.2 ⟨ha, List.forall_mem_singleton.2 hb⟩)

/-- Of two neighbours of few bytes with short words, either something is found for one of them or
they are merged. -/
theorem exists_mergeBlocks_of_unsearched {window behind : Window}
    (hfirst : first.WellFormed window) (hsecond : second.WellFormed behind)
    (hfewer : first.bytes.length ≤ 2) (hfew : second.bytes.length ≤ 2)
    (hshort : ∀ byte ∈ first.bytes ++ second.bytes, byte.toNat < 144) {start : Nat}
    (hnone : (search config first position).2 = none)
    (hnothing : (search config second start).2 = none) :
    ∃ merged, (mergeBlocks config first second position).2 = some merged := by
  obtain ⟨hfirstShort, hsecondShort⟩ := List.forall_mem_append.1 hshort
  cases first with
  | stored a =>
    obtain ⟨found, hfound⟩ := StoredBlock.exists_search hfirstShort config position
    rw [hnone] at hfound
    cases hfound
  | coded a =>
    cases second with
    | stored b =>
      obtain ⟨found, hfound⟩ := StoredBlock.exists_search hsecondShort config start
      rw [hnothing] at hfound
      cases hfound
    | coded b => exact exists_mergeBlocks_of_few hfirst hsecond hfewer hfew hshort

/-- What is found in the place of a block and of another one, well-formed behind it, has the bytes
of both. Behind the window of the first block alone it is well-formed, and is written and read back
at the place of that block. It is smaller than the two with the bits that open the second. Nothing
is found for a stored and a coded block, nor for stored blocks with too many bytes for one. -/
theorem mergeBlocks_sound {window : Window} (hfirst : first.WellFormed window)
    (hsecond : second.WellFormed (window.pushNewer first.bytes.toArray)) (config : Config)
    (position : Nat) :
    (∀ merged, (mergeBlocks config first second position).2 = some merged →
      merged.bytes = first.bytes ++ second.bytes ∧ merged.WellFormed window ∧
        merged.ReadsBack window position ∧
        merged.bitSize position < first.bitSize position + openingBits +
          second.bitSize (position + first.bitSize position + openingBits)) ∧
      (¬(first.kind = .stored ↔ second.kind = .stored) →
        (mergeBlocks config first second position).2 = none) ∧
      ∀ a b, first = .stored a → second = .stored b →
        maxStoredLength < a.bytes.length + b.bytes.length →
        (mergeBlocks config first second position).2 = none := by
  refine ⟨fun merged e => ?_, fun hkind => ?_, ?_⟩
  · obtain ⟨hjoins, hends⟩ := mergeBlocks_spec e
    have hmerged := hjoins.wellFormed window hfirst hsecond
    refine ⟨hjoins.bytes_eq, hmerged, hmerged.readsBack position, ?_⟩
    rw [Block.endOf] at hends
    omega
  · exact mergeBlocks_eq_none (Block.append?_eq_none_of_kind hkind)
  · rintro a b rfl rfl hlength
    refine mergeBlocks_eq_none ?_
    rw [Block.append?, StoredBlock.append?_eq_none_of_length hlength, Option.map_none]

/-- A stored byte and another one become one block, and so do a literal and a match that reaches back
to it, each in a block with tables of its own. -/
theorem mergeBlocks_sound_match :
    (∃ merged, (mergeBlocks {} (.stored ⟨[65], by decide⟩) (.stored ⟨[66], by decide⟩) 3).2 =
        some merged ∧ merged.bytes = [65, 66] ∧ merged.ReadsBack Window.empty 3 ∧
      merged.bitSize 3 < 93) ∧
    ∃ a b merged, CodedBlock.ofTokens [.literal 65, .endOfBlock] = .ok a ∧
      CodedBlock.ofTokens [.copy 3 1 [65, 65, 65], .endOfBlock] = .ok b ∧
      (mergeBlocks {} (.coded a) (.coded b) 3).2 = some merged ∧
        merged.bytes = [65, 65, 65, 65] ∧ merged.ReadsBack Window.empty 3 := by
  constructor
  · have hjoined : (Block.stored ⟨[65], by decide⟩).append? (.stored ⟨[66], by decide⟩) =
        some (.ok (.stored ⟨[65, 66], by decide⟩)) := rfl
    obtain ⟨merged, e⟩ := @exists_mergeBlocks {} _ _ _ 3 hjoined (by decide)
    have hsound := @mergeBlocks_sound (.stored ⟨[65], by decide⟩) (.stored ⟨[66], by decide⟩) .empty
      trivial trivial {} 3
    obtain ⟨hbytes, -, hreads, hsize⟩ := hsound.1 merged e
    exact ⟨merged, e, hbytes, hreads, hsize⟩
  · have hbody := CodedBlock.body_literals Window.empty [65]
    have hfound : resolve #[] (Window.empty.pushNewer #[65]) 1 3 = .ok [65, 65, 65] :=
      resolve_eq_ok.2 ⟨by decide, by decide, by decide, by decide⟩
    have hmatch : CodedBlock.Body (Window.empty.pushNewer #[65])
        [.copy 3 1 [65, 65, 65], .endOfBlock] :=
      CodedBlock.body_copy ⟨by decide, by decide, by decide, by decide⟩ hfound
    obtain ⟨a, ea⟩ := CodedBlock.ofTokens_total hbody.closed
    obtain ⟨b, eb⟩ := CodedBlock.ofTokens_total hmatch.closed
    obtain ⟨ha, habytes⟩ := CodedBlock.wellFormed_ofTokens ea hbody
    obtain ⟨hb, hbbytes⟩ := CodedBlock.wellFormed_ofTokens eb hmatch
    have hbehind : (Block.coded b).WellFormed
        (Window.empty.pushNewer (Block.coded a).bytes.toArray) := by
      rw [Block.bytes, habytes]
      exact hb
    obtain ⟨merged, e⟩ : ∃ merged, (mergeBlocks {} (.coded a) (.coded b) 3).2 = some merged := by
      obtain ⟨hatokens, hakind⟩ := CodedBlock.tokens_ofTokens ea
      obtain ⟨hbtokens, hbkind⟩ := CodedBlock.tokens_ofTokens eb
      obtain ⟨p, hp, happend⟩ := CodedBlock.append_eq a b
      rw [hatokens, hbtokens, CodedBlock.filter_closed hp (by decide)] at happend
      have hcost : tokensCost CodeTable.fixedLitlen CodeTable.fixedDist
          ([.literal 65] ++ [.copy 3 1 [65, 65, 65], .endOfBlock]) = 27 := by decide +kernel
      have hafirst := CodedBlock.le_bitSize_of_dynamic ha hakind
      have hbsecond := CodedBlock.le_bitSize_of_dynamic hb hbkind
      exact exists_mergeBlocks_of_fixed happend (by decide) (Nat.lt_of_le_of_lt
        (Nat.le_of_eq hcost) (by omega))
    have hsound := @mergeBlocks_sound (.coded a) (.coded b) .empty ha hbehind {} 3
    obtain ⟨hbytes, -, hreads, -⟩ := hsound.1 merged e
    refine ⟨a, b, merged, ea, eb, e, ?_, hreads⟩
    rw [hbytes, Block.bytes, Block.bytes, habytes, hbbytes]
    rfl

end DeflateRecoder
