import DeflateRecoder.Proofs.Block.FewBytes
import DeflateRecoder.Proofs.Block.Rewriting
import DeflateRecoder.Proofs.Search.Best

/-!
# Which candidate is chosen

Each candidate that is weighed against a well-formed block is written in as many bits as it was
weighed with, and read back from them (`Block.ReadsBack`). So a candidate is never chosen because
its size was miscounted. The one that is chosen is the first of the smallest (`FirstSmallest`), and
none is chosen just when none is smaller than the block (`search_selects`).
-/

namespace DeflateRecoder

/-! ## Written and read back -/

/-- At bit `position` the block is written in as many bits as it says it takes there, and a reader
that has these bits ahead at that bit reads the same block behind the window. -/
def Block.ReadsBack (window : Window) (position : Nat) (b : Block) : Prop :=
  ∀ w : BitWriter, w.Valid → w.bitLength = position →
    ∃ w' body, b.write w = .ok w' ∧ w.Puts w' body ∧
      w'.bitLength = position + b.bitSize position ∧
      ∀ (r : BitReader) (behind : List Bool), r.Valid → r.position = position →
        r.bits = body ++ behind → ∃ r', read b.kind window r = .ok b r' ∧ r'.bits = behind

/-- A well-formed block is read back wherever it is written. -/
theorem Block.WellFormed.readsBack {window : Window} {b : Block} (h : b.WellFormed window)
    (position : Nat) : b.ReadsBack window position := by
  rintro w hv rfl
  obtain ⟨w', hwrite, hputs⟩ := puts_write h hv
  refine ⟨w', _, hwrite, hputs, ?_, ?_⟩
  · rw [hputs.bitLength_eq, List.length_append, List.length_replicate, bitSize_eq h]
  · intro r behind hr hposition hbits
    refine (read_recognises b.kind window).complete hr hbits ⟨rfl, h, _, ?_, rfl⟩
    rw [hposition, List.length_replicate]

/-! ## The first of the smallest -/

/-- What is least by a measure, the first of all that are, parts a list into bigger elements in
front of it and elements that are not smaller behind it. -/
theorem split_of_minOn? {α β : Type} [LE β] [DecidableLE β] [LT β] [Std.IsLinearPreorder β]
    [Std.LawfulOrderLT β] {f : α → β} {l : List α} {a : α} (h : l.minOn? f = some a) :
    ∃ before behind, l = before ++ a :: behind ∧ (∀ b ∈ before, f a < f b) ∧
      ∀ b ∈ behind, f a ≤ f b := by
  have hne : l ≠ [] := by
    rintro rfl
    cases h
  have ha : List.minOn f l hne = a := List.minOn_eq_of_minOn?_eq_some h
  have hindex := List.minIdxOn_lt_length (f := f) hne
  refine ⟨l.take (List.minIdxOn f l hne), l.drop (List.minIdxOn f l hne + 1), ?_, ?_, ?_⟩
  · rw [← ha, ← List.getElem_minIdxOn hne, ← List.drop_eq_getElem_cons hindex, List.take_append_drop]
  · intro b hb
    obtain ⟨j, hj, rfl⟩ := List.mem_take_iff_getElem.1 hb
    exact ha ▸ List.apply_minOn_lt_apply_getElem_of_lt_minIdxOn hne (by omega)
  · exact fun b hb => ha ▸ List.apply_minOn_le_of_mem (List.mem_of_mem_drop hb)

/-- A candidate of the trials for a place at bit `position`: those weighed before it are bigger, and
those weighed behind it are not smaller. -/
def FirstSmallest (position : Nat) (trials : List Trial) (c : Block) : Prop :=
  ∃ before attempt behind, trials = before ++ .offer attempt c :: behind ∧
    (∀ attempt d, .offer attempt d ∈ before → c.bitSize position < d.bitSize position) ∧
    ∀ attempt d, .offer attempt d ∈ behind → c.bitSize position ≤ d.bitSize position

section

variable {block c : Block} {position : Nat} {attempt : Attempt} {trials : List Trial}

/-- A candidate that is smaller than the block counts. -/
theorem Trial.smaller?_of_lt (h : c.bitSize position < block.bitSize position) :
    (offer attempt c).smaller? block position = some ⟨c, h⟩ := dif_pos h

/-- A candidate does not count just when it is no smaller than the block. -/
theorem Trial.smaller?_offer_eq_none_iff :
    (offer attempt c).smaller? block position = none ↔
      block.bitSize position ≤ c.bitSize position := by
  rw [smaller?]
  split
  · next hlt => exact iff_of_false (Option.some_ne_none _) (Nat.not_le.2 hlt)
  · next hge => exact iff_of_true rfl (Nat.not_lt.1 hge)

/-- None of the trials gives a smaller block just when none of their candidates is smaller. -/
theorem best?_eq_none_iff : best? block position trials = none ↔
    ∀ attempt c, .offer attempt c ∈ trials → block.bitSize position ≤ c.bitSize position := by
  rw [best?, ← Option.not_isSome_iff_eq_none, List.isSome_minOn?_iff, ne_eq,
    Decidable.not_not, List.filterMap_eq_nil_iff]
  constructor
  · exact fun h attempt c hc => Trial.smaller?_offer_eq_none_iff.1 (h _ hc)
  · intro h t ht
    cases t with
    | offer attempt c => exact Trial.smaller?_offer_eq_none_iff.2 (h attempt c ht)
    | failed reason => rfl

/-- What is found is the first of the smallest candidates. Those that were left out, being no
smaller than the block, are not smaller than it either. -/
theorem best?_firstSmallest {found : Smaller block position}
    (h : best? block position trials = some found) : FirstSmallest position trials found.1 := by
  obtain ⟨before, behind, hsmaller, hbefore, hbehind⟩ := split_of_minOn? h
  obtain ⟨trialsBefore, trialsFrom, rfl, rfl, hfrom⟩ := List.filterMap_eq_append_iff.1 hsmaller
  obtain ⟨between, t, trialsBehind, rfl, hbetween, ht, rfl⟩ := List.filterMap_eq_cons_iff.1 hfrom
  obtain ⟨attempt, rfl⟩ := Trial.smaller?_eq_some ht
  -- A candidate not smaller than the block was left out, but what was found is smaller than that.
  refine ⟨trialsBefore ++ between, attempt, trialsBehind, (List.append_assoc _ _ _).symm, ?_, ?_⟩
  · intro attempt d hd
    rcases Nat.lt_or_ge (d.bitSize position) (block.bitSize position) with hlt | hge
    · have hsmaller : (Trial.offer attempt d).smaller? block position = some ⟨d, hlt⟩ :=
        Trial.smaller?_of_lt hlt
      rcases List.mem_append.1 hd with hd | hd
      · exact hbefore ⟨d, hlt⟩ (List.mem_filterMap.2 ⟨_, hd, hsmaller⟩)
      · rw [hbetween _ hd] at hsmaller
        cases hsmaller
    · exact Nat.lt_of_lt_of_le found.2 hge
  · intro attempt d hd
    rcases Nat.lt_or_ge (d.bitSize position) (block.bitSize position) with hlt | hge
    · exact hbehind ⟨d, hlt⟩ (List.mem_filterMap.2 ⟨_, hd, Trial.smaller?_of_lt hlt⟩)
    · exact Nat.le_of_lt (Nat.lt_of_lt_of_le found.2 hge)

/-- No candidate is smaller than the first of the smallest. -/
theorem FirstSmallest.le {d : Block} (h : FirstSmallest position trials c)
    (hd : .offer attempt d ∈ trials) : c.bitSize position ≤ d.bitSize position := by
  obtain ⟨before, own, behind, rfl, hbefore, hbehind⟩ := h
  rcases List.mem_append.1 hd with hd | hd
  · exact Nat.le_of_lt (hbefore attempt d hd)
  · rcases List.mem_cons.1 hd with heq | hd
    · cases heq
      exact Nat.le_refl _
    · exact hbehind attempt d hd

/-- No candidate is smaller than what the search leaves in the place of the block. -/
theorem search_elim_le_of_offer {config : Config}
    (h : .offer attempt c ∈ block.trials config.rules) :
    ((search config block position).2.elim block (·.1)).bitSize position ≤ c.bitSize position := by
  cases hfound : (search config block position).2 with
  | none => exact best?_eq_none_iff.1 hfound attempt c h
  | some found => exact (best?_firstSmallest hfound).le h

/-- Something is found whenever a candidate is smaller than the block. -/
theorem exists_search_of_offer {config : Config} (h : .offer attempt c ∈ block.trials config.rules)
    (hlt : c.bitSize position < block.bitSize position) :
    ∃ found, (search config block position).2 = some found := by
  cases hfound : (search config block position).2 with
  | none => exact absurd (best?_eq_none_iff.1 hfound attempt c h) (Nat.not_le.2 hlt)
  | some found => exact ⟨found, rfl⟩

/-- Something is found for a stored block of bytes with short words under the fixed tables, since
those alone take fewer bits than its length does. -/
theorem StoredBlock.exists_search {b : StoredBlock} (h : ∀ byte ∈ b.bytes, byte.toNat < 144)
    (config : Config) (position : Nat) :
    ∃ found, (search config (.stored b) position).2 = some found := by
  refine exists_search_of_offer (b.offer_fixed_mem_trials config.rules) ?_
  rw [Block.bitSize_fixed, tokensCost_literals h, Block.bitSize, StoredBlock.bitSize]
  omega

/-- Nothing is found for one literal under the fixed tables. -/
theorem search_literalBlock {config : Config} {byte : UInt8} (h : byte.toNat < 144) :
    (search config (literalBlock byte) position).2 = none := by
  cases hfound : (search config (literalBlock byte) position).2 with
  | none => rfl
  | some found =>
    have hrefines := search_refines hfound
    have hbytes : found.1.bytes.length = 1 := congrArg List.length hrefines.bytes_eq
    have hle := Block.le_bitSize_of_few
      (hrefines.wellFormed .empty (wellFormed_literalBlock _ byte)) (by omega) position
    have hlt := found.2
    have hsize := @bitSize_literalBlock position byte h
    omega

end

/-- The search weighs the candidates of a block, in the order of its trials, by their sizes at the
place of the block. For a block that is well-formed behind a window, each of them stands for the
bytes of the block, is written there in as many bits as its size says, and is read back behind the
window. Nothing is found just when no candidate is smaller than the block. Otherwise it is the first
of the smallest candidates that is found. -/
theorem search_selects {window : Window} {b : Block} (h : b.WellFormed window) (config : Config)
    (position : Nat) :
    let trials := b.trials config.rules
    (search config b position).1 = trials.map (Trial.event position) ∧
      (∀ attempt c, .offer attempt c ∈ trials →
        c.bytes = b.bytes ∧ c.ReadsBack window position) ∧
      ((search config b position).2 = none ↔ ∀ attempt c, .offer attempt c ∈ trials →
        b.bitSize position ≤ c.bitSize position) ∧
      ∀ found, (search config b position).2 = some found →
        FirstSmallest position trials found.1 := by
  intro trials
  refine ⟨rfl, fun attempt c hc => ?_, best?_eq_none_iff, fun found => best?_firstSmallest⟩
  have hrefines : b.Refines c := b.sound_trials config.rules _ hc
  exact ⟨hrefines.bytes_eq, (hrefines.wellFormed window h).readsBack position⟩

/-- The search for four equal bytes under optimal tables, once they have been under the fixed ones,
at the first block of a stream. -/
theorem search_selects_literals :
    ∃ start b, CodedBlock.ofTokens [.literal 65, .literal 65, .literal 65, .literal 65,
        .endOfBlock] = .ok start ∧
      start.rewrite [.toFixed, .recode] = .ok b ∧ b.WellFormed Window.empty ∧
      (∀ attempt c, .offer attempt c ∈ (Block.coded b).trials (Config.rules {}) →
        c.bytes = b.bytes ∧ c.ReadsBack Window.empty 3) ∧
      ∀ found, (search {} (.coded b) 3).2 = some found →
        FirstSmallest 3 ((Block.coded b).trials (Config.rules {})) found.1 := by
  have hbody := CodedBlock.body_literals Window.empty [65, 65, 65, 65]
  obtain ⟨start, b, hstart, hb, hwell⟩ :=
    CodedBlock.Origin.wellFormed_rewrite (.tokens hbody) [.toFixed, .recode]
  have hselects := search_selects (b := .coded b) hwell {} 3
  exact ⟨start, b, hstart, hb, hwell, hselects.2.1, hselects.2.2.2⟩

end DeflateRecoder
