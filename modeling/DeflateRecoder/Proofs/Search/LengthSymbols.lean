import DeflateRecoder.Proofs.Block.Accounting
import DeflateRecoder.Proofs.Search.Selection

/-!
# Which length symbol is given up

A length symbol can be given up when there are matches with it and all of their bytes have words
(`CodedBlock.Droppable`). What is weighed is what the literals cost over the matches, or how many
matches there are (`CodedBlock.weight`). The block adds this up symbol by symbol, and a single byte
without a word spoils the sum of its symbol; `CodedBlock.mem_droppable_iff` says that the symbols
that are left, and what is added up for them, are right. `CodedBlock.dropLength?_least` says which of
them goes, and that nothing but its matches goes with it.
-/

namespace DeflateRecoder

namespace CodedBlock

/-! ## What is weighed -/

/-- The matches with a length symbol. -/
def matchesOf (b : CodedBlock) (symbol : Nat) : List Token :=
  b.tokens.filter fun t => t.isCopy && t.symbol == symbol

/-- A length symbol can be given up: there are matches with it, and all of their bytes have words. -/
structure Droppable (b : CodedBlock) (symbol : Nat) : Prop where
  used : b.matchesOf symbol ≠ []
  coded : ∀ t ∈ b.matchesOf symbol, ∀ byte ∈ t.bytes, 0 < b.litlen.lengthOf byte.toNat

/-- What the bytes of the matches with a length symbol cost as literals, over what the matches
cost. -/
def growth (b : CodedBlock) (symbol : Nat) : Int :=
  (total (fun t => total (b.litlen.lengthOf ·.toNat) t.bytes) (b.matchesOf symbol) : Int) -
    total (Token.cost b.litlen b.dist) (b.matchesOf symbol)

/-- What a length symbol weighs when one is to be given up. -/
def weight (b : CodedBlock) (symbol : Nat) : DropMode → Int
  | .cheapest => b.growth symbol
  | .rarest => (b.matchesOf symbol).length

/-- Tokens in which the matches with a length symbol are spelled out, each in its place. -/
def spellAll (symbol : Nat) (tokens : List Token) : List Token :=
  tokens.flatMap fun t => if t.isCopy && t.symbol == symbol then spell t else [t]

/-! ## What is added up -/

section

variable {litlen dist : CodeTable} {tokens : List Token}

/-- The growths that are listed for a length symbol are those of its matches, in their order. -/
theorem filterMap_growthOf (litlen dist : CodeTable) (symbol : Nat) (tokens : List Token) :
    tokens.filterMap (growthOf litlen dist symbol) =
      (tokens.filter fun t => t.isCopy && t.symbol == symbol).map fun t =>
        (literalCost? litlen t.bytes).map fun sum => (sum : Int) - t.cost litlen dist := by
  rw [← List.filterMap_eq_map, List.filterMap_filter]
  rfl

/-- Bytes that all have words cost these words. -/
theorem literalCost?_eq_some {bytes : List UInt8}
    (h : ∀ byte ∈ bytes, 0 < litlen.lengthOf byte.toNat) :
    literalCost? litlen bytes = some (total (litlen.lengthOf ·.toNat) bytes) :=
  addLiteralCost?_eq_some.2 ⟨h, (Nat.zero_add _).symm⟩

/-- It is known of all matches by how much they grow just when all of their bytes have words. -/
theorem mapM_growths (tokens : List Token) (gs : List Int) :
    (tokens.map fun t => (literalCost? litlen t.bytes).map fun sum =>
        (sum : Int) - t.cost litlen dist).mapM id = some gs ↔
      (∀ t ∈ tokens, ∀ byte ∈ t.bytes, 0 < litlen.lengthOf byte.toNat) ∧
        gs = tokens.map fun t =>
          (total (litlen.lengthOf ·.toNat) t.bytes : Int) - t.cost litlen dist := by
  induction tokens generalizing gs with
  | nil => simp [eq_comm]
  | cons t tokens ih =>
    rw [List.map_cons, List.map_cons, List.forall_mem_cons]
    constructor
    · intro h
      obtain ⟨g, rest, hg, hrest, rfl⟩ := mapM_id_cons_eq_some h
      obtain ⟨_, hlift, rfl⟩ := Option.map_eq_some_iff.1 hg
      obtain ⟨sum, hsum, ⟨⟩⟩ := Option.bind_eq_some_iff.1 hlift
      obtain ⟨hcodes, rfl⟩ := addLiteralCost?_eq_some.1 hsum
      obtain ⟨hothers, rfl⟩ := (ih rest).1 hrest
      rw [Nat.zero_add]
      exact ⟨⟨hcodes, hothers⟩, rfl⟩
    · rintro ⟨⟨hcodes, hothers⟩, rfl⟩
      rw [List.mapM_cons, literalCost?_eq_some hcodes, (ih _).2 ⟨hothers, rfl⟩]
      rfl

/-- Together, matches grow by the difference of the sums. -/
theorem foldl_growths (tokens : List Token) :
    (tokens.map fun t =>
        (total (litlen.lengthOf ·.toNat) t.bytes : Int) - t.cost litlen dist).foldl (· + ·) 0 =
      (total (fun t => total (litlen.lengthOf ·.toNat) t.bytes) tokens : Int) -
        total (Token.cost litlen dist) tokens := by
  induction tokens with
  | nil => rfl
  | cons t tokens ih =>
    rw [List.map_cons, List.foldl_cons, foldl_add_int, ih, total_cons, total_cons]
    omega

end

/-- What giving up a length symbol means for a block. -/
def useOf (b : CodedBlock) (symbol : Nat) : LengthUse :=
  ⟨symbol, b.growth symbol, (b.matchesOf symbol).length⟩

/-- What is compared is what a symbol weighs. -/
theorem key_useOf (b : CodedBlock) (symbol : Nat) (mode : DropMode) :
    mode.key (b.useOf symbol) = b.weight symbol mode := by
  cases mode <;> rfl

/-- A symbol without matches cannot be given up. -/
theorem lengthUse?_of_unused {b : CodedBlock} {symbol : Nat} (h : b.matchesOf symbol = []) :
    lengthUse? b.matchGrowths symbol = none := by
  rw [matchesOf] at h
  rw [lengthUse?, filterMap_matchGrowths, filterMap_growthOf, h]
  rfl

/-- The use of a symbol with matches is the sum of their growths and their number, if all of the
growths are known. -/
theorem lengthUse?_of_used {b : CodedBlock} {symbol : Nat} (h : b.matchesOf symbol ≠ []) :
    lengthUse? b.matchGrowths symbol =
      (((b.matchesOf symbol).map fun t => (literalCost? b.litlen t.bytes).map fun sum =>
        (sum : Int) - t.cost b.litlen b.dist).mapM id).map fun gs =>
          ⟨symbol, gs.foldl (· + ·) 0, gs.length⟩ := by
  obtain ⟨t, others, hmatches⟩ := List.exists_cons_of_ne_nil h
  have hfilter : (b.tokens.filter fun t => t.isCopy && t.symbol == symbol) = t :: others := hmatches
  rw [lengthUse?, filterMap_matchGrowths, filterMap_growthOf, hfilter, hmatches]
  rfl

/-- A symbol has a use just when it can be given up. -/
theorem lengthUse?_eq_some_iff {b : CodedBlock} {symbol : Nat} {use : LengthUse} :
    lengthUse? b.matchGrowths symbol = some use ↔
      b.Droppable symbol ∧ use = b.useOf symbol := by
  by_cases hused : b.matchesOf symbol = []
  · rw [lengthUse?_of_unused hused]
    exact iff_of_false nofun fun h => h.1.used hused
  · rw [lengthUse?_of_used hused, Option.map_eq_some_iff]
    constructor
    · rintro ⟨gs, hgs, rfl⟩
      obtain ⟨hcoded, rfl⟩ := (mapM_growths _ gs).1 hgs
      rw [foldl_growths, List.length_map]
      exact ⟨⟨hused, hcoded⟩, rfl⟩
    · rintro ⟨⟨-, hcoded⟩, rfl⟩
      refine ⟨_, (mapM_growths _ _).2 ⟨hcoded, rfl⟩, ?_⟩
      rw [foldl_growths, List.length_map]
      rfl

/-- Matches of a length that the format has have one of its length symbols. -/
theorem Droppable.symbol_bounds {b : CodedBlock} {symbol : Nat} (h : b.Droppable symbol)
    (hlegal : ∀ t ∈ b.tokens, t.Legal) :
    firstLengthSymbol ≤ symbol ∧ symbol < firstLengthSymbol + lengthBands.size := by
  obtain ⟨t, ht⟩ := List.exists_mem_of_ne_nil _ h.used
  obtain ⟨htokens, hsymbol⟩ := List.mem_filter.1 ht
  rw [Bool.and_eq_true, beq_iff_eq] at hsymbol
  obtain ⟨hcopy, rfl⟩ := hsymbol
  cases t with
  | literal byte => cases hcopy
  | endOfBlock => cases hcopy
  | copy length distance bytes =>
    obtain ⟨hmin, hmax, -⟩ := hlegal _ htokens
    exact lengthSymbol_bounds hmin hmax

/-- The symbols that a block lists are those that can be given up, if its tables are its own. -/
theorem mem_droppable_iff {b : CodedBlock} (hlegal : ∀ t ∈ b.tokens, t.Legal) {use : LengthUse} :
    use ∈ b.droppable ↔
      b.kind = .dynamic ∧ ∃ symbol, b.Droppable symbol ∧ use = b.useOf symbol := by
  unfold droppable kind
  cases b.coding with
  | fixed => exact iff_of_false List.not_mem_nil fun h => by cases h.1
  | dynamic litlen dist header =>
    rw [and_iff_right rfl, List.mem_filterMap]
    constructor
    · rintro ⟨i, -, hi⟩
      exact ⟨_, lengthUse?_eq_some_iff.1 hi⟩
    · rintro ⟨symbol, hdrop, rfl⟩
      obtain ⟨hfirst, hlast⟩ := hdrop.symbol_bounds hlegal
      obtain ⟨i, rfl⟩ := Nat.exists_eq_add_of_le hfirst
      exact ⟨i, List.mem_range.2 (by omega), lengthUse?_eq_some_iff.2 ⟨hdrop, rfl⟩⟩

/-- The matches with a length symbol are some of the tokens. -/
theorem matchCount_le_length {b : CodedBlock} {use : LengthUse} (h : use ∈ b.droppable) :
    use.matchCount ≤ b.tokens.length := by
  unfold droppable at h
  split at h
  · cases h
  · obtain ⟨i, -, hi⟩ := List.mem_filterMap.1 h
    rw [(lengthUse?_eq_some_iff.1 hi).2]
    exact List.length_filter_le _ _

/-- Up to `2 ^ 32 - 1` tokens, whatever is counted in a block fits into 32 bits. -/
theorem counts_lt_of_length_lt {b : CodedBlock} (h : b.tokens.length < 2 ^ 32) :
    (∀ n ∈ litlenCounts b.tokens, n < 2 ^ 32) ∧ (∀ n ∈ distCounts b.tokens, n < 2 ^ 32) ∧
      ∀ use ∈ b.droppable, use.matchCount < 2 ^ 32 :=
  ⟨fun _ hn => Nat.lt_of_le_of_lt (le_length_of_mem_litlenCounts hn) h,
    fun _ hn => Nat.lt_of_le_of_lt (le_length_of_mem_distCounts hn) h,
    fun _ huse => Nat.lt_of_le_of_lt (matchCount_le_length huse) h⟩

/-- The lower symbols come first. -/
theorem pairwise_droppable (b : CodedBlock) :
    b.droppable.Pairwise fun u v => u.symbol < v.symbol := by
  unfold droppable
  split
  · exact .nil
  · refine List.pairwise_lt_range.filterMap _ fun i j hij u hu v hv => ?_
    rw [(lengthUse?_eq_some_iff.1 hu).2, (lengthUse?_eq_some_iff.1 hv).2]
    exact Nat.add_lt_add_left hij _

/-! ## What goes -/

/-- What is given up is the first of the least. -/
theorem dropLength?_eq_some {b c : CodedBlock} {mode : DropMode}
    (h : b.dropLength? mode = some c) : ∃ use ∈ b.droppable, c = b.giveUp use ∧
      ∀ other ∈ b.droppable, mode.key use < mode.key other ∨
        mode.key use = mode.key other ∧ use.symbol ≤ other.symbol := by
  obtain ⟨use, huse, rfl⟩ := Option.map_eq_some_iff.1 h
  obtain ⟨before, behind, hsplit, hbefore, hbehind⟩ := split_of_minOn? huse
  refine ⟨use, List.minOn?_mem huse, rfl, fun other hother => ?_⟩
  have hsorted := b.pairwise_droppable
  rw [hsplit] at hsorted hother
  rcases List.mem_append.1 hother with hother | hother
  · exact .inl (hbefore other hother)
  · have hlower : use.symbol ≤ other.symbol := by
      rcases List.mem_cons.1 hother with rfl | hother
      · exact Nat.le_refl _
      · have hfrom := (List.pairwise_append.1 hsorted).2.1
        exact Nat.le_of_lt (List.rel_of_pairwise_cons hfrom hother)
    have hle : mode.key use ≤ mode.key other := by
      rcases List.mem_cons.1 hother with rfl | hother
      · exact Int.le_refl _
      · exact hbehind other hother
    rcases Int.lt_or_eq_of_le hle with hlt | heq
    · exact .inl hlt
    · exact .inr ⟨heq, hlower⟩

/-- No symbol is given up just when none can be. -/
theorem dropLength?_eq_none_iff {b : CodedBlock} {mode : DropMode} :
    b.dropLength? mode = none ↔ b.droppable = [] := by
  rw [dropLength?, dropFrom?, Option.map_eq_none_iff, ← Option.not_isSome_iff_eq_none,
    List.isSome_minOn?_iff, ne_eq, Decidable.not_not]

/-- No length symbol is given up just when the tables are not the block's own or no symbol can be.
Otherwise it is the one of least weight that is given up, the lowest one where there are several.
All matches with it are spelled out, each in its place, and all other tokens stay; so do the tables
and the bytes, and the size of the tokens is right. -/
theorem dropLength?_least {b : CodedBlock} (h : Obtained b) (mode : DropMode) :
    (b.dropLength? mode = none ↔ b.kind ≠ .dynamic ∨ ∀ symbol, ¬b.Droppable symbol) ∧
      ∀ c, b.dropLength? mode = some c → ∃ symbol, b.Droppable symbol ∧
        (∀ other, b.Droppable other → b.weight symbol mode < b.weight other mode ∨
          b.weight symbol mode = b.weight other mode ∧ symbol ≤ other) ∧
        c.tokens = spellAll symbol b.tokens ∧ c.coding = b.coding ∧ c.bytes = b.bytes ∧
        tokenBytes c.tokens = tokenBytes b.tokens ∧
        c.tokenBits = tokensCost c.litlen c.dist c.tokens := by
  have hlegal := h.writable.legal
  refine ⟨?_, fun c hc => ?_⟩
  · rw [dropLength?_eq_none_iff, List.eq_nil_iff_forall_not_mem]
    constructor
    · intro hnone
      by_cases hkind : b.kind = .dynamic
      · exact .inr fun symbol hdrop =>
          hnone _ ((mem_droppable_iff hlegal).2 ⟨hkind, symbol, hdrop, rfl⟩)
      · exact .inl hkind
    · intro hnone use huse
      obtain ⟨hkind, symbol, hdrop, -⟩ := (mem_droppable_iff hlegal).1 huse
      exact hnone.elim (fun hne => hne hkind) fun hall => hall symbol hdrop
  · have hwritable := (dropFrom?_refines hc).writable h.writable
    obtain ⟨use, huse, rfl, hleast⟩ := dropLength?_eq_some hc
    obtain ⟨hkind, symbol, hdrop, rfl⟩ := (mem_droppable_iff hlegal).1 huse
    refine ⟨symbol, hdrop, fun other hother => ?_, rfl, rfl, rfl, ?_, hwritable.tokenBits_eq⟩
    · have hother := hleast _ ((mem_droppable_iff hlegal).2 ⟨hkind, other, hother, rfl⟩)
      rw [key_useOf, key_useOf] at hother
      exact hother
    · exact tokenBytes_flatMap fun t ht => ((giveUp_tokens huse).1 t ht).tokenBytes_eq

/-- A literal and two matches with different symbols, one each: the match with the lower symbol
goes. -/
theorem dropLength?_least_tie :
    let tokens := [.literal 65, .copy 4 1 [65, 65, 65, 65], .copy 3 1 [65, 65, 65], .endOfBlock]
    ∃ b c, ofTokens tokens = .ok b ∧ Obtained b ∧ b.dropLength? .rarest = some c ∧
      c.tokens = [.literal 65, .copy 4 1 [65, 65, 65, 65], .literal 65, .literal 65, .literal 65,
        .endOfBlock] ∧
      c.tokenBits = tokensCost c.litlen c.dist c.tokens := by
  intro tokens
  have hclosed : Closed tokens :=
    ⟨[.literal 65, .copy 4 1 [65, 65, 65, 65], .copy 3 1 [65, 65, 65]], rfl, by decide⟩
  have hlegal : ∀ t ∈ tokens, t.Legal := by
    simp [tokens, Token.Legal, maxDistance]
  obtain ⟨b, eb⟩ := ofTokens_total hclosed
  have hobtained : Obtained b := .ofTokens hlegal eb
  obtain ⟨htokens, hkind⟩ := tokens_ofTokens eb
  have hmatches : b.matchesOf 257 = [.copy 3 1 [65, 65, 65]] := by
    rw [matchesOf, htokens]
    rfl
  -- The literal has a word, and with it the bytes of the matches.
  have hcoded : 0 < b.litlen.lengthOf 65 := by
    refine (hobtained.writable.coded (.literal 65) ?_).litlen_pos
    rw [htokens]
    exact List.mem_cons_self ..
  have hdrop : b.Droppable 257 := by
    constructor <;> simp [hmatches, Token.bytes, hcoded]
  obtain ⟨hnone, hsome⟩ := dropLength?_least hobtained .rarest
  cases hc : b.dropLength? .rarest with
  | none =>
    rcases hnone.1 hc with h | h
    · exact absurd hkind h
    · exact absurd hdrop (h 257)
  | some c =>
    obtain ⟨symbol, hsymbol, hleast, hspelled, -, -, -, hbits⟩ := hsome c hc
    -- A symbol that goes has a match, and there is none below the lowest one.
    have hused : 0 < (b.matchesOf symbol).length := List.length_pos_iff.2 hsymbol.used
    have hfirst : 257 ≤ symbol := (hsymbol.symbol_bounds hobtained.writable.legal).1
    have hle := hleast 257 hdrop
    simp only [weight, hmatches, List.length_singleton] at hle
    obtain rfl : symbol = 257 := by omega
    rw [htokens] at hspelled
    exact ⟨b, c, eb, hobtained, hc, hspelled, hbits⟩

end CodedBlock

end DeflateRecoder
