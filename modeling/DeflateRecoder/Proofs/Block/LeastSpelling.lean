import DeflateRecoder.Proofs.Block.Accounting
import Mathlib.Data.List.Basic

/-!
# Spelling out at least cost

Any of the matches of a block could be spelled out, as long as their bytes have words
(`CodedBlock.Spelling`). Which of them are spelled out is decided for each match by itself, and
`CodedBlock.expandMatches_least` says that this is a best choice of all: under the tables of the
block no other one costs less. Among those of least cost it is the one that keeps the most matches,
or with ties spelled out the fewest (`CodedBlock.Preferred`). A second time there is nothing left to
spell out.
-/

namespace DeflateRecoder

namespace CodedBlock

/-- Tokens some of whose matches are spelled out, each by literals that have words. -/
inductive Spelling (litlen : CodeTable) : List Token → List Token → Prop
  | nil : Spelling litlen [] []
  | cons {t : Token} {ts tokens spelled : List Token} (ht : Spelled litlen t ts)
      (h : Spelling litlen tokens spelled) : Spelling litlen (t :: tokens) (ts ++ spelled)

/-- The number of matches. -/
def matchCount (tokens : List Token) : Nat := tokens.countP Token.isCopy

/-- Tokens cost less than others, or they cost the same and have no fewer matches, or with `ties` no
more. -/
def Preferred (litlen dist : CodeTable) (ties : Bool) (tokens others : List Token) : Prop :=
  tokensCost litlen dist tokens < tokensCost litlen dist others ∨
    tokensCost litlen dist tokens = tokensCost litlen dist others ∧
      if ties then matchCount tokens ≤ matchCount others else matchCount others ≤ matchCount tokens

variable {litlen dist : CodeTable} {ties : Bool} {t : Token} {ts tokens : List Token}

/-- Spelling out token by token spells the whole. -/
theorem spelling_flatMap {f : Token → List Token} (hf : ∀ t ∈ tokens, Spelled litlen t (f t)) :
    Spelling litlen tokens (tokens.flatMap f) := by
  induction tokens with
  | nil => exact .nil
  | cons t tokens ih =>
    obtain ⟨ht, htokens⟩ := List.forall_mem_cons.1 hf
    rw [List.flatMap_cons]
    exact .cons ht (ih htokens)

/-- Tokens are not worse than themselves. -/
theorem Preferred.refl (tokens : List Token) : Preferred litlen dist ties tokens tokens :=
  .inr ⟨rfl, by split <;> exact Nat.le_refl _⟩

/-- Neither of two parts can make up for the other. -/
theorem Preferred.append {ts' tokens' : List Token} (h₁ : Preferred litlen dist ties ts ts')
    (h₂ : Preferred litlen dist ties tokens tokens') :
    Preferred litlen dist ties (ts ++ tokens) (ts' ++ tokens') := by
  simp only [Preferred, tokensCost, matchCount, total_append, List.countP_append] at *
  cases ties <;> simp only [Bool.false_eq_true, if_true, if_false] at * <;> omega

/-! ## One token -/

/-- One token costs what it does. -/
theorem tokensCost_singleton (t : Token) : tokensCost litlen dist [t] = t.cost litlen dist :=
  Nat.zero_add _

/-- There is no match left in what spells out a token. -/
theorem matchCount_spell (t : Token) : matchCount (spell t) = 0 := by
  rw [matchCount, List.countP_eq_zero, spell]
  intro s hs
  obtain ⟨byte, -, rfl⟩ := List.mem_map.1 hs
  exact Bool.false_ne_true

/-- A match is spelled out when its bytes have words and cost less than it does, or with `ties` as
much. -/
theorem expansion?_isSome_iff : (expansion? litlen dist ties t).isSome = true ↔
    t.isCopy = true ∧ (∀ byte ∈ t.bytes, 0 < litlen.lengthOf byte.toNat) ∧
      (tokensCost litlen dist (spell t) < t.cost litlen dist ∨
        ties = true ∧ tokensCost litlen dist (spell t) = t.cost litlen dist) := by
  rw [spell, tokensCost_map_literal, expansion?]
  by_cases hcopy : t.isCopy = true
  · rw [if_pos hcopy, and_iff_right hcopy]
    dsimp only
    rw [addLiteralCostWithin?_eq]
    by_cases hcodes : ∀ byte ∈ t.bytes, 0 < litlen.lengthOf byte.toNat
    · have hlit : addLiteralCost? litlen 0 t.bytes = some (total (litlen.lengthOf ·.toNat) t.bytes) :=
        addLiteralCost?_eq_some.2 ⟨hcodes, (Nat.zero_add _).symm⟩
      rw [hlit, and_iff_right hcodes]
      generalize total _ t.bytes = sum
      generalize t.cost litlen dist = cost
      by_cases hle : sum ≤ cost
      · cases ties <;> simp [Option.filter, hle]
        omega
      · simp [Option.filter, hle]
        omega
    · have hlit : addLiteralCost? litlen 0 t.bytes = none :=
        Option.eq_none_iff_forall_ne_some.2 fun _ h => hcodes (addLiteralCost?_eq_some.1 h).1
      rw [hlit]
      simp [hcodes]
  · simp [hcopy]

/-- What is put in the place of a token is preferred to anything else that could be. -/
theorem preferred_spellMatch (h : Spelled litlen t ts) :
    Preferred litlen dist ties (spellMatch litlen dist ties t) ts := by
  have hspell := matchCount_spell t
  unfold spellMatch
  by_cases hworth : (expansion? litlen dist ties t).isSome = true
  · rw [if_pos hworth]
    rcases h with rfl | ⟨-, rfl, -⟩
    · obtain ⟨-, -, hless | ⟨rfl, heq⟩⟩ := expansion?_isSome_iff.1 hworth
      · exact .inl (Nat.lt_of_lt_of_eq hless (tokensCost_singleton t).symm)
      · refine .inr ⟨heq.trans (tokensCost_singleton t).symm, ?_⟩
        rw [if_pos rfl, hspell]
        exact Nat.zero_le _
    · exact .refl _
  · rw [if_neg hworth]
    rcases h with rfl | ⟨hcopy, rfl, hcodes⟩
    · exact .refl _
    · have hnot := fun hless => hworth (expansion?_isSome_iff.2 ⟨hcopy, hcodes, hless⟩)
      rw [Preferred, tokensCost_singleton, hspell]
      cases ties <;> simp at hnot ⊢ <;> omega

/-- Once matches were spelled out where that is worth it, it is not worth it anywhere. -/
theorem expansion?_of_mem_spellMatch {s : Token} (hs : s ∈ spellMatch litlen dist ties t) :
    expansion? litlen dist ties s = none := by
  unfold spellMatch at hs
  split at hs
  · obtain ⟨byte, -, rfl⟩ := List.mem_map.1 hs
    rfl
  · next hnone =>
    rw [List.mem_singleton.1 hs]
    exact Option.not_isSome_iff_eq_none.1 hnone

/-! ## All tokens -/

/-- The literal/length table is part of the coding. -/
theorem litlen_of_coding {b c : CodedBlock} (h : c.coding = b.coding) : c.litlen = b.litlen := by
  rw [CodedBlock.litlen, h, ← CodedBlock.litlen]

/-- The distance table is part of the coding. -/
theorem dist_of_coding {b c : CodedBlock} (h : c.coding = b.coding) : c.dist = b.dist := by
  rw [CodedBlock.dist, h, ← CodedBlock.dist]

/-- Spelling out token by token what is worth it is preferred over any other spelling, by induction
on that one. -/
theorem preferred_flatMap {others : List Token} (h : Spelling litlen tokens others) :
    Preferred litlen dist ties (tokens.flatMap (spellMatch litlen dist ties)) others := by
  induction h with
  | nil => exact .refl []
  | cons ht _ ih =>
    rw [List.flatMap_cons]
    exact (preferred_spellMatch ht).append ih

/-- The tables and the bytes stay, and the tokens are replaced one by one, also when there is no
match to spell out. -/
theorem expandMatches_parts (ties : Bool) (b : CodedBlock) :
    (b.expandMatches ties).1.coding = b.coding ∧ (b.expandMatches ties).1.bytes = b.bytes ∧
      (b.expandMatches ties).1.tokens = b.tokens.flatMap (spellMatch b.litlen b.dist ties) := by
  unfold expandMatches
  dsimp only
  split
  · exact ⟨rfl, rfl, rfl⟩
  · next hnone =>
    refine ⟨rfl, rfl, ?_⟩
    have hkept : ∀ t ∈ b.tokens, spellMatch b.litlen b.dist ties t = [t] := fun t ht =>
      if_neg fun hworth => hnone (List.any_eq_true.2 ⟨t, ht, hworth⟩)
    rw [List.flatMap_congr hkept, List.flatMap_singleton']

/-- A block without matches that are worth spelling out stays as it is. -/
theorem expandMatches_of_none {b : CodedBlock}
    (hnone : ∀ t ∈ b.tokens, expansion? b.litlen b.dist ties t = none) :
    b.expandMatches ties = (b, 0) :=
  if_neg (not_any_isSome_iff.2 hnone)

/-- There is nothing left to spell out. -/
theorem expandMatches_expandMatches (ties : Bool) (b : CodedBlock) :
    (b.expandMatches ties).1.expandMatches ties = ((b.expandMatches ties).1, 0) := by
  obtain ⟨hcoding, -, htokens⟩ := expandMatches_parts ties b
  refine expandMatches_of_none fun s hs => ?_
  rw [htokens] at hs
  obtain ⟨t, -, hs⟩ := List.mem_flatMap.1 hs
  rw [litlen_of_coding hcoding, dist_of_coding hcoding]
  exact expansion?_of_mem_spellMatch hs

/-- Spelling out matches changes nothing but the tokens, leaves a choice of matches that is
preferred to any other, saves exactly what is said, and is done after one time. -/
theorem expandMatches_least (ties : Bool) {b : CodedBlock}
    (hsize : b.tokenBits = tokensCost b.litlen b.dist b.tokens) :
    let c := (b.expandMatches ties).1
    let saved := (b.expandMatches ties).2
    (c.coding = b.coding ∧ c.bytes = b.bytes ∧ tokenBytes c.tokens = tokenBytes b.tokens) ∧
      Spelling b.litlen b.tokens c.tokens ∧
      (∀ others, Spelling b.litlen b.tokens others →
        Preferred b.litlen b.dist ties c.tokens others) ∧
      c.tokenBits = tokensCost b.litlen b.dist c.tokens ∧ c.bitSize + saved = b.bitSize ∧
      c.expandMatches ties = (c, 0) := by
  intro c saved
  obtain ⟨hcoding, hbytes, htokens⟩ := expandMatches_parts ties b
  have hspelled : ∀ t ∈ b.tokens, Spelled b.litlen t (spellMatch b.litlen b.dist ties t) :=
    fun t _ => spelled_spellMatch b.litlen b.dist ties t
  refine ⟨⟨hcoding, hbytes, ?_⟩, ?_, fun others h => ?_, (expandMatches_tokenBits ties hsize).1,
    expandMatches_saved hsize ties, expandMatches_expandMatches ties b⟩
  · exact htokens ▸ tokenBytes_flatMap fun t ht => (hspelled t ht).tokenBytes_eq
  · exact htokens ▸ spelling_flatMap hspelled
  · exact htokens ▸ preferred_flatMap h

/-- A block that is put under tables keeps the size of its tokens under these. -/
theorem tokenBits_ofCoding (coding : Coding) (tokens : List Token) (bytes : List UInt8) :
    (ofCoding coding tokens bytes).tokenBits = tokensCost (ofCoding coding tokens bytes).litlen
      (ofCoding coding tokens bytes).dist (ofCoding coding tokens bytes).tokens := rfl

/-- Two matches from far away, of which the first costs what its bytes do and the second more. -/
theorem expandMatches_least_far :
    let b := ofCoding .fixed [.copy 3 16384 [65, 65, 65], .copy 3 32768 [65, 65, 65], .endOfBlock]
      [65, 65, 65, 65, 65, 65]
    b.tokenBits = tokensCost b.litlen b.dist b.tokens ∧
      (b.expandMatches false).1.tokens = [.copy 3 16384 [65, 65, 65], .literal 65, .literal 65,
        .literal 65, .endOfBlock] ∧
      ∀ others, Spelling b.litlen b.tokens others →
        Preferred b.litlen b.dist false (b.expandMatches false).1.tokens others := by
  intro b
  have hsize : b.tokenBits = tokensCost b.litlen b.dist b.tokens := tokenBits_ofCoding _ _ _
  exact ⟨hsize, by decide +kernel, (expandMatches_least false hsize).2.2.1⟩

end CodedBlock

end DeflateRecoder
