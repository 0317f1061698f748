import DeflateRecoder.Proofs.Search.Merging
import Mathlib.Data.List.Flatten

/-!
# More rules never find less

A search that packs headers by more rules makes all the trials that a search by some of them makes,
in the same order, and others in between (`Block.trials_sublist`). Each list of trials gets this from
the lists inside it, down to the one place where headers are packed. So what is found with more
rules is no bigger (`best?_of_sublist`), for a block and for two that are merged
(`search_exhaustive_le`).
-/

namespace DeflateRecoder

/-! ## Lists of trials -/

section

variable {trials more : List Trial}

/-- Fewer trials with what was made are fewer trials, and none where it could not be made. -/
theorem trialsOf_sublist {α : Type} (result : Except Error α) {f g : α → List Trial}
    (h : ∀ a, (f a).Sublist (g a)) : (trialsOf result f).Sublist (trialsOf result g) := by
  cases result with
  | ok a => exact h a
  | error e => exact .slnil

/-- Fewer trials under a condition are fewer trials, and none where it does not hold. -/
theorem ite_trials_sublist {p : Prop} [Decidable p] (h : trials.Sublist more) :
    (if p then trials else []).Sublist (if p then more else []) := by
  split
  · exact h
  · exact .slnil

end

/-! ## Candidates for a coded block -/

namespace CodedBlock

variable {rules more : List PackingRules}

/-- Headers are packed by each rule on its own. -/
theorem headerTrials_sublist (h : rules.Sublist more) (b : CodedBlock) :
    (b.headerTrials rules).Sublist (b.headerTrials more) := by
  unfold headerTrials
  split
  · exact .slnil
  · exact h.flatMap _

/-- Tables are chosen in the same ways, each of them with headers by each rule. -/
theorem tableTrials_sublist (h : rules.Sublist more) (b : CodedBlock) :
    (b.tableTrials rules).Sublist (b.tableTrials more) := by
  have hheader := headerTrials_sublist h
  refine ((hheader _).append (trialsOf_sublist _ fun recoded => hheader _)).append ?_
  exact trialsOf_sublist _ fun pruned =>
    (hheader _).append (trialsOf_sublist _ fun least => ite_trials_sublist (hheader _))

/-- What is made of a block does not depend on the rules, and tables for it are tried by each of
them. -/
theorem refinements_sublist (h : rules.Sublist more) (b : CodedBlock) :
    (b.refinements rules).Sublist (b.refinements more) := by
  have htable := tableTrials_sublist h
  refine (List.Sublist.append (trialsOf_sublist _ fun recoded => ?_)
    (trialsOf_sublist _ fun pruned => ?_)).append (.flatMap_right _ fun c _ => htable c)
  · exact ((htable recoded).cons_cons _).cons_cons _
  · exact ((htable pruned).cons_cons _).cons_cons _

/-- A block, and it with optimal tables or fewer matches, is refined by each rule. -/
theorem family_sublist (h : rules.Sublist more) (b : CodedBlock) :
    (b.family rules).Sublist (b.family more) := by
  have hrefinements := fun c attempt =>
    (refinements_sublist h c).cons_cons (.offer attempt (.coded c))
  refine ((hrefinements b _).append
    (trialsOf_sublist _ fun recoded => hrefinements recoded _)).append ?_
  exact trialsOf_sublist _ fun pruned => (hrefinements pruned _).append
    (trialsOf_sublist _ fun least => ite_trials_sublist (hrefinements least _))

/-- The blocks that a search begins with do not depend on the rules. -/
theorem families_sublist (h : rules.Sublist more) (triesFixed : Bool) (base tidied : CodedBlock) :
    (families rules triesFixed base tidied).Sublist (families more triesFixed base tidied) :=
  (((family_sublist h base).append (family_sublist h tidied)).append (.refl _)).append
    (.flatMap_right _ fun c _ => family_sublist h c)

/-- A coded block is tried by each rule in the same ways. -/
theorem trials_sublist (h : rules.Sublist more) (b : CodedBlock) :
    (b.trials rules).Sublist (b.trials more) := by
  refine List.Sublist.append (.refl _) ?_
  cases b.coding with
  | dynamic litlen dist header => exact families_sublist h _ _ _
  | fixed =>
    dsimp only
    cases b.recode with
    | ok base => exact families_sublist h _ _ _
    | error e => exact .refl _

end CodedBlock

/-! ## Candidates for any block -/

/-- A stored block is put into literals, whatever the rules are, and that is refined by each of
them. -/
theorem StoredBlock.trials_sublist {rules more : List PackingRules} (h : rules.Sublist more)
    (b : StoredBlock) : (b.trials rules).Sublist (b.trials more) := by
  unfold trials
  split
  · next base _ => exact ((CodedBlock.refinements_sublist h base).cons_cons _).cons_cons _
  · exact .refl _

/-- All trials by some rules are made by more rules as well, in the same order. -/
theorem Block.trials_sublist {rules more : List PackingRules} (h : rules.Sublist more) (b : Block) :
    (b.trials rules).Sublist (b.trials more) := by
  cases b with
  | stored b => exact b.trials_sublist h
  | coded b => exact b.trials_sublist h

/-! ## What is found -/

section

variable {block : Block} {position : Nat} {trials more : List Trial}

/-- Among more trials something is found as well, and it is no bigger. -/
theorem best?_of_sublist (h : trials.Sublist more) {x : Smaller block position}
    (e : best? block position trials = some x) :
    ∃ y, best? block position more = some y ∧ y.1.bitSize position ≤ x.1.bitSize position := by
  have hx : ∃ attempt, .offer attempt x.1 ∈ more := by
    obtain ⟨before, attempt, behind, rfl, -⟩ := best?_firstSmallest e
    exact ⟨attempt, h.subset (List.mem_append_right _ (List.mem_cons_self ..))⟩
  obtain ⟨attempt, hx⟩ := hx
  cases hy : best? block position more with
  | none => exact absurd (best?_eq_none_iff.1 hy attempt x.1 hx) (Nat.not_le.2 x.2)
  | some y => exact ⟨y, rfl, (best?_firstSmallest hy).le hx⟩

end

section

variable {config thorough : Config} {position : Nat}

/-- With more rules, what the search leaves in the place of a block is no bigger. -/
theorem search_elim_le (h : config.rules.Sublist thorough.rules) (b : Block) :
    ((search thorough b position).2.elim b (·.1)).bitSize position ≤
      ((search config b position).2.elim b (·.1)).bitSize position := by
  cases hx : (search config b position).2 with
  | some x =>
    obtain ⟨y, hy, hle⟩ := best?_of_sublist (b.trials_sublist h) hx
    have hfound : (search thorough b position).2 = some y := hy
    rw [hfound]
    exact hle
  | none =>
    cases (search thorough b position).2 with
    | some y => exact Nat.le_of_lt y.2
    | none => exact Nat.le_refl _

/-- With more rules, one block is found in the place of two whenever it is with fewer, and it is no
bigger. -/
theorem mergeBlocks_of_sublist (h : config.rules.Sublist thorough.rules) {first second x : Block}
    (e : (mergeBlocks config first second position).2 = some x) :
    ∃ y, (mergeBlocks thorough first second position).2 = some y ∧
      y.bitSize position ≤ x.bitSize position := by
  unfold mergeBlocks at e ⊢
  split at e
  · cases e
  · cases e
  · next joined _ =>
    dsimp only at e ⊢
    have hle := @search_elim_le config thorough position h joined
    split at e
    · next hsmaller =>
      cases e
      exact ⟨_, if_pos (Nat.lt_of_le_of_lt hle hsmaller), hle⟩
    · cases e

/-- The default rules are the first of all rules. -/
theorem default_sublist_variants : [({} : PackingRules)].Sublist PackingRules.variants :=
  List.singleton_sublist.2 (List.mem_cons_self ..)

/-- A search that packs headers by all rules weighs every candidate that a search by the default ones
alone weighs, and whenever that one finds a block, it finds one that is no bigger. The same holds for
one block in the place of two. -/
theorem search_exhaustive_le (config : Config) (block : Block) (position : Nat) :
    let fast := { config with exhaustive := false }
    let thorough := { config with exhaustive := true }
    (search fast block position).1.Sublist (search thorough block position).1 ∧
      (∀ x, (search fast block position).2 = some x → ∃ y,
        (search thorough block position).2 = some y ∧
          y.1.bitSize position ≤ x.1.bitSize position) ∧
      ∀ next x, (mergeBlocks fast block next position).2 = some x → ∃ y,
        (mergeBlocks thorough block next position).2 = some y ∧
          y.bitSize position ≤ x.bitSize position := by
  intro fast thorough
  have hrules : fast.rules.Sublist thorough.rules := default_sublist_variants
  have htrials := block.trials_sublist hrules
  refine ⟨htrials.map _, fun x e => best?_of_sublist htrials e, fun next x e => ?_⟩
  exact mergeBlocks_of_sublist hrules e

/-- A smaller block is found for a stored byte, and one block for two literals in blocks of their own,
by the default rules alone and by all rules. -/
theorem search_exhaustive_le_several :
    let fast : Config := { exhaustive := false }
    let thorough : Config := { exhaustive := true }
    let byte : Block := .stored ⟨[65], by decide⟩
    (∃ x y : Smaller byte 3, (search fast byte 3).2 = some x ∧
      (search thorough byte 3).2 = some y ∧ y.1.bitSize 3 ≤ x.1.bitSize 3) ∧
    ∃ x y, (mergeBlocks fast (literalBlock 97) (literalBlock 98) 21).2 = some x ∧
      (mergeBlocks thorough (literalBlock 97) (literalBlock 98) 21).2 = some y ∧
      y.bitSize 21 ≤ x.bitSize 21 := by
  intro fast thorough byte
  constructor
  · obtain ⟨-, hsearch, -⟩ := search_exhaustive_le {} byte 3
    obtain ⟨x, hx⟩ := @StoredBlock.exists_search ⟨[65], by decide⟩
      (List.forall_mem_singleton.2 (by decide)) fast 3
    obtain ⟨y, hy, hle⟩ := hsearch x hx
    exact ⟨x, y, hx, hy, hle⟩
  · obtain ⟨-, -, hmerge⟩ := search_exhaustive_le {} (literalBlock 97) 21
    obtain ⟨x, hx⟩ := @mergeBlocks_literals fast 21 97 98 (by decide) (by decide)
    obtain ⟨y, hy, hle⟩ := hmerge (literalBlock 98) x hx
    exact ⟨x, y, hx, hy, hle⟩

end

end DeflateRecoder
