import DeflateRecoder.Block.Basic
import DeflateRecoder.Proofs.Block.Rewriting

/-!
# Sizes that are kept right

Headers and blocks carry their sizes with them, and operations take off what they save instead of
counting anew. `CodedBlock.ExactSizes` says what is meant by keeping the books right: the sizes
are those that counting gives, writing takes as many bits, what an operation says it saved is the
old size less the new one, and no difference on the way there is below zero. For this last part
`saveStep?` is the step of the books that refuses such differences. `CodedBlock.sizes_exact`
shows it for all blocks that reading, tokens, changes and joins give (`CodedBlock.Obtained`).
-/

namespace DeflateRecoder

/-! ## Savings without a difference below zero -/

section

variable {α : Type} {worth : α → Option (Nat × Nat)} {oldCost newCost : α → Nat} {l : List α}

/-- The step that `saveStep` takes, if neither of its differences is below zero. -/
def saveStep? (worth : α → Option (Nat × Nat)) (sizes : Nat × Nat) (a : α) : Option (Nat × Nat) :=
  match worth a with
  | some (cost, total) =>
    if cost ≤ sizes.1 ∧ total ≤ cost then some (saveStep worth sizes a) else none
  | none => some (saveStep worth sizes a)

/-- Where nothing is worth a change, the sizes stay. -/
theorem foldl_saveStep_of_none (h : ∀ a ∈ l, worth a = none) (sizes : Nat × Nat) :
    l.foldl (saveStep worth) sizes = sizes := by
  induction l with
  | nil => rfl
  | cons a l ih =>
    rw [List.foldl_cons, saveStep, h a List.mem_cons_self]
    exact ih fun b hb => h b (List.mem_cons_of_mem _ hb)

/-- A size that was counted from the parts covers what is taken off it, part by part. -/
theorem foldlM_saveStep? (h : ∀ a ∈ l, Replaces worth oldCost newCost a) (c saved : Nat) :
    l.foldlM (saveStep? worth) (c + total oldCost l, saved) =
      some (l.foldl (saveStep worth) (c + total oldCost l, saved)) := by
  induction l generalizing c saved with
  | nil => rfl
  | cons a l ih =>
    have hl := ih fun b hb => h b (List.mem_cons_of_mem _ hb)
    rw [List.foldlM_cons, List.foldl_cons, total_cons]
    rcases h a List.mem_cons_self with ⟨hw, hle⟩ | ⟨hw, -⟩
    · have hstep : saveStep worth (c + (oldCost a + total oldCost l), saved) a =
          (c + newCost a + total oldCost l, saved + (oldCost a - newCost a)) := by
        rw [saveStep, hw]
        refine Prod.ext ?_ rfl
        dsimp only
        omega
      rw [saveStep?, hw]
      dsimp only
      rw [if_pos ⟨by omega, hle⟩, hstep]
      exact hl _ _
    · have hstep : saveStep worth (c + (oldCost a + total oldCost l), saved) a =
          (c + oldCost a + total oldCost l, saved) := by
        rw [saveStep, hw, Nat.add_assoc]
      rw [saveStep?, hw]
      dsimp only
      rw [hstep]
      exact hl _ _

end

/-! ## Headers -/

namespace TableHeader

/-- The size of a header is right, and so is what its operations take off it. -/
structure ExactSizes (h : TableHeader) : Prop where
  bitSize_eq : h.bitSize = h.recount
  trim_saved : h.trim.1.bitSize + h.trim.2 = h.bitSize
  expandRuns_saved : ∀ ties, (h.expandRuns ties).1.bitSize + (h.expandRuns ties).2 = h.bitSize
  expandRuns_steps : ∀ ties,
    h.symbols.foldlM (saveStep? (expansion? h.code ties)) (h.bitSize, 0) =
      some ((h.expandRuns ties).1.bitSize, (h.expandRuns ties).2)

/-- Size and savings of a header whose runs are spelled out are added up over its symbols, also when
none of them goes. -/
theorem sizes_expandRuns (ties : Bool) (h : TableHeader) :
    ((h.expandRuns ties).1.bitSize, (h.expandRuns ties).2) =
      h.symbols.foldl (saveStep (expansion? h.code ties)) (h.bitSize, 0) := by
  unfold expandRuns
  dsimp only
  split
  · rfl
  · next hnone => exact (foldl_saveStep_of_none (not_any_isSome_iff.1 hnone) _).symm

/-- A header whose size was counted keeps it right. -/
theorem exactSizes {h : TableHeader} (hsize : h.bitSize = h.recount) : h.ExactSizes where
  bitSize_eq := hsize
  trim_saved := (trim_bitSize hsize).2
  expandRuns_saved := fun ties => (expandRuns_bitSize ties hsize).2
  expandRuns_steps := fun ties => by
    rw [sizes_expandRuns, hsize]
    exact foldlM_saveStep? (fun s _ => replaces_spellRun h.code ties s) (14 + 3 * h.orderCount) 0

/-- A header that is cut short keeps a size that is right. -/
theorem exactSizes_trim {h : TableHeader} (hsize : h.bitSize = h.recount) : h.trim.1.ExactSizes :=
  exactSizes (trim_bitSize hsize).1

end TableHeader

/-! ## Blocks -/

namespace CodedBlock

/-- The size of a block is right wherever it stands, it is written in so many bits, and what its
operations take off it is right as well. -/
structure ExactSizes (b : CodedBlock) : Prop where
  bitSize_eq : ∀ position, (Block.coded b).bitSize position = b.recount
  header : ∀ header, b.header? = some header → header.ExactSizes ∧ header.trim.1.ExactSizes
  write : ∀ (position : Nat) (w : BitWriter), w.Valid → ∃ w' bits, b.write w = .ok w' ∧
    w.Puts w' bits ∧ bits.length = (Block.coded b).bitSize position
  expandMatches_saved : ∀ ties,
    (b.expandMatches ties).1.bitSize + (b.expandMatches ties).2 = b.bitSize
  expandMatches_steps : ∀ ties,
    b.tokens.foldlM (saveStep? (expansion? b.litlen b.dist ties)) (b.tokenBits, 0) =
      some ((b.expandMatches ties).1.tokenBits, (b.expandMatches ties).2)
  tidyHeader_saved : b.tidyHeader.1.bitSize + b.tidyHeader.2 = b.bitSize
  tidy_saved : b.tidy.1.bitSize + b.tidy.2 = b.bitSize
  giveUp_growth : ∀ use ∈ b.droppable, ((b.giveUp use).tokenBits : Int) = b.tokenBits + use.growth

/-- The size that a writable block's header keeps is right. -/
theorem Writable.header_bitSize {b : CodedBlock} (h : b.Writable) {header : TableHeader}
    (hheader : b.header? = some header) : header.bitSize = header.recount :=
  ((header?_spec h.coding).2 header hheader).1.bitSize_eq

/-- The size that a writable block keeps is what counting its header and its tokens again gives. -/
theorem Writable.bitSize_eq {b : CodedBlock} (h : b.Writable) : b.bitSize = b.recount := by
  rw [bitSize, recount, h.tokenBits_eq]
  cases hheader : b.header? with
  | none => rfl
  | some header => exact congrArg (· + _) (h.header_bitSize hheader)

/-- Size and savings of a block whose matches are spelled out are added up over its tokens, also
when none of them goes. -/
theorem sizes_expandMatches (ties : Bool) (b : CodedBlock) :
    ((b.expandMatches ties).1.tokenBits, (b.expandMatches ties).2) =
      b.tokens.foldl (saveStep (expansion? b.litlen b.dist ties)) (b.tokenBits, 0) := by
  unfold expandMatches
  dsimp only
  split
  · rfl
  · next hnone => exact (foldl_saveStep_of_none (not_any_isSome_iff.1 hnone) _).symm

/-- Spelling out matches leaves the header alone. -/
theorem header?_expandMatches (ties : Bool) (b : CodedBlock) :
    (b.expandMatches ties).1.header? = b.header? := by
  unfold expandMatches
  dsimp only
  split <;> rfl

/-- What is reported as saved by spelling out matches is the difference in size. -/
theorem expandMatches_saved {b : CodedBlock}
    (hsize : b.tokenBits = tokensCost b.litlen b.dist b.tokens) (ties : Bool) :
    (b.expandMatches ties).1.bitSize + (b.expandMatches ties).2 = b.bitSize := by
  have hsaved := (expandMatches_tokenBits ties hsize).2
  rw [bitSize, bitSize, header?_expandMatches]
  omega

/-- What is reported as saved in the header is the difference in size. -/
theorem tidyHeader_saved {b : CodedBlock} (h : b.Writable) :
    b.tidyHeader.1.bitSize + b.tidyHeader.2 = b.bitSize := by
  obtain ⟨coding, tokens, tokenBits, bytes⟩ := b
  cases coding with
  | fixed => rfl
  | dynamic litlen dist header =>
    have hsize := h.header_bitSize rfl
    have htrim := (TableHeader.exactSizes hsize).trim_saved
    have hexpand := (TableHeader.exactSizes_trim hsize).expandRuns_saved false
    show (header.trim.1.expandRuns false).1.bitSize + tokenBits +
      (header.trim.2 + (header.trim.1.expandRuns false).2) = header.bitSize + tokenBits
    omega

/-- What is reported as saved in tokens and header is the difference in size, since the savings add
up. -/
theorem tidy_saved {b : CodedBlock} (h : b.Writable) :
    b.tidy.1.bitSize + b.tidy.2 = b.bitSize := by
  unfold tidy
  split
  · rfl
  · have hexpand := expandMatches_saved h.tokenBits_eq false
    have htidied := tidyHeader_saved ((expandMatches_refines false b).writable h)
    dsimp only
    omega

/-- A block that can be written keeps its books right. -/
theorem Writable.exactSizes {b : CodedBlock} (h : b.Writable) : b.ExactSizes where
  bitSize_eq := fun _ => h.bitSize_eq
  header := fun _ hheader =>
    ⟨TableHeader.exactSizes (h.header_bitSize hheader),
      TableHeader.exactSizes_trim (h.header_bitSize hheader)⟩
  write := fun _ w hv => by
    obtain ⟨w', e, p⟩ := puts_write h hv
    exact ⟨w', b.bits, e, p, length_bits h⟩
  expandMatches_saved := expandMatches_saved h.tokenBits_eq
  expandMatches_steps := fun ties => by
    have hfold := foldlM_saveStep? (l := b.tokens)
      (fun t _ => replaces_spellMatch b.litlen b.dist ties t) 0 0
    rw [Nat.zero_add, ← tokensCost, ← h.tokenBits_eq] at hfold
    rw [sizes_expandMatches, hfold]
  tidyHeader_saved := tidyHeader_saved h
  tidy_saved := tidy_saved h
  giveUp_growth := fun use huse => by
    rw [h.tokenBits_eq, ← (giveUp_tokens huse).2]
    exact congrArg Int.ofNat ((giveUp_refines huse).writable h).tokenBits_eq

/-! ## Blocks however they come up -/

/-- The blocks that reading gives, behind any window, and tokens, changes and joins in any order. -/
inductive Obtained : CodedBlock → Prop
  | read {kind : BlockKind} {window : Window} {r r' : BitReader} {b : CodedBlock} (hr : r.Valid)
    (e : read kind window r = .ok b r') : Obtained b
  | ofTokens {tokens : List Token} {b : CodedBlock} (hlegal : ∀ t ∈ tokens, t.Legal)
    (e : ofTokens tokens = .ok b) : Obtained b
  | rewriting {b c : CodedBlock} (hb : Obtained b) (r : Rewriting) (e : r.apply b = .ok c) :
    Obtained c
  | append {a b c : CodedBlock} (ha : Obtained a) (hb : Obtained b) (e : a.append b = .ok c) :
    Obtained c

/-- A block made of tokens that the format has can be written. -/
theorem writable_ofTokens {tokens : List Token} {b : CodedBlock}
    (hlegal : ∀ t ∈ tokens, t.Legal) (e : ofTokens tokens = .ok b) : b.Writable := by
  unfold ofTokens at e
  split at e
  · next hlast => exact writable_encode e (List.mem_of_getLast? hlast) hlegal
  · cases e

/-- Two blocks that can be written can be written as one. -/
theorem writable_append {a b c : CodedBlock} (ha : a.Writable) (hb : b.Writable)
    (e : a.append b = .ok c) : c.Writable := by
  refine writable_encode e (List.mem_append_right _ hb.ends) fun t ht => ?_
  rcases List.mem_append.1 ht with ht | ht
  · exact ha.legal t (List.mem_filter.1 ht).1
  · exact hb.legal t ht

/-- Appending a block that can be written succeeds, since the end of that one is left. -/
theorem append_total (a : CodedBlock) {b : CodedBlock} (hb : b.Writable) :
    ∃ c, a.append b = .ok c :=
  encode_total (List.mem_append_right _ hb.ends) _

/-- Every block that can be obtained can be written, by induction on the way to it. -/
theorem Obtained.writable {b : CodedBlock} (h : Obtained b) : b.Writable := by
  induction h with
  | read hr e => exact (wellFormed_of_read hr e).writable
  | ofTokens hlegal e => exact writable_ofTokens hlegal e
  | rewriting _ r e ih => exact (Rewriting.apply_refines e).writable ih
  | append _ _ e iha ihb => exact writable_append iha ihb e

/-- All blocks that come up keep their books right, and so does any header whose size is counted
when it is built and that is trimmed then. -/
theorem sizes_exact {b : CodedBlock} (h : Obtained b) :
    b.ExactSizes ∧ ∀ litlenCount distCount orderCount code symbols,
      (TableHeader.ofParts litlenCount distCount orderCount code symbols).ExactSizes :=
  ⟨h.writable.exactSizes, fun _ _ _ _ _ => TableHeader.exactSizes rfl⟩

/-- A block of a match and one of a literal, joined, and what is left of them without the symbol of
the match. -/
theorem sizes_exact_append :
    ∃ a b c d, ofTokens [.literal 65, .copy 3 1 [65, 65, 65], .endOfBlock] = .ok a ∧
      ofTokens [.literal 66, .endOfBlock] = .ok b ∧ a.append b = .ok c ∧
      Rewriting.apply c (.dropLength .cheapest) = .ok d ∧ d.bitSize = d.recount := by
  have hmatch : ∀ t ∈ [Token.literal 65, .copy 3 1 [65, 65, 65], .endOfBlock], t.Legal :=
    List.forall_mem_cons.2 ⟨trivial, List.forall_mem_cons.2
      ⟨⟨by decide, by decide, by decide, by decide⟩, List.forall_mem_singleton.2 trivial⟩⟩
  have hliteral : ∀ t ∈ [Token.literal 66, .endOfBlock], t.Legal :=
    List.forall_mem_cons.2 ⟨trivial, List.forall_mem_singleton.2 trivial⟩
  obtain ⟨a, ea⟩ := ofTokens_total ⟨[.literal 65, .copy 3 1 [65, 65, 65]], rfl, by decide⟩
  obtain ⟨b, eb⟩ := ofTokens_total ⟨[.literal 66], rfl, by decide⟩
  have ha : Obtained a := .ofTokens hmatch ea
  have hb : Obtained b := .ofTokens hliteral eb
  obtain ⟨c, ec⟩ := append_total a hb.writable
  have hc : Obtained c := .append ha hb ec
  obtain ⟨d, ed⟩ := Rewriting.apply_total hc.writable (.dropLength .cheapest)
  exact ⟨a, b, c, d, ea, eb, ec, ed, (sizes_exact (.rewriting hc _ ed)).1.bitSize_eq 0⟩

end CodedBlock

end DeflateRecoder
