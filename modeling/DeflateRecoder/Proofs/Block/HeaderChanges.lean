import DeflateRecoder.Proofs.Block.Header
import DeflateRecoder.Proofs.Code.TreeLimit

/-!
# Headers that stand for the same code lengths

A header refines another one when it stands for the same code lengths and is well-formed if the
other is (`TableHeader.Refines`). Leaving out lengths that are not needed, spelling out runs and
deriving a new code all refine a header, and a packed header stands for the tables it was packed
from (`TableHeader.transmits_of_pack`). A code can always be derived (`TableHeader.ofSymbols_total`).
-/

namespace DeflateRecoder

/-- Two steps give a value just when the first does and the second does from what the first gave. -/
theorem bind_eq_ok {α β : Type} {x : Except Error α} {f : α → Except Error β} {b : β} :
    x >>= f = .ok b ↔ ∃ a, x = .ok a ∧ f a = .ok b := by
  cases x with
  | error e => exact ⟨nofun, nofun⟩
  | ok a =>
    refine ⟨fun h => ⟨a, rfl, h⟩, ?_⟩
    rintro ⟨_, ⟨⟩, h⟩
    exact h

/-- Steps that do not fail from where the ones before them lead do not fail one after the other, and
what each of them keeps is kept by all. -/
theorem foldlM_total {α β : Type} {f : α → β → Except Error α} {P : α → Prop} {R : α → α → Prop}
    (hrefl : ∀ a, R a a) (htrans : ∀ {a b c}, R a b → R b c → R a c)
    (hstep : ∀ {a}, P a → ∀ x, ∃ b, f a x = .ok b ∧ R a b ∧ P b) (l : List β) {a : α} (ha : P a) :
    ∃ b, l.foldlM f a = .ok b ∧ R a b := by
  induction l generalizing a with
  | nil => exact ⟨a, rfl, hrefl a⟩
  | cons x l ih =>
    obtain ⟨b, e, hab, hb⟩ := hstep ha x
    obtain ⟨c, e', hbc⟩ := ih hb
    refine ⟨c, ?_, htrans hab hbc⟩
    rw [List.foldlM_cons, e]
    exact e'

/-- An entry is replaced at a known gain, or it keeps its cost. -/
def Replaces {α : Type} (worth : α → Option (Nat × Nat)) (oldCost newCost : α → Nat) (a : α) :
    Prop :=
  worth a = some (oldCost a, newCost a) ∧ newCost a ≤ oldCost a ∨
    worth a = none ∧ newCost a = oldCost a

/-- Replacing entries of a list by cheaper ones takes the difference off a size that was counted
from the old ones, and adds it to what is saved. -/
theorem foldl_savings {α : Type} {worth : α → Option (Nat × Nat)} {oldCost newCost : α → Nat}
    {l : List α} (h : ∀ a ∈ l, Replaces worth oldCost newCost a) (c saved : Nat) :
    ∃ gain, total newCost l + gain = total oldCost l ∧
      l.foldl (saveStep worth) (c + total oldCost l, saved) = (c + total newCost l, saved + gain) := by
  induction l generalizing c saved with
  | nil => exact ⟨0, rfl, rfl⟩
  | cons a l ih =>
    have hl := ih fun b hb => h b (List.mem_cons_of_mem _ hb)
    rw [List.foldl_cons, saveStep, total_cons, total_cons]
    rcases h a List.mem_cons_self with ⟨hw, hle⟩ | ⟨hw, heq⟩
    · rw [hw]
      obtain ⟨gain, hsum, hfold⟩ := hl (c + newCost a) (saved + (oldCost a - newCost a))
      refine ⟨oldCost a - newCost a + gain, by omega, ?_⟩
      dsimp only
      rw [show c + (oldCost a + total oldCost l) - oldCost a + newCost a =
        c + newCost a + total oldCost l by omega, hfold, Nat.add_assoc, Nat.add_assoc]
    · rw [hw, heq]
      obtain ⟨gain, hsum, hfold⟩ := hl (c + oldCost a) saved
      refine ⟨gain, by omega, ?_⟩
      dsimp only
      rw [← Nat.add_assoc, hfold, Nat.add_assoc]

namespace TableHeader

/-- A header stands for the same code lengths as another one, and is as good. -/
structure Refines (h k : TableHeader) : Prop where
  wellFormed : h.WellFormed → k.WellFormed
  litlenCount_eq : k.litlenCount = h.litlenCount
  distCount_eq : k.distCount = h.distCount
  unpack_eq : h.WellFormed → unpack k.symbols = unpack h.symbols

/-- A header refines itself. -/
theorem Refines.refl (h : TableHeader) : h.Refines h := ⟨id, rfl, rfl, fun _ => rfl⟩

/-- What refines a header that refines another one refines that. -/
theorem Refines.trans {h k l : TableHeader} (hk : h.Refines k) (kl : k.Refines l) :
    h.Refines l where
  wellFormed := fun hw => kl.wellFormed (hk.wellFormed hw)
  litlenCount_eq := kl.litlenCount_eq.trans hk.litlenCount_eq
  distCount_eq := kl.distCount_eq.trans hk.distCount_eq
  unpack_eq := fun hw => (kl.unpack_eq (hk.wellFormed hw)).trans (hk.unpack_eq hw)

/-! ## Leaving out transmitted lengths -/

/-- No more lengths are needed than were sent. -/
theorem neededCount_le (code : CodeTable) (n : Nat) : neededCount code n ≤ n := by
  induction n with
  | zero => exact Nat.le_refl _
  | succ n ih =>
    rw [neededCount]
    split
    · exact Nat.le_succ_of_le ih
    · exact Nat.le_refl _

/-- What is not needed is all zeros. -/
theorem neededCount_spec (code : CodeTable) (n : Nat) : (4 ≤ n → 4 ≤ neededCount code n) ∧
    ∀ i s, neededCount code n ≤ i → i < n → transmissionOrder[i]? = some s →
      code.lengthOf s = 0 := by
  induction n with
  | zero => exact ⟨id, fun i s _ hi => absurd hi (Nat.not_lt_zero i)⟩
  | succ n ih =>
    obtain ⟨h₁, h₂⟩ := ih
    rw [neededCount]
    split
    · next hskip =>
      refine ⟨fun _ => h₁ hskip.1, fun i s hle hlt hs => ?_⟩
      rcases Nat.lt_or_eq_of_le (Nat.le_of_lt_succ hlt) with hlt | rfl
      · exact h₂ i s hle hlt hs
      · have hd := hskip.2
        rw [List.getD_eq_getElem?_getD, hs] at hd
        exact hd
    · exact ⟨id, fun i s hle hlt => absurd hlt (Nat.not_lt.2 hle)⟩

/-- What is left out is taken off the size of a header, and no more. -/
theorem trim_bitSize {h : TableHeader} (hsize : h.bitSize = h.recount) :
    h.trim.1.bitSize = h.trim.1.recount ∧ h.trim.1.bitSize + h.trim.2 = h.bitSize := by
  have hle := neededCount_le h.code h.orderCount
  rw [recount] at hsize
  rw [trim, recount]
  dsimp only
  omega

/-- Leaving out code lengths that are zero and at the end keeps what the header stands for. -/
theorem trim_refines (h : TableHeader) : h.Refines h.trim.1 where
  litlenCount_eq := rfl
  distCount_eq := rfl
  unpack_eq := fun _ => rfl
  wellFormed := fun hw => by
    obtain ⟨hge, hzero⟩ := neededCount_spec h.code h.orderCount
    refine { hw with
      orderCount_ge := hge hw.orderCount_ge
      orderCount_le := Nat.le_trans (neededCount_le _ _) hw.orderCount_le
      left_out := ?_
      bitSize_eq := (trim_bitSize hw.bitSize_eq).1 }
    intro s hs
    obtain ⟨j, hj⟩ := List.mem_iff_getElem?.1 hs
    rw [List.getElem?_drop] at hj
    rcases Nat.lt_or_ge (neededCount h.code h.orderCount + j) h.orderCount with hlt | hge
    · exact hzero _ s (Nat.le_add_right _ _) hlt hj
    · refine hw.left_out s (List.mem_iff_getElem?.2
        ⟨neededCount h.code h.orderCount + j - h.orderCount, ?_⟩)
      rw [List.getElem?_drop, Nat.add_sub_cancel' hge]
      exact hj

/-! ## Spelling out runs -/

/-- A symbol stays, or it is a run that is spelled out by lengths that have words. -/
def Spelled (code : CodeTable) (s : LengthSymbol) (ss : List LengthSymbol) : Prop :=
  ss = [s] ∨ ss = List.replicate s.count (.length s.value) ∧ 0 < code.lengthOf s.value

/-- Spelling a run out by lengths changes nothing about what follows it. -/
theorem unpackAfter_flatMap {code : CodeTable} {f : LengthSymbol → List LengthSymbol}
    {previous : Option Nat} {symbols : List LengthSymbol} {lengths : List Nat}
    (hf : ∀ s ∈ symbols, Spelled code s (f s)) (h : unpackAfter previous symbols = .ok lengths) :
    unpackAfter previous (symbols.flatMap f) = .ok lengths := by
  induction symbols generalizing previous lengths with
  | nil => exact h
  | cons s symbols ih =>
    obtain ⟨hp, rest, hrest, rfl⟩ := unpackAfter_cons_eq_ok.1 h
    have hone : unpackAfter previous (f s) = .ok s.expand := by
      rcases hf s List.mem_cons_self with hs | ⟨hs, -⟩
      · rw [hs]
        exact unpackAfter_cons_eq_ok.2 ⟨hp, [], rfl, (List.append_nil _).symm⟩
      · rw [hs]
        exact unpackAfter_replicate previous s.count s.value
    have hnext : s.expand.getLast?.or previous =
        if s.count = 0 then previous else some s.value := by
      rw [getLast?_expand]
      split <;> rfl
    rw [List.flatMap_cons, unpackAfter_append hone, hnext,
      ih (fun s hs => hf s (List.mem_cons_of_mem _ hs)) hrest]
    rfl

/-- Spelling out runs by lengths that have words refines a header. -/
theorem refines_of_spelled {h : TableHeader} {f : LengthSymbol → List LengthSymbol} {bits : Nat}
    (hf : ∀ s ∈ h.symbols, Spelled h.code s (f s))
    (hbits : h.bitSize = h.recount →
      bits = 14 + 3 * h.orderCount + total (LengthSymbol.cost · h.code) (h.symbols.flatMap f)) :
    h.Refines { h with symbols := h.symbols.flatMap f, bitSize := bits } where
  litlenCount_eq := rfl
  distCount_eq := rfl
  unpack_eq := fun hw => by
    obtain ⟨lengths, hu, -⟩ := hw.unpacks
    rw [hu]
    exact unpackAfter_flatMap hf hu
  wellFormed := fun hw => by
    have hall : ∀ s ∈ h.symbols.flatMap f, s.Legal ∧ 0 < h.code.lengthOf s.symbol := by
      intro t ht
      obtain ⟨s, hs, ht⟩ := List.mem_flatMap.1 ht
      rcases hf s hs with h' | ⟨h', hcode⟩
      · rw [h', List.mem_singleton] at ht
        rw [ht]
        exact ⟨hw.legal s hs, hw.coded s hs⟩
      · rw [h'] at ht
        rw [List.eq_of_mem_replicate ht]
        exact ⟨⟨trivial, (hw.legal s hs).value_le⟩, hcode⟩
    obtain ⟨lengths, hu, hlen⟩ := hw.unpacks
    exact { hw with
      legal := fun s hs => (hall s hs).1
      coded := fun s hs => (hall s hs).2
      unpacks := ⟨lengths, unpackAfter_flatMap hf hu, hlen⟩
      bitSize_eq := hbits hw.bitSize_eq }

/-- Where spelling out a run is worth it, its value has a word, and the two sizes are those of the
run and of what replaces it. -/
theorem expansion?_eq_some {code : CodeTable} {ties : Bool} {s : LengthSymbol} {a b : Nat}
    (h : expansion? code ties s = some (a, b)) :
    0 < code.lengthOf s.value ∧ a = s.cost code ∧ b = code.lengthOf s.value * s.count ∧ b ≤ a := by
  unfold expansion? at h
  dsimp only at h
  split at h
  · cases h
  · next hw =>
    rw [Bool.or_eq_true, not_or, beq_iff_eq] at hw
    split at h
    · next hcheap =>
      cases h
      simp only [Bool.or_eq_true, Bool.and_eq_true, decide_eq_true_eq, beq_iff_eq] at hcheap
      exact ⟨Nat.pos_of_ne_zero hw.2, rfl, rfl, by omega⟩
    · cases h

/-- A length so many times costs its word so many times. -/
theorem total_cost_replicate (code : CodeTable) (n value : Nat) :
    total (LengthSymbol.cost · code) (List.replicate n (.length value)) =
      code.lengthOf value * n := by
  rw [total_replicate, Nat.mul_comm]
  rfl

/-- What is counted as the price of a symbol when runs are spelled out is what its replacement
costs. -/
theorem replaces_spellRun (code : CodeTable) (ties : Bool) (s : LengthSymbol) :
    Replaces (expansion? code ties) (·.cost code)
      (fun s => total (LengthSymbol.cost · code) (spellRun code ties s)) s := by
  cases hs : expansion? code ties s with
  | none =>
    have hcost : total (LengthSymbol.cost · code) (spellRun code ties s) = s.cost code := by
      rw [spellRun, hs]
      exact Nat.zero_add _
    exact .inr ⟨hs, hcost⟩
  | some ab =>
    obtain ⟨a, b⟩ := ab
    obtain ⟨-, rfl, rfl, hle⟩ := expansion?_eq_some hs
    have hcost : total (LengthSymbol.cost · code) (spellRun code ties s) =
        code.lengthOf s.value * s.count := by
      rw [spellRun, hs]
      exact total_cost_replicate code s.count s.value
    rw [← hcost] at hs hle
    exact .inl ⟨hs, hle⟩

/-- Where runs are spelled out, what is in the place of a symbol stands for the same lengths. -/
theorem spelled_spellRun (code : CodeTable) (ties : Bool) (s : LengthSymbol) :
    Spelled code s (spellRun code ties s) := by
  unfold spellRun
  split
  · next hsome =>
    obtain ⟨⟨a, b⟩, hab⟩ := Option.isSome_iff_exists.1 hsome
    exact .inr ⟨rfl, (expansion?_eq_some hab).1⟩
  · exact .inl rfl

/-- Spelling out runs takes the bits that are saved off the size of a header, and no more. -/
theorem expandRuns_bitSize (ties : Bool) {h : TableHeader} (hsize : h.bitSize = h.recount) :
    (h.expandRuns ties).1.bitSize = (h.expandRuns ties).1.recount ∧
      (h.expandRuns ties).1.bitSize + (h.expandRuns ties).2 = h.bitSize := by
  unfold expandRuns
  dsimp only
  split
  · obtain ⟨gain, hsum, hfold⟩ := foldl_savings (l := h.symbols)
      (fun s _ => replaces_spellRun h.code ties s) (14 + 3 * h.orderCount) 0
    rw [recount] at hsize
    rw [hsize, hfold, recount]
    dsimp only
    rw [total_flatMap]
    exact ⟨rfl, by omega⟩
  · exact ⟨hsize, rfl⟩

/-- Spelling out the runs that cost more than their lengths refines a header. -/
theorem expandRuns_refines (ties : Bool) (h : TableHeader) : h.Refines (h.expandRuns ties).1 := by
  have hsize := @expandRuns_bitSize ties h
  unfold expandRuns at hsize ⊢
  dsimp only at hsize ⊢
  split
  · next hany =>
    rw [if_pos hany] at hsize
    exact refines_of_spelled (fun s _ => spelled_spellRun h.code ties s) fun hbits =>
      (hsize hbits).1
  · exact .refl h

/-! ## New codes -/

/-- There are words enough for all symbols of the alphabet of code lengths. -/
theorem ofSymbols_total (litlenCount distCount : Nat) (symbols : List LengthSymbol) :
    ∃ h, ofSymbols litlenCount distCount symbols = .ok h := by
  obtain ⟨code, e⟩ : ∃ code, lengthCode symbols = .ok code :=
    CodeTable.ofWeights_total (by simp) (by simp)
  rw [ofSymbols, e]
  exact ⟨_, rfl⟩

/-- A header made of symbols has these symbols and the counts that were given. -/
theorem parts_of_ofSymbols {litlenCount distCount : Nat} {symbols : List LengthSymbol}
    {h : TableHeader} (e : ofSymbols litlenCount distCount symbols = .ok h) :
    h.litlenCount = litlenCount ∧ h.distCount = distCount ∧ h.symbols = symbols := by
  obtain ⟨code, -, e⟩ := bind_eq_ok.1 e
  cases e
  exact ⟨rfl, rfl, rfl⟩

/-- Symbols that stand for enough code lengths make a header under the code derived for them. -/
theorem wellFormed_ofSymbols {litlenCount distCount : Nat} {symbols : List LengthSymbol}
    {h : TableHeader} {lengths : List Nat} (e : ofSymbols litlenCount distCount symbols = .ok h)
    (hlitlen : 257 ≤ litlenCount ∧ litlenCount ≤ 288) (hdist : 1 ≤ distCount ∧ distCount ≤ 32)
    (hlegal : ∀ s ∈ symbols, s.Legal) (hu : unpack symbols = .ok lengths)
    (hlen : lengths.length = litlenCount + distCount) : h.WellFormed := by
  obtain ⟨code, hcode, e⟩ := bind_eq_ok.1 e
  cases e
  obtain ⟨hc, hsize, hle, hpos⟩ := CodeTable.ofWeights_spec (by decide) hcode
  refine (trim_refines _).wellFormed ⟨hlitlen.1, hlitlen.2, hdist.1, hdist.2,
    (by decide : 4 ≤ 19), Nat.le_refl 19, hc, ?_, hle, ?_, hlegal, ?_, ⟨lengths, hu, hlen⟩, rfl⟩
  · exact hsize.trans (length_tally _ _)
  · intro s hs
    cases hs
  · intro s hs
    obtain ⟨w, hw, hwpos⟩ := tally_pos (hlegal s hs).symbol_lt
      (List.mem_map_of_mem (f := LengthSymbol.symbol) hs)
    exact hpos _ w hw hwpos

/-- The symbols of a header under the code derived for them refine it. -/
theorem recode_refines {h k : TableHeader} (e : h.recode = .ok k) : h.Refines k := by
  obtain ⟨hlitlen, hdist, hsymbols⟩ := parts_of_ofSymbols e
  refine ⟨fun hw => ?_, hlitlen, hdist, fun _ => by rw [hsymbols]⟩
  obtain ⟨lengths, hu, hlen⟩ := hw.unpacks
  exact wellFormed_ofSymbols e ⟨hw.litlenCount_ge, hw.litlenCount_le⟩
    ⟨hw.distCount_ge, hw.distCount_le⟩ hw.legal hu hlen

/-- The header stands for the code lengths of two tables. -/
structure Transmits (h : TableHeader) (litlen dist : CodeTable) : Prop where
  wellFormed : h.WellFormed
  litlen_size : litlen.size = h.litlenCount
  dist_size : dist.size = h.distCount
  unpack_eq : unpack h.symbols = .ok (litlen.lengths ++ dist.lengths)

/-- A header that refines one for two tables is one for them too. -/
theorem Transmits.of_refines {h k : TableHeader} {litlen dist : CodeTable}
    (ht : h.Transmits litlen dist) (hk : h.Refines k) : k.Transmits litlen dist where
  wellFormed := hk.wellFormed ht.wellFormed
  litlen_size := ht.litlen_size.trans hk.litlenCount_eq.symm
  dist_size := ht.dist_size.trans hk.distCount_eq.symm
  unpack_eq := (hk.unpack_eq ht.wellFormed).trans ht.unpack_eq

/-- A packed header stands for the tables it was packed from. -/
theorem transmits_of_pack {litlen dist : CodeTable} {rules : PackingRules} {h : TableHeader}
    (e : pack litlen dist rules = .ok h)
    (hle : ∀ n ∈ litlen.lengths ++ dist.lengths, n ≤ maxCodeLength)
    (hlitlen : 257 ≤ litlen.size ∧ litlen.size ≤ 288) (hdist : 1 ≤ dist.size ∧ dist.size ≤ 32) :
    h.Transmits litlen dist := by
  obtain ⟨hls, hds, hs⟩ := parts_of_ofSymbols e
  have hu := unpack_pack rules (litlen.lengths ++ dist.lengths)
  have hw := wellFormed_ofSymbols e hlitlen hdist (legal_pack rules hle) hu (by simp)
  exact ⟨hw, hls.symm, hds.symm, by rw [hs, hu]⟩

end TableHeader

end DeflateRecoder
