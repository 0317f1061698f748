import DeflateRecoder.Proofs.Block.HeaderChanges

/-!
# Headers changed again and again

The operations that change a header can follow each other in any order, and none of them fails. Each
refines the header (`TableHeader.Rewriting.apply_refines`), so a whole sequence does
(`TableHeader.rewrite_total`), and a header that was packed or read stands for the same code lengths
after it (`TableHeader.StandsFor`). What an operation leaves out or spells out it does not find
again: made a second time it changes nothing (`trim_trim`, `expandRuns_expandRuns`).
-/

namespace DeflateRecoder

namespace TableHeader

/-- An operation that changes a header. -/
inductive Rewriting
  /-- Transmitted lengths that are not needed are left out. -/
  | trim
  /-- Runs that cost more than their lengths are spelled out. -/
  | expandRuns (ties : Bool)
  /-- The symbols get an optimal code. -/
  | recode
  deriving DecidableEq, Repr

/-- The header that an operation gives. -/
def Rewriting.apply (h : TableHeader) : Rewriting → Except Error TableHeader
  | .trim => .ok h.trim.1
  | .expandRuns ties => .ok (h.expandRuns ties).1
  | .recode => h.recode

/-- The header that operations give, one after the other. -/
def rewrite (h : TableHeader) (rewritings : List Rewriting) : Except Error TableHeader :=
  rewritings.foldlM Rewriting.apply h

/-! ## One change -/

/-- Each operation on a header refines it. -/
theorem Rewriting.apply_refines {h k : TableHeader} {r : Rewriting} (e : r.apply h = .ok k) :
    h.Refines k := by
  cases r with
  | trim =>
    cases e
    exact trim_refines h
  | expandRuns ties =>
    cases e
    exact expandRuns_refines ties h
  | recode => exact recode_refines e

/-- No operation on a header fails. -/
theorem Rewriting.apply_total (h : TableHeader) (r : Rewriting) : ∃ k, r.apply h = .ok k := by
  cases r with
  | trim | expandRuns => exact ⟨_, rfl⟩
  | recode => exact ofSymbols_total _ _ _

/-! ## One change after the other -/

/-- Operations in any order succeed, and refine a header. -/
theorem rewrite_total (h : TableHeader) (rewritings : List Rewriting) :
    ∃ k, h.rewrite rewritings = .ok k ∧ h.Refines k := by
  refine foldlM_total (P := fun _ => True) Refines.refl Refines.trans (fun _ r => ?_) rewritings
    trivial
  obtain ⟨k, e⟩ := r.apply_total _
  exact ⟨k, e, Rewriting.apply_refines e, trivial⟩

/-! ## The same change twice -/

/-- Nothing more is left out of what was already cut short. -/
theorem neededCount_neededCount (code : CodeTable) (n : Nat) :
    neededCount code (neededCount code n) = neededCount code n := by
  induction n with
  | zero => rfl
  | succ n ih =>
    by_cases hskip : 4 ≤ n ∧ code.lengthOf (transmissionOrder.getD n 0) = 0
    · simp only [neededCount, if_pos hskip, ih]
    · simp only [neededCount, if_neg hskip]

/-- There is nothing left to leave out. -/
theorem trim_trim (h : TableHeader) : h.trim.1.trim = (h.trim.1, 0) := by
  simp [trim, neededCount_neededCount]

/-- What stands in the place of a symbol is not spelled out once more. -/
theorem expansion?_of_mem_spellRun {code : CodeTable} {ties : Bool} {s t : LengthSymbol}
    (ht : t ∈ spellRun code ties s) : expansion? code ties t = none := by
  unfold spellRun at ht
  split at ht
  · rw [List.eq_of_mem_replicate ht]
    simp [expansion?, LengthSymbol.isRun]
  · next hnone =>
    rw [List.mem_singleton.1 ht]
    exact Option.not_isSome_iff_eq_none.1 hnone

/-- A header without runs that are worth spelling out stays as it is. -/
theorem expandRuns_of_none {h : TableHeader} {ties : Bool}
    (hnone : ∀ s ∈ h.symbols, expansion? h.code ties s = none) : h.expandRuns ties = (h, 0) :=
  if_neg (not_any_isSome_iff.2 hnone)

/-- There is nothing left to spell out. -/
theorem expandRuns_expandRuns (ties : Bool) (h : TableHeader) :
    (h.expandRuns ties).1.expandRuns ties = ((h.expandRuns ties).1, 0) := by
  refine expandRuns_of_none ?_
  by_cases hany : (h.symbols.any fun s => (expansion? h.code ties s).isSome) = true
  · have hspelled : (h.expandRuns ties).1.symbols = h.symbols.flatMap (spellRun h.code ties) ∧
        (h.expandRuns ties).1.code = h.code := by
      simp [expandRuns, hany]
    rw [hspelled.1, hspelled.2]
    intro t ht
    obtain ⟨s, -, ht⟩ := List.mem_flatMap.1 ht
    exact expansion?_of_mem_spellRun ht
  · have hsame : h.expandRuns ties = (h, 0) := if_neg hany
    rw [hsame]
    exact not_any_isSome_iff.1 hany

/-! ## What a header stands for -/

/-- A header stands for code lengths of literal/length symbols and of distance symbols: they are
what its symbols unpack to and what is read of its bits, and its size is right. -/
structure StandsFor (h : TableHeader) (litlen dist : List Nat) : Prop where
  unpack_eq : unpack h.symbols = .ok (litlen ++ dist)
  lengths_eq : h.lengths = (litlen, dist)
  /-- Writing puts as many bits as the size says. -/
  write : ∀ {w : BitWriter}, w.Valid → ∃ w', h.write w = .ok w' ∧ w.Puts w' h.bits ∧
    w'.bitLength = w.bitLength + h.bitSize
  /-- These bits are read as the same header, whatever comes behind them. -/
  read : ∀ {r : BitReader} {v : List Bool}, r.Valid → r.bits = h.bits ++ v → ∃ r',
    read r = .ok h r' ∧ r'.Valid ∧ r'.bits = v ∧ r'.position = r.position + h.bitSize
  trim_saved : h.trim.1.bitSize + h.trim.2 = h.bitSize
  trim_again : h.trim.1.trim = (h.trim.1, 0)
  expandRuns_saved : ∀ ties, (h.expandRuns ties).1.bitSize + (h.expandRuns ties).2 = h.bitSize
  expandRuns_again : ∀ ties, (h.expandRuns ties).1.expandRuns ties = ((h.expandRuns ties).1, 0)

/-- A well-formed header whose symbols are unpacked to two lists of lengths is read back as them,
whatever comes behind it. -/
theorem WellFormed.standsFor {h : TableHeader} {litlen dist : List Nat} (hw : h.WellFormed)
    (hu : unpack h.symbols = .ok (litlen ++ dist)) (hlen : litlen.length = h.litlenCount) :
    h.StandsFor litlen dist where
  unpack_eq := hu
  lengths_eq := TableHeader.lengths_eq hu hlen
  write := by
    intro w hv
    obtain ⟨w', e, hputs⟩ := puts_write hw hv
    refine ⟨w', e, hputs, ?_⟩
    rw [hputs.bitLength_eq, length_bits hw]
  read := by
    intro r v hr hbits
    obtain ⟨r', e, hr', hv, hposition⟩ := read_recognises.complete_position hr hbits ⟨hw, rfl⟩
    rw [length_bits hw] at hposition
    exact ⟨r', e, hr', hv, hposition⟩
  trim_saved := (trim_bitSize hw.bitSize_eq).2
  trim_again := trim_trim h
  expandRuns_saved := fun ties => (expandRuns_bitSize ties hw.bitSize_eq).2
  expandRuns_again := fun ties => expandRuns_expandRuns ties h

/-- Where headers for given code lengths come from: two tables that are packed, or bits. Tables of
any words will do, as long as there are neither too many nor too long ones. -/
inductive Origin : Except Error TableHeader → List Nat → List Nat → Prop
  | pack {litlen dist : CodeTable} (rules : PackingRules)
    (hlitlen : 257 ≤ litlen.size ∧ litlen.size ≤ 288) (hdist : 1 ≤ dist.size ∧ dist.size ≤ 32)
    (hle : ∀ n ∈ litlen.lengths ++ dist.lengths, n ≤ maxCodeLength) :
    Origin (pack litlen dist rules) litlen.lengths dist.lengths
  | read {r r' : BitReader} {h : TableHeader} (hr : r.Valid) (e : read r = .ok h r') :
    Origin (.ok h) h.lengths.1 h.lengths.2

/-- Headers that are packed or parsed are well-formed, and their symbols are unpacked to both lists
of lengths. -/
theorem Origin.wellFormed {start : Except Error TableHeader} {litlen dist : List Nat}
    (ho : Origin start litlen dist) : ∃ h, start = .ok h ∧ h.WellFormed ∧
      unpack h.symbols = .ok (litlen ++ dist) ∧ litlen.length = h.litlenCount := by
  cases ho with
  | @pack litlen dist rules hlitlen hdist hle =>
    obtain ⟨h, e⟩ := ofSymbols_total litlen.size dist.size
      (DeflateRecoder.pack rules (litlen.lengths ++ dist.lengths))
    have ht := transmits_of_pack e hle hlitlen hdist
    exact ⟨h, e, ht.wellFormed, ht.unpack_eq, by rw [CodeTable.length_lengths, ht.litlen_size]⟩
  | @read r r' h hr e =>
    obtain ⟨-, -, -, -, hw, -⟩ := read_recognises.sound hr e
    obtain ⟨hu, hlen, -⟩ := hw.unpack_lengths
    exact ⟨h, rfl, hw, hu, hlen⟩

/-- Headers that are packed or read can be changed by operations in any order without an error, and
go on standing for the same code lengths. -/
theorem rewrite_standsFor {start : Except Error TableHeader} {litlen dist : List Nat}
    (ho : Origin start litlen dist) (rewritings : List Rewriting) :
    ∃ h k, start = .ok h ∧ h.rewrite rewritings = .ok k ∧ k.StandsFor litlen dist := by
  obtain ⟨h, hstart, hw, hu, hlen⟩ := ho.wellFormed
  obtain ⟨k, e, hk⟩ := rewrite_total h rewritings
  refine ⟨h, k, hstart, e, (hk.wellFormed hw).standsFor ?_ ?_⟩
  · rw [hk.unpack_eq hw, hu]
  · rw [hlen, hk.litlenCount_eq]

/-- The fixed tables, packed without copies and then changed in every way. -/
theorem rewrite_standsFor_fixed : ∃ h k,
    pack CodeTable.fixedLitlen CodeTable.fixedDist { noCopies := true } = .ok h ∧
      h.rewrite [.expandRuns true, .trim, .recode, .expandRuns false, .trim, .trim] = .ok k ∧
      k.StandsFor CodeTable.fixedLitlen.lengths CodeTable.fixedDist.lengths :=
  rewrite_standsFor
    (.pack { noCopies := true } (by rw [CodeTable.size_fixedLitlen]; decide)
      (by rw [CodeTable.size_fixedDist]; decide)
      (List.forall_mem_append.2
        ⟨CodeTable.canonical_fixedLitlen.le_of_mem, CodeTable.canonical_fixedDist.le_of_mem⟩)) _

end TableHeader

end DeflateRecoder
