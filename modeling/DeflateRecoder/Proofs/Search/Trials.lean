import DeflateRecoder.Proofs.Block.Basic
import DeflateRecoder.Proofs.Block.TableChanges
import DeflateRecoder.Search.Trials

/-!
# Candidates are as good as the block

Every candidate that is weighed against a block refines it: it stands for the same bytes and is
well-formed wherever the block is (`Block.sound_trials`). Each list of trials gets this from the
operations it is made with and from the lists inside it.
-/

namespace DeflateRecoder

/-- A block stands for the same bytes as another one, and is well-formed wherever the other is. -/
structure Block.Refines (b c : Block) : Prop where
  bytes_eq : c.bytes = b.bytes
  wellFormed : ∀ w, b.WellFormed w → c.WellFormed w

namespace Block.Refines

/-- A block refines itself. -/
theorem refl (b : Block) : b.Refines b := ⟨rfl, fun _ => id⟩

/-- What refines a block that refines another one refines that. -/
theorem trans {a b c : Block} (hb : a.Refines b) (hc : b.Refines c) : a.Refines c :=
  ⟨hc.bytes_eq.trans hb.bytes_eq, fun w h => hc.wellFormed w (hb.wellFormed w h)⟩

/-- Coded blocks refine each other as blocks. -/
theorem coded {a b : CodedBlock} (h : a.Refines b) : (Block.coded a).Refines (.coded b) :=
  ⟨h.bytes_eq, h.wellFormed⟩

end Block.Refines

/-! ## Lists of trials -/

/-- The candidate of a trial refines a block, and a failure is told as a detail. -/
def Trial.Sound (b : Block) : Trial → Prop
  | offer _ c => b.Refines c
  | failed reason => reason.level = .trace

/-- The candidates of all trials refine a block, and all failures are told as details. -/
def SoundTrials (b : Block) (trials : List Trial) : Prop := ∀ t ∈ trials, t.Sound b

section

variable {b c : Block} {trials more : List Trial}

/-- An empty list of trials is sound. -/
theorem soundTrials_nil (b : Block) : SoundTrials b [] := by
  intro t ht
  cases ht

/-- A sound trial may be put in front. -/
theorem SoundTrials.cons {t : Trial} (ht : t.Sound b) (h : SoundTrials b trials) :
    SoundTrials b (t :: trials) := List.forall_mem_cons.2 ⟨ht, h⟩

/-- Sound trials may be put together. -/
theorem SoundTrials.append (h : SoundTrials b trials) (k : SoundTrials b more) :
    SoundTrials b (trials ++ more) := List.forall_mem_append.2 ⟨h, k⟩

/-- What refines a candidate refines the block. -/
theorem SoundTrials.of_refines (hc : b.Refines c) (h : SoundTrials c trials) :
    SoundTrials b trials := by
  intro t ht
  have := h t ht
  cases t with
  | offer attempt d => exact hc.trans this
  | failed reason => exact this

/-- Trials with what was made are sound if they are where it could be made. Otherwise the failure is
told. -/
theorem soundTrials_trialsOf {α : Type} {result : Except Error α} {f : α → List Trial}
    (h : ∀ a, result = .ok a → SoundTrials b (f a)) : SoundTrials b (trialsOf result f) := by
  cases result with
  | error e => exact soundTrials_nil b
  | ok a => exact h a rfl

/-- The trials with each of some values are sound together. -/
theorem soundTrials_flatMap {α : Type} {l : List α} {f : α → List Trial}
    (h : ∀ a ∈ l, SoundTrials b (f a)) : SoundTrials b (l.flatMap f) := by
  intro t ht
  obtain ⟨a, ha, ht⟩ := List.mem_flatMap.1 ht
  exact h a ha t ht

/-- Sound trials may be made under a condition. -/
theorem soundTrials_ite {p : Prop} [Decidable p] (h : SoundTrials b trials) :
    SoundTrials b (if p then trials else []) := by
  split
  · exact h
  · exact soundTrials_nil b

end

/-! ## Candidates for a coded block -/

namespace CodedBlock

/-- However many rounds of giving up matches there are, the block is refined. -/
theorem shrink_refines {b c : CodedBlock} (e : b.shrink = .ok c) : b.Refines c := by
  fun_induction shrink b with
  | case1 => cases e
  | case2 b next hnext _ ih => exact (recodePruned_refines hnext).trans (ih e)
  | case3 =>
    cases e
    exact .refl _

/-- A header that is made smaller still refines the block. -/
theorem sound_headerTrial {b : CodedBlock} {packed : Except Error CodedBlock}
    (h : ∀ c, packed = .ok c → b.Refines c) : (headerTrial packed).Sound (.coded b) := by
  cases packed with
  | error e => rfl
  | ok c => exact .coded ((h c rfl).trans (tidyHeader_refines c))

/-- Headers by any rules, with and without the runs that save nothing, refine the block. -/
theorem sound_headerTrials (rules : List PackingRules) (b : CodedBlock) :
    SoundTrials (.coded b) (b.headerTrials rules) := by
  unfold headerTrials
  split
  · exact soundTrials_nil _
  · refine soundTrials_flatMap fun rule _ => ?_
    refine .cons (sound_headerTrial fun c hc => packHeader_refines hc) (.cons ?_
      (soundTrials_nil _))
    refine sound_headerTrial fun c hc => ?_
    obtain ⟨packed, hp, hc⟩ := bind_eq_ok.1 hc
    exact (packHeader_refines hp).trans (pruneHeader_refines hc)

/-- Headers for what refines a block and is made smaller refine it. -/
theorem sound_tidied {b c : CodedBlock} {rules : List PackingRules} (h : b.Refines c) :
    SoundTrials (.coded b) (c.tidy.1.headerTrials rules) :=
  .of_refines (.coded (h.trans (tidy_refines c))) (sound_headerTrials rules _)

/-- Optimal tables and tables for fewer matches, with any headers, refine the block. -/
theorem sound_tableTrials (rules : List PackingRules) (b : CodedBlock) :
    SoundTrials (.coded b) (b.tableTrials rules) := by
  refine .append (.append (sound_tidied (.refl b)) (soundTrials_trialsOf fun recoded hr =>
    sound_tidied (recode_refines hr))) (soundTrials_trialsOf fun pruned hp => ?_)
  have hpruned := recodePruned_refines hp
  exact .append (sound_tidied hpruned) (soundTrials_trialsOf fun least hl =>
    soundTrials_ite (sound_tidied (hpruned.trans (shrink_refines hl))))

/-- A block with another header, that block made smaller, and further tables for it. -/
theorem sound_offers {b c : CodedBlock} {rules : List PackingRules} {first second : Attempt}
    (h : b.Refines c) : SoundTrials (.coded b) (.offer first (.coded c) ::
      .offer second (.coded c.tidy.1) :: c.tableTrials rules) :=
  .cons (.coded h) (.cons (.coded (h.trans (tidy_refines c)))
    (.of_refines (.coded h) (sound_tableTrials rules c)))

/-- Another code for the header, fewer runs in it, or fewer length symbols: each refines the block,
with any tables. -/
theorem sound_refinements (rules : List PackingRules) (b : CodedBlock) :
    SoundTrials (.coded b) (b.refinements rules) := by
  refine .append (.append (soundTrials_trialsOf fun c hc => sound_offers (recodeHeader_refines hc))
    (soundTrials_trialsOf fun c hc => sound_offers (pruneHeader_refines hc))) ?_
  exact soundTrials_flatMap fun c hc =>
    .of_refines (.coded (withoutLengths_refines hc)) (sound_tableTrials rules c)

/-- What refines a block may be offered with everything that is made of it. -/
theorem sound_offered {b c : CodedBlock} {rules : List PackingRules} {attempt : Attempt}
    (h : b.Refines c) :
    SoundTrials (.coded b) (.offer attempt (.coded c) :: c.refinements rules) :=
  .cons (.coded h) (.of_refines (.coded h) (sound_refinements rules c))

/-- A block, and it with optimal tables or fewer matches, with everything made of these. -/
theorem sound_family (rules : List PackingRules) (b : CodedBlock) :
    SoundTrials (.coded b) (b.family rules) := by
  refine .append (.append (sound_offered (.refl b)) (soundTrials_trialsOf fun recoded hr =>
    sound_offered (recode_refines hr))) (soundTrials_trialsOf fun pruned hp => ?_)
  have hpruned := recodePruned_refines hp
  exact .append (sound_offered hpruned) (soundTrials_trialsOf fun least hl =>
    soundTrials_ite (sound_offered (hpruned.trans (shrink_refines hl))))

/-- The blocks that a search begins with, and everything made of them. -/
theorem sound_families (rules : List PackingRules) (triesFixed : Bool) {b base tidied : CodedBlock}
    (hbase : b.Refines base) (htidied : b.Refines tidied) :
    SoundTrials (.coded b) (families rules triesFixed base tidied) := by
  refine .append (.append (.append (.of_refines (.coded hbase) (sound_family rules base))
    (.of_refines (.coded htidied) (sound_family rules tidied))) (soundTrials_ite ?_)) ?_
  · exact .cons (.coded (hbase.trans (toFixed_refines base))) (soundTrials_nil _)
  · exact soundTrials_flatMap fun c hc =>
      .of_refines (.coded (hbase.trans (withoutLengths_refines hc))) (sound_family rules c)

/-- The bytes of a block in a stored one refine it. -/
theorem toStored?_refines {b : CodedBlock} {s : StoredBlock} (h : b.toStored? = some s) :
    (Block.coded b).Refines (.stored s) := by
  refine ⟨?_, fun w _ => trivial⟩
  unfold toStored? StoredBlock.ofBytes at h
  split at h
  · cases h
    rfl
  · cases h

/-- All trials with a coded block are sound. A fixed block is tried with optimal tables first. -/
theorem sound_trials (rules : List PackingRules) (b : CodedBlock) :
    SoundTrials (.coded b) (b.trials rules) := by
  have htidied := tidy_refines b
  refine .append (.append (soundTrials_ite (.cons (.coded htidied) (soundTrials_nil _))) ?_) ?_
  · cases hs : b.toStored? with
    | none => exact soundTrials_nil _
    | some s => exact .cons (toStored?_refines hs) (soundTrials_nil _)
  · split
    · exact sound_families rules true (.refl b) htidied
    · split
      · next base hbase =>
        have h := recode_refines hbase
        exact sound_families rules false h (h.trans (tidy_refines base))
      · exact .cons rfl (soundTrials_nil _)

end CodedBlock

/-! ## Candidates for any block -/

/-- All trials with a stored block are sound: its bytes as literals stand for the same. -/
theorem StoredBlock.sound_trials (rules : List PackingRules) (b : StoredBlock) :
    SoundTrials (.stored b) (b.trials rules) := by
  unfold trials
  split
  · next base hbase =>
    have h : (Block.stored b).Refines (.coded base) := by
      have hspec := fun w =>
        CodedBlock.wellFormed_ofTokens hbase (CodedBlock.body_literals w b.bytes)
      refine ⟨(hspec Window.empty).2.trans ?_, fun w _ => (hspec w).1⟩
      rw [tokenBytes_append, CodedBlock.tokenBytes_map_literal]
      exact List.append_nil _
    exact .cons (h.trans (.coded (CodedBlock.toFixed_refines base)))
      (.of_refines h (CodedBlock.sound_offered (.refl base)))
  · exact .cons rfl (soundTrials_nil _)

/-- The fixed tables are tried for a block with tables of its own. -/
theorem CodedBlock.offer_fixed_mem_trials {litlen dist : CodeTable} {header : TableHeader}
    (tokens : List Token) (bytes : List UInt8) (rules : List PackingRules) :
    .offer .fixed (.coded (.ofCoding .fixed tokens bytes)) ∈
      (CodedBlock.ofCoding (.dynamic litlen dist header) tokens bytes).trials rules := by
  rw [trials]
  refine List.mem_append_right _ ?_
  rw [ofCoding]
  dsimp only
  rw [families, if_pos rfl]
  exact List.mem_append_left _ (List.mem_append_right _ (List.mem_singleton.2 rfl))

/-- The fixed tables are tried for the bytes of a stored block. -/
theorem StoredBlock.offer_fixed_mem_trials (rules : List PackingRules) (b : StoredBlock) :
    .offer .fixed (.coded (.ofCoding .fixed (b.bytes.map .literal ++ [.endOfBlock]) b.bytes)) ∈
      b.trials rules := by
  have hclosed := (CodedBlock.body_literals Window.empty b.bytes).closed
  obtain ⟨base, hbase⟩ := CodedBlock.ofTokens_total hclosed
  have hbytes : tokenBytes (b.bytes.map .literal ++ [.endOfBlock]) = b.bytes := by
    rw [tokenBytes_append, CodedBlock.tokenBytes_map_literal]
    exact List.append_nil _
  rw [trials, hbase]
  rw [CodedBlock.ofTokens_closed hclosed, hbytes] at hbase
  obtain ⟨litlen, dist, header, -, -, -, rfl⟩ := CodedBlock.encode_eq_ok hbase
  exact List.mem_cons_self ..

/-- All candidates for a block refine it. -/
theorem Block.sound_trials (rules : List PackingRules) (b : Block) :
    SoundTrials b (b.trials rules) := by
  cases b with
  | stored b => exact b.sound_trials rules
  | coded b => exact CodedBlock.sound_trials rules b

end DeflateRecoder
