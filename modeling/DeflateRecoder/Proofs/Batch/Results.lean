import DeflateRecoder.Batch
import Mathlib.Data.List.Basic

/-!
# The results of a batch

A batch has one result for each stream, which is that of the stream alone, whatever the number of
threads is (`recode_threads`). `collect_perm` says that the results may arrive in any order, and
`optimiseAll_eq` that the workers' shares are all of the jobs.
-/

namespace DeflateRecoder

/-! ## The number of threads -/

/-- What is done with a stream does not depend on how many are worked on at a time. -/
theorem visit_threads (config : Config) (threads index position : Nat) (entries : List Entry) :
    visit { config with threads } index position entries = visit config index position entries := by
  fun_induction visit config index position entries with
  | case1 => rw [visit]
  | case2 index position e behind start size hempty ih => rw [visit, if_pos hempty, ih]
  | case3 index position e behind start size hempty events better hlt hsearch ih =>
    have hsearch : search { config with threads } e.block (position + openingBits) =
      (events, some ⟨better, hlt⟩) := hsearch
    rw [visit, if_neg hempty, hsearch]
    exact congrArg (Pass.afterChange _) ih
  | case4 index position e behind start size hempty events hsearch further merged rest hlt hmerge
      ih =>
    have hsearch : search { config with threads } e.block (position + openingBits) =
      (events, none) := hsearch
    have hmerge : mergeFront { config with threads } e.block (position + openingBits) behind =
      (further, some (merged, ⟨rest, hlt⟩)) := hmerge
    rw [visit, if_neg hempty, hsearch]
    dsimp only
    rw [hmerge]
    exact congrArg (Pass.afterChange _) ih
  | case5 index position e behind start size hempty events hsearch further hmerge ih =>
    have hsearch : search { config with threads } e.block (position + openingBits) =
      (events, none) := hsearch
    have hmerge : mergeFront { config with threads } e.block (position + openingBits) behind =
      (further, none) := hmerge
    rw [visit, if_neg hempty, hsearch]
    dsimp only
    rw [hmerge]
    exact congrArg (Pass.afterKeeping e _) ih

/-- Passes do not depend on how many streams are worked on at a time. -/
theorem settle_threads (config : Config) (threads pass : Nat) (entries : List Entry) :
    settle { config with threads } pass entries = settle config pass entries := by
  fun_induction settle config pass entries with
  | case1 pass entries p events hmore later ih =>
    unfold settle
    simp only [visit_threads]
    rw [dif_pos hmore, ih]
  | case2 pass entries p events hdone =>
    unfold settle
    simp only [visit_threads]
    rw [dif_neg hdone]

/-- Recoding a stream does not depend on how many are worked on at a time. -/
theorem recode_threads (config : Config) (threads : Nat) (bytes : List UInt8) :
    recode { config with threads } bytes = recode config bytes := by
  simp only [recode, Stream.optimise, settle_threads]

namespace Batch

/-! ## Collecting -/

/-- The results are in increasing order, each for another stream. -/
def InOrder (results : List Result) : Prop := results.Pairwise fun r s => r.index < s.index

/-- A result that is not there yet is put among the others, none of which goes. -/
theorem place_perm {r : Result} {results : List Result} (h : ∀ s ∈ results, s.index ≠ r.index) :
    (place r results).Perm (r :: results) := by
  induction results with
  | nil => exact List.Perm.refl _
  | cons s rest ih =>
    obtain ⟨hs, hrest⟩ := List.forall_mem_cons.1 h
    unfold place
    split
    · exact List.Perm.refl _
    · rw [if_neg (Ne.symm hs)]
      exact ((ih hrest).cons s).trans (.swap _ _ _)

/-- Results in the order of their inputs stay so when another one is put in its place. -/
theorem InOrder.place {r : Result} {results : List Result} (hr : ∀ s ∈ results, s.index ≠ r.index)
    (h : InOrder results) : InOrder (place r results) := by
  induction results with
  | nil => exact List.pairwise_singleton _ _
  | cons s rest ih =>
    obtain ⟨hs, hrest⟩ := List.forall_mem_cons.1 hr
    obtain ⟨hlater, hordered⟩ := List.pairwise_cons.1 h
    unfold Batch.place
    split
    · next hlt =>
      refine List.pairwise_cons.2 ⟨fun u hu => ?_, h⟩
      rcases List.mem_cons.1 hu with rfl | hu
      · exact hlt
      · exact Nat.lt_trans hlt (hlater u hu)
    · next hle =>
      rw [if_neg (Ne.symm hs)]
      refine List.pairwise_cons.2 ⟨fun u hu => ?_, ih hrest hordered⟩
      rcases List.mem_cons.1 ((place_perm hrest).mem_iff.1 hu) with rfl | hu
      · omega
      · exact hlater u hu

/-- Results that arrive one after the other end up in order, and none is lost. -/
theorem foldl_place {arrived results : List Result}
    (hnodup : ((arrived ++ results).map (·.index)).Nodup) (h : InOrder results) :
    InOrder (arrived.foldl (fun results r => place r results) results) ∧
      (arrived.foldl (fun results r => place r results) results).Perm (arrived ++ results) := by
  induction arrived generalizing results with
  | nil => exact ⟨h, List.Perm.refl _⟩
  | cons r arrived ih =>
    rw [List.cons_append, List.map_cons, List.nodup_cons] at hnodup
    obtain ⟨hnew, hnodup⟩ := hnodup
    have hr : ∀ s ∈ results, s.index ≠ r.index := fun s hs he =>
      hnew (List.mem_map.2 ⟨s, List.mem_append_right _ hs, he⟩)
    have hplace := place_perm hr
    have hmove : (arrived ++ place r results).Perm (r :: (arrived ++ results)) :=
      (hplace.append_left arrived).trans List.perm_middle
    rw [List.foldl_cons]
    have hnodup' : ((arrived ++ place r results).map (·.index)).Nodup :=
      (hmove.map _).nodup_iff.2 (List.nodup_cons.2 ⟨hnew, hnodup⟩)
    obtain ⟨hordered, hperm⟩ := ih hnodup' (h.place hr)
    exact ⟨hordered, hperm.trans hmove⟩

/-- There is one order only, so the same results in order are the same list. -/
theorem InOrder.eq_of_perm {k l : List Result} (hk : InOrder k) (hl : InOrder l) (h : k.Perm l) :
    k = l :=
  h.eq_of_pairwise (fun _ _ _ _ hlt hgt => absurd hlt (Nat.lt_asymm hgt)) hk hl

/-- All results, in whatever order they arrive, come out in order. -/
theorem collect_perm {arrived results : List Result} (h : InOrder results)
    (hperm : arrived.Perm results) : collect results.length arrived = .ok results := by
  have hnodup : (List.map Result.index (arrived ++ [])).Nodup := by
    rw [List.append_nil, (hperm.map Result.index).nodup_iff]
    exact (List.pairwise_map.2 h).imp Nat.ne_of_lt
  obtain ⟨hordered, hall⟩ := foldl_place hnodup List.Pairwise.nil
  rw [List.append_nil] at hall
  rw [collect, hordered.eq_of_perm h (hall.trans hperm)]
  exact if_pos rfl

/-! ## Jobs -/

/-- The result of a stream alone, in its place. -/
def resultOf (config : Config) (index : Nat) (input : List UInt8) : Result :=
  ⟨index, (recode config input).bytes, (recode config input).stats, "input"⟩

/-- The results of streams alone. -/
def resultsOf (config : Config) (inputs : List (List UInt8)) : List Result :=
  (jobs inputs).map (Job.run config)

/-- There is a result for each input. -/
theorem length_resultsOf (config : Config) (inputs : List (List UInt8)) :
    (resultsOf config inputs).length = inputs.length := by
  rw [resultsOf, jobs, List.length_map, List.length_map, List.length_zipIdx]

/-- The result at an index is that of the input at the index. -/
theorem getElem?_resultsOf (config : Config) (inputs : List (List UInt8)) (i : Nat) :
    (resultsOf config inputs)[i]? = inputs[i]?.map (resultOf config i) := by
  rw [resultsOf, jobs, List.getElem?_map, List.getElem?_map, List.getElem?_zipIdx, Option.map_map,
    Option.map_map, Nat.zero_add]
  rfl

/-- The results made one by one are in the order of their inputs. -/
theorem inOrder_resultsOf (config : Config) (inputs : List (List UInt8)) :
    InOrder (resultsOf config inputs) := by
  rw [InOrder, ← List.pairwise_map (f := Result.index) (R := (· < ·)), resultsOf, jobs,
    List.map_map, List.map_map]
  exact (List.zipIdx_map_snd 0 inputs).symm ▸ List.pairwise_lt_range'

/-! ## Shares -/

/-- There is always a worker. -/
theorem workerCount_pos (config : Config) (processors size : Nat) :
    0 < workerCount config processors size := by
  unfold workerCount
  dsimp only
  omega

/-- Elements dealt out by a number are all those with a small number. -/
theorem flatMap_filter_perm {α : Type} (key : α → Nat) (l : List α) (n : Nat) :
    ((List.range n).flatMap fun k => l.filter fun a => key a = k).Perm
      (l.filter fun a => key a < n) := by
  induction n with
  | zero => simp
  | succ n ih =>
    have hfront : (l.filter fun a => key a < n + 1).filter (fun a => key a < n) =
        l.filter fun a => key a < n := by
      rw [List.filter_filter]
      refine List.filter_congr fun a _ => ?_
      rw [← Bool.decide_and, decide_eq_decide]
      omega
    have hback : (l.filter fun a => key a < n + 1).filter (fun a => !decide (key a < n)) =
        l.filter fun a => key a = n := by
      rw [List.filter_filter]
      refine List.filter_congr fun a _ => ?_
      rw [← decide_not, ← Bool.decide_and, decide_eq_decide]
      omega
    have hsplit := List.filter_append_perm (fun a => decide (key a < n))
      (l.filter fun a => key a < n + 1)
    rw [hfront, hback] at hsplit
    rw [List.range_succ, List.flatMap_append, List.flatMap_singleton]
    exact (ih.append_right _).trans hsplit

/-- The workers' shares are all of the jobs. -/
theorem shares_perm {workers : Nat} (h : 0 < workers) (all : List Job) :
    ((List.range workers).flatMap fun worker => share workers worker all).Perm all := by
  have hperm := flatMap_filter_perm (fun job : Job => job.index % workers) all workers
  have hall : (all.filter fun job => job.index % workers < workers) = all :=
    List.filter_eq_self.2 fun job _ => decide_eq_true (Nat.mod_lt _ h)
  rwa [hall] at hperm

/-- Working on all inputs gives the results that are made of them one by one, whether or not there
are workers to share the inputs: the results are put in order as they come. -/
theorem optimiseAll_eq (config : Config) (processors : Nat) (inputs : List (List UInt8)) :
    optimiseAll config processors inputs = .ok (resultsOf config inputs) := by
  have hpos := workerCount_pos config processors inputs.length
  unfold optimiseAll
  dsimp only
  split
  · rfl
  · have hperm := (shares_perm hpos (jobs inputs)).map (Job.run config)
    rw [List.map_flatMap] at hperm
    have hcollect := collect_perm (inOrder_resultsOf config inputs) hperm
    rwa [length_resultsOf] at hcollect

end Batch

end DeflateRecoder
