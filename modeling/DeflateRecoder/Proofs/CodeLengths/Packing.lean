import DeflateRecoder.CodeLengths.Packing
import DeflateRecoder.Proofs.Code.Tree

/-!
# Unpacking undoes packing

Whatever rules are followed, the symbols that `pack` spells code lengths with stand for these
lengths (`unpack_pack`) and have a spelling in bits (`legal_pack`). Symbols that stand for one value
unpack to as many copies as they count (`unpackAfter_of_value_eq`), and `unpackAfter_append` puts
runs together. Each symbol is one that the rules permit, and a copy repeats the length just before
it (`Packing`).
-/

namespace DeflateRecoder

/-! ## Legal symbols -/

/-- The counts that the bits behind a symbol can tell. -/
def LengthSymbol.CountLegal : LengthSymbol → Prop
  | length _ => True
  | copy count _ => 3 ≤ count ∧ count ≤ 6
  | zeros count => 3 ≤ count ∧ count ≤ 10
  | longZeros count => 11 ≤ count ∧ count ≤ 138

/-- A symbol that a header can hold. -/
structure LengthSymbol.Legal (s : LengthSymbol) : Prop where
  count_legal : s.CountLegal
  value_le : s.value ≤ maxCodeLength

namespace LengthSymbol.Legal

variable {s : LengthSymbol}

/-- A symbol stands for one length or more. -/
theorem count_pos (h : s.Legal) : 0 < s.count := by
  have hc := h.count_legal
  cases s with
  | length v => exact Nat.one_pos
  | copy c v => exact Nat.lt_of_lt_of_le (by decide) hc.1
  | zeros c => exact Nat.lt_of_lt_of_le (by decide) hc.1
  | longZeros c => exact Nat.lt_of_lt_of_le (by decide) hc.1

/-- There are 19 symbols. -/
theorem symbol_lt (h : s.Legal) : s.symbol < 19 := by
  have hv := h.value_le
  cases s with
  | length v => exact Nat.lt_of_le_of_lt hv (by decide)
  | copy c v => exact (by decide : 16 < 19)
  | zeros c => exact (by decide : 17 < 19)
  | longZeros c => exact (by decide : 18 < 19)

/-- The symbols of lengths are below those of runs. -/
theorem length_symbol_ne {v symbol : Nat} (h : (length v).Legal) (hs : maxCodeLength < symbol) :
    (length v).symbol ≠ symbol :=
  Nat.ne_of_lt (Nat.lt_of_le_of_lt h.value_le hs)

end LengthSymbol.Legal

/-- The rules let a symbol be used. -/
def PackingRules.Permits (rules : PackingRules) : LengthSymbol → Prop
  | .length _ => True
  | .copy _ _ => rules.noCopies = false
  | .zeros _ => rules.noZeros = false
  | .longZeros _ => rules.noLongZeros = false

/-! ## Unpacking -/

/-- A symbol that stands for a value of its own. -/
theorem unpackAfter_cons {previous : Option Nat} {s : LengthSymbol} {symbols : List LengthSymbol}
    (h : ∀ c v, s = .copy c v → previous = some v) :
    unpackAfter previous (s :: symbols) =
      (unpackAfter (if s.count = 0 then previous else some s.value) symbols).map
        (s.expand ++ ·) := by
  cases s with
  | length v => rfl
  | copy c v =>
    rw [h c v rfl]
    simp [unpackAfter]
    rfl
  | zeros c => rfl
  | longZeros c => rfl

/-- The first symbol of a sequence that can be unpacked repeats what was before it if it repeats
anything. -/
theorem previous_of_unpackAfter {previous : Option Nat} {s : LengthSymbol}
    {symbols : List LengthSymbol} {lengths : List Nat}
    (h : unpackAfter previous (s :: symbols) = .ok lengths) :
    ∀ c v, s = .copy c v → previous = some v := by
  rintro c v rfl
  cases previous with
  | none =>
    have hfail : Except.error Error.missingPreviousLength = Except.ok lengths := h
    cases hfail
  | some p =>
    by_cases hp : p = v
    · rw [hp]
    · have hfail : Except.error (Error.internal .runBreaksOff) = Except.ok lengths := by
        rw [← h]
        simp only [unpackAfter, ne_eq, hp, not_false_eq_true, if_true]
        rfl
      cases hfail

/-- Unpacking goes symbol by symbol: a copy must repeat the length before it, and what is behind
goes on from the last length so far. -/
theorem unpackAfter_cons_eq_ok {previous : Option Nat} {s : LengthSymbol}
    {symbols : List LengthSymbol} {lengths : List Nat} :
    unpackAfter previous (s :: symbols) = .ok lengths ↔
      (∀ c v, s = .copy c v → previous = some v) ∧ ∃ rest,
        unpackAfter (if s.count = 0 then previous else some s.value) symbols = .ok rest ∧
          lengths = s.expand ++ rest := by
  constructor
  · intro h
    have hp := previous_of_unpackAfter h
    rw [unpackAfter_cons hp] at h
    cases hrest : unpackAfter (if s.count = 0 then previous else some s.value) symbols with
    | error e =>
      rw [hrest] at h
      cases h
    | ok rest =>
      rw [hrest] at h
      cases h
      exact ⟨hp, rest, rfl, rfl⟩
  · rintro ⟨hp, rest, hrest, rfl⟩
    rw [unpackAfter_cons hp, hrest]
    rfl

/-- The last length that a symbol stands for is its value, if it stands for any. -/
theorem getLast?_expand (s : LengthSymbol) :
    s.expand.getLast? = if s.count = 0 then none else some s.value := by
  rw [LengthSymbol.expand, List.getLast?_replicate]

/-- What was before a symbol is before the others only if the symbol stands for nothing. -/
theorem getLast?_expand_append (previous : Option Nat) (s : LengthSymbol) (rest : List Nat) :
    (s.expand ++ rest).getLast?.or previous =
      rest.getLast?.or (if s.count = 0 then previous else some s.value) := by
  rw [List.getLast?_append, getLast?_expand, Option.or_assoc]
  split <;> rfl

/-- Sequences of symbols are unpacked one behind the other. -/
theorem unpackAfter_append {previous : Option Nat} {k l : List LengthSymbol} {as : List Nat}
    (h : unpackAfter previous k = .ok as) :
    unpackAfter previous (k ++ l) =
      (unpackAfter (as.getLast?.or previous) l).map (as ++ ·) := by
  induction k generalizing previous as with
  | nil =>
    cases h
    cases hl : unpackAfter previous l with
    | error e => rw [List.nil_append, hl, List.getLast?_nil, Option.none_or, hl]; rfl
    | ok bs => rw [List.nil_append, hl, List.getLast?_nil, Option.none_or, hl]; rfl
  | cons s k ih =>
    obtain ⟨hp, rest, hrest, rfl⟩ := unpackAfter_cons_eq_ok.1 h
    rw [List.cons_append, unpackAfter_cons hp, ih hrest, ← getLast?_expand_append]
    cases unpackAfter ((s.expand ++ rest).getLast?.or previous) l with
    | error e => rfl
    | ok bs =>
      show Except.ok (s.expand ++ (rest ++ bs)) = Except.ok (s.expand ++ rest ++ bs)
      rw [List.append_assoc]

/-- Symbols that are unpacked whatever comes before them can be appended. -/
theorem unpackAfter_append_ok {previous : Option Nat} {k l : List LengthSymbol} {as bs : List Nat}
    (hk : unpackAfter previous k = .ok as) (hl : ∀ p, unpackAfter p l = .ok bs) :
    unpackAfter previous (k ++ l) = .ok (as ++ bs) := by
  rw [unpackAfter_append hk, hl]
  rfl

/-- The first part of a sequence that can be unpacked can be unpacked, and the second behind it. -/
theorem exists_of_unpackAfter_append {previous : Option Nat} {k l : List LengthSymbol}
    {lengths : List Nat} (h : unpackAfter previous (k ++ l) = .ok lengths) :
    ∃ as bs, unpackAfter previous k = .ok as ∧
      unpackAfter (as.getLast?.or previous) l = .ok bs := by
  induction k generalizing previous lengths with
  | nil => exact ⟨[], lengths, rfl, h⟩
  | cons s k ih =>
    obtain ⟨hp, rest, hrest, -⟩ := unpackAfter_cons_eq_ok.1 h
    obtain ⟨as, bs, has, hbs⟩ := ih hrest
    refine ⟨s.expand ++ as, bs, unpackAfter_cons_eq_ok.2 ⟨hp, as, has, rfl⟩, ?_⟩
    rw [getLast?_expand_append]
    exact hbs

/-- Unpacked symbols stand for their own lengths, one after the other. -/
theorem eq_flatMap_expand {previous : Option Nat} {symbols : List LengthSymbol}
    {lengths : List Nat} (h : unpackAfter previous symbols = .ok lengths) :
    symbols.flatMap (·.expand) = lengths := by
  induction symbols generalizing previous lengths with
  | nil =>
    cases h
    rfl
  | cons s symbols ih =>
    obtain ⟨-, rest, hrest, rfl⟩ := unpackAfter_cons_eq_ok.1 h
    rw [List.flatMap_cons, ih hrest]

/-- In a sequence that can be unpacked a copy repeats the length just before it. -/
theorem getLast?_of_unpack_copy {before after : List LengthSymbol} {count value : Nat}
    {lengths : List Nat} (h : unpack (before ++ .copy count value :: after) = .ok lengths) :
    (before.flatMap (·.expand)).getLast? = some value := by
  obtain ⟨as, bs, has, hbs⟩ := exists_of_unpackAfter_append h
  rw [Option.or_none] at hbs
  rw [eq_flatMap_expand has]
  exact previous_of_unpackAfter hbs count value rfl

/-- Symbols for one value, which may repeat it when it is the one before them. -/
theorem unpackAfter_of_value_eq {previous : Option Nat} {v : Nat} {symbols : List LengthSymbol}
    (hv : ∀ s ∈ symbols, s.value = v)
    (hp : previous = some v ∨ ∀ s ∈ symbols, ∀ c w, s ≠ .copy c w) :
    unpackAfter previous symbols = .ok (List.replicate (total (·.count) symbols) v) := by
  induction symbols generalizing previous with
  | nil => rfl
  | cons s symbols ih =>
    have hs := hv s List.mem_cons_self
    have hcopy : ∀ c w, s = .copy c w → previous = some w := by
      rintro c w rfl
      rcases hp with hp | hp
      · rw [hp, ← hs]
        rfl
      · exact absurd rfl (hp _ List.mem_cons_self c w)
    have hrest := @ih (if s.count = 0 then previous else some s.value)
      (fun s h => hv s (List.mem_cons_of_mem _ h)) (by
        refine hp.imp (fun hp => ?_) fun hp s h => hp s (List.mem_cons_of_mem _ h)
        rw [hp, hs]
        split <;> rfl)
    rw [unpackAfter_cons hcopy, hrest, total_cons, ← List.replicate_append_replicate,
      LengthSymbol.expand, hs]
    rfl

/-! ## Pieces -/

/-- Cutting loses nothing, and the pieces have the lengths that were asked for. -/
theorem cut_spec {least most : Nat} (h : least ≤ most) (n : Nat) :
    total id (cut least most n).1 + (cut least most n).2 = n ∧
      ∀ m ∈ (cut least most n).1, least ≤ m ∧ m ≤ most := by
  fun_induction cut least most n with
  | case1 n hn pieces left hc ih =>
    obtain ⟨ih₁, ih₂⟩ := ih
    rw [hc] at ih₁ ih₂
    refine ⟨?_, ?_⟩
    · rw [total_cons]
      simp only [id_eq] at ih₁ ⊢
      omega
    · intro m hm
      rcases List.mem_cons.1 hm with rfl | hm
      · omega
      · exact ih₂ m hm
  | case2 n hn => exact ⟨Nat.zero_add n, by simp⟩

/-- Cutting copies loses nothing, and each piece can be told by two bits. -/
theorem cutCopies_spec (rules : PackingRules) (n : Nat) :
    total id (cutCopies rules n).1 + (cutCopies rules n).2 = n ∧
      ∀ m ∈ (cutCopies rules n).1, 3 ≤ m ∧ m ≤ 6 := by
  fun_induction cutCopies rules n with
  | case1 n first second hs =>
    -- Only seven and eight repetitions are split, which leaves enough for both copies.
    have hsplit : first + second = n ∧ (3 ≤ first ∧ first ≤ 6) ∧ 3 ≤ second ∧ second ≤ 6 := by
      unfold PackingRules.split? at hs
      split at hs
      · next h8 =>
        rw [Bool.and_eq_true, beq_iff_eq] at h8
        split at hs <;> cases hs <;> omega
      · split at hs
        · next h7 =>
          rw [Bool.and_eq_true, beq_iff_eq] at h7
          cases hs
          omega
        · cases hs
    refine ⟨?_, ?_⟩
    · rw [total_cons, total_cons, total_nil]
      exact hsplit.1
    · intro m hm
      simp only [List.mem_cons, List.not_mem_nil, or_false] at hm
      omega
  | case2 n hs hn pieces left hc ih =>
    obtain ⟨ih₁, ih₂⟩ := ih
    rw [hc] at ih₁ ih₂
    refine ⟨?_, ?_⟩
    · rw [total_cons]
      simp only [id_eq] at ih₁ ⊢
      omega
    · intro m hm
      rcases List.mem_cons.1 hm with rfl | hm
      · omega
      · exact ih₂ m hm
  | case3 n hs hn => exact ⟨Nat.zero_add n, by simp⟩

/-! ## Runs -/

/-- A value in front of runs is one more length in front. -/
theorem flatMap_consRun (value : Nat) (l : List (Nat × Nat)) :
    (consRun value l).flatMap (fun a => List.replicate a.2 a.1) =
      value :: l.flatMap fun a => List.replicate a.2 a.1 := by
  cases l with
  | nil => rfl
  | cons a l =>
    obtain ⟨v, n⟩ := a
    rw [consRun]
    by_cases hv : value = v
    · rw [if_pos hv, List.flatMap_cons, List.flatMap_cons, hv, List.replicate_succ]
      rfl
    · rw [if_neg hv, List.flatMap_cons]
      rfl

/-- The runs of a list make it up. -/
theorem flatMap_runs (values : List Nat) :
    (runs values).flatMap (fun a => List.replicate a.2 a.1) = values := by
  induction values with
  | nil => rfl
  | cons v values ih =>
    rw [runs, List.foldr_cons, ← runs, flatMap_consRun, ih]

/-- Runs have the values of the list. -/
theorem fst_mem_of_mem_runs {values : List Nat} {a : Nat × Nat} (h : a ∈ runs values) :
    a.1 ∈ values := by
  induction values generalizing a with
  | nil => cases h
  | cons v values ih =>
    rw [runs, List.foldr_cons, ← runs] at h
    cases hr : runs values with
    | nil =>
      rw [hr] at h
      rw [List.mem_singleton.1 h]
      exact List.mem_cons_self
    | cons b l =>
      obtain ⟨w, n⟩ := b
      rw [hr] at h ih
      rw [consRun] at h
      split at h
      · next hv =>
        rcases List.mem_cons.1 h with rfl | h
        · rw [← hv]
          exact List.mem_cons_self
        · exact List.mem_cons_of_mem _ (ih (List.mem_cons_of_mem _ h))
      · rcases List.mem_cons.1 h with rfl | h
        · exact List.mem_cons_self
        · exact List.mem_cons_of_mem _ (ih h)

/-! ## Packing -/

/-- Symbols made for pieces stand for as many lengths as the pieces add up to. -/
theorem total_map_count {f : Nat → LengthSymbol} (hf : ∀ m, (f m).count = m) (pieces : List Nat) :
    total (·.count) (pieces.map f) = total id pieces := by
  rw [total_map]
  exact total_congr fun m _ => hf m

/-- Runs of zeros stand for zeros. -/
theorem unpackAfter_zeros {f : Nat → LengthSymbol} (hf : f = .zeros ∨ f = .longZeros)
    (previous : Option Nat) (pieces : List Nat) :
    unpackAfter previous (pieces.map f) = .ok (List.replicate (total id pieces) 0) := by
  have hcount : ∀ m, (f m).count = m := by
    intro m
    rcases hf with rfl | rfl <;> rfl
  rw [← total_map_count hcount]
  refine unpackAfter_of_value_eq ?_ (.inr ?_)
  · intro s hs
    obtain ⟨m, -, rfl⟩ := List.mem_map.1 hs
    rcases hf with rfl | rfl <;> rfl
  · intro s hs c w h
    obtain ⟨m, -, rfl⟩ := List.mem_map.1 hs
    rcases hf with rfl | rfl <;> cases h

/-- Lengths one by one are unpacked to themselves. -/
theorem unpackAfter_replicate (previous : Option Nat) (n value : Nat) :
    unpackAfter previous (List.replicate n (.length value)) = .ok (List.replicate n value) := by
  have htotal : total LengthSymbol.count (List.replicate n (.length value)) = n :=
    (total_replicate _ n _).trans (Nat.mul_one n)
  have h := @unpackAfter_of_value_eq previous value (List.replicate n (.length value)) ?_ (.inr ?_)
  · rw [h, htotal]
  · intro s hs
    rw [List.eq_of_mem_replicate hs]
    rfl
  · intro s hs c w h
    rw [List.eq_of_mem_replicate hs] at h
    cases h

/-- Repetitions of a length are unpacked to it, behind any length. -/
theorem unpackAfter_packRepeats (previous : Option Nat) (rules : PackingRules) (value n : Nat) :
    unpackAfter previous (packRepeats rules value n) = .ok (List.replicate n value) := by
  unfold packRepeats
  split
  · exact unpackAfter_replicate previous n value
  · next hn =>
    rw [Bool.or_eq_true, beq_iff_eq, not_or] at hn
    obtain ⟨hsum, -⟩ := cutCopies_spec rules (n - 1)
    have hcopies : unpackAfter (some value) ((cutCopies rules (n - 1)).1.map (.copy · value) ++
        List.replicate (cutCopies rules (n - 1)).2 (.length value)) =
        .ok (List.replicate (n - 1) value) := by
      conv => rhs; rw [← hsum, ← List.replicate_append_replicate]
      refine unpackAfter_append_ok ?_ fun p => unpackAfter_replicate p _ value
      rw [← @total_map_count (.copy · value) fun _ => rfl]
      refine unpackAfter_of_value_eq ?_ (.inl rfl)
      intro s hs
      obtain ⟨m, -, rfl⟩ := List.mem_map.1 hs
      rfl
    have hsucc : List.replicate n value = [value] ++ List.replicate (n - 1) value := by
      rw [List.singleton_append, ← List.replicate_succ, Nat.sub_add_cancel (by omega)]
    dsimp only
    rw [List.cons_append, hsucc, unpackAfter_cons_eq_ok]
    exact ⟨nofun, _, hcopies, rfl⟩

/-- The symbols for a run stand for the run. -/
theorem unpackAfter_packRun (previous : Option Nat) (rules : PackingRules) (a : Nat × Nat) :
    unpackAfter previous (packRun rules a) = .ok (List.replicate a.2 a.1) := by
  obtain ⟨value, n⟩ := a
  have htake : ∀ (skip : Bool) (least most n : Nat) (f : Nat → LengthSymbol),
      f = .zeros ∨ f = .longZeros → least ≤ most → ∀ p (rest : Nat → List LengthSymbol),
      (∀ p m, unpackAfter p (rest m) = .ok (List.replicate m value)) →
      unpackAfter p ((if value == 0 && !skip then cut least most n else ([], n)).1.map f ++
        rest (if value == 0 && !skip then cut least most n else ([], n)).2) =
          .ok (List.replicate n value) := by
    intro skip least most n f hf hle p rest hrest
    split
    · next hv =>
      rw [Bool.and_eq_true, beq_iff_eq] at hv
      obtain ⟨hsum, -⟩ := cut_spec hle n
      conv => rhs; rw [← hsum, ← List.replicate_append_replicate, hv.1]
      refine unpackAfter_append_ok (unpackAfter_zeros hf p _) fun p => ?_
      rw [hrest, hv.1]
    · exact hrest p n
  unfold packRun
  dsimp only
  rw [List.append_assoc]
  refine htake rules.noLongZeros 11 138 n .longZeros (.inr rfl) (by decide) previous
    (fun m => (if value == 0 && !rules.noZeros then cut 3 10 m else ([], m)).1.map .zeros ++
      packRepeats rules value (if value == 0 && !rules.noZeros then cut 3 10 m else ([], m)).2) ?_
  intro p m
  exact htake rules.noZeros 3 10 m .zeros (.inl rfl) (by decide) p (packRepeats rules value)
    fun p m => unpackAfter_packRepeats p rules value m

/-- Runs that are packed one by one are unpacked to their lengths, behind any length. -/
theorem unpackAfter_flatMap_packRun (previous : Option Nat) (rules : PackingRules)
    (l : List (Nat × Nat)) : unpackAfter previous (l.flatMap (packRun rules)) =
      .ok (l.flatMap fun a => List.replicate a.2 a.1) := by
  induction l generalizing previous with
  | nil => rfl
  | cons a l ih =>
    rw [List.flatMap_cons, List.flatMap_cons]
    exact unpackAfter_append_ok (unpackAfter_packRun previous rules a) ih

/-- Packing code lengths loses nothing. -/
theorem unpack_pack (rules : PackingRules) (lengths : List Nat) :
    unpack (pack rules lengths) = .ok lengths := by
  have h := unpackAfter_flatMap_packRun none rules (runs lengths)
  rw [flatMap_runs] at h
  exact h

/-! ## The symbols used -/

/-- Symbols for a repeated length have that length, a legal count, and are permitted. -/
theorem mem_packRepeats {rules : PackingRules} {value n : Nat} {s : LengthSymbol}
    (hs : s ∈ packRepeats rules value n) : s.value = value ∧ s.CountLegal ∧ rules.Permits s := by
  unfold packRepeats at hs
  split at hs
  · rw [List.eq_of_mem_replicate hs]
    exact ⟨rfl, trivial, trivial⟩
  · next hn =>
    simp only [Bool.or_eq_true, not_or, Bool.not_eq_true] at hn
    dsimp only at hs
    rw [List.cons_append, List.mem_cons, List.mem_append] at hs
    rcases hs with rfl | hs | hs
    · exact ⟨rfl, trivial, trivial⟩
    · obtain ⟨m, hm, rfl⟩ := List.mem_map.1 hs
      exact ⟨rfl, (cutCopies_spec rules (n - 1)).2 m hm, hn.1⟩
    · rw [List.eq_of_mem_replicate hs]
      exact ⟨rfl, trivial, trivial⟩

/-- Zeros are taken off a run of zeros only, and only where the rules do not forbid it. -/
theorem mem_zeroPieces {skip : Bool} {value least most n m : Nat} (h : least ≤ most)
    (hm : m ∈ (if value == 0 && !skip then cut least most n else ([], n)).1) :
    (least ≤ m ∧ m ≤ most) ∧ value = 0 ∧ skip = false := by
  split at hm
  · next hzero =>
    simp only [Bool.and_eq_true, beq_iff_eq, Bool.not_eq_true'] at hzero
    exact ⟨(cut_spec h n).2 m hm, hzero⟩
  · cases hm

/-- Symbols for a run have its length, a legal count, and are permitted. -/
theorem mem_packRun {rules : PackingRules} {a : Nat × Nat} {s : LengthSymbol}
    (hs : s ∈ packRun rules a) : s.value = a.1 ∧ s.CountLegal ∧ rules.Permits s := by
  obtain ⟨value, n⟩ := a
  unfold packRun at hs
  dsimp only at hs
  rw [List.mem_append, List.mem_append] at hs
  rcases hs with (hs | hs) | hs
  · obtain ⟨m, hm, rfl⟩ := List.mem_map.1 hs
    obtain ⟨hcount, hvalue, hrules⟩ := mem_zeroPieces (by decide) hm
    exact ⟨hvalue.symm, hcount, hrules⟩
  · obtain ⟨m, hm, rfl⟩ := List.mem_map.1 hs
    obtain ⟨hcount, hvalue, hrules⟩ := mem_zeroPieces (by decide) hm
    exact ⟨hvalue.symm, hcount, hrules⟩
  · exact mem_packRepeats hs

/-- Symbols for lengths have one of these, a legal count, and are permitted. -/
theorem mem_pack {rules : PackingRules} {lengths : List Nat} {s : LengthSymbol}
    (hs : s ∈ pack rules lengths) : s.value ∈ lengths ∧ s.CountLegal ∧ rules.Permits s := by
  obtain ⟨a, ha, hs⟩ := List.mem_flatMap.1 hs
  obtain ⟨hvalue, hs⟩ := mem_packRun hs
  exact ⟨hvalue ▸ fst_mem_of_mem_runs ha, hs⟩

/-- Packing spells code lengths by symbols that a header can hold. -/
theorem legal_pack (rules : PackingRules) {lengths : List Nat}
    (h : ∀ n ∈ lengths, n ≤ maxCodeLength) : ∀ s ∈ pack rules lengths, s.Legal := by
  intro s hs
  obtain ⟨hvalue, hcount, -⟩ := mem_pack hs
  exact ⟨hcount, h _ hvalue⟩

/-- Symbols stand for code lengths as the rules say that they may. -/
structure Packing (rules : PackingRules) (lengths : List Nat) (symbols : List LengthSymbol) :
    Prop where
  unpack_eq : unpack symbols = .ok lengths
  countLegal : ∀ s ∈ symbols, s.CountLegal
  permits : ∀ s ∈ symbols, rules.Permits s
  /-- The lengths that the symbols before a copy stand for end with the one that it repeats. -/
  repeats : ∀ before count value after, symbols = before ++ .copy count value :: after →
    (before.flatMap (·.expand)).getLast? = some value

/-- The code lengths of two tables are packed as one sequence, in which runs may go from the first
into the second. -/
theorem packing_pack (rules : PackingRules) (litlen dist : List Nat) :
    Packing rules (litlen ++ dist) (pack rules (litlen ++ dist)) := by
  have hunpack := unpack_pack rules (litlen ++ dist)
  refine ⟨hunpack, fun s hs => (mem_pack hs).2.1, fun s hs => (mem_pack hs).2.2, ?_⟩
  intro before count value after hsplit
  rw [hsplit] at hunpack
  exact getLast?_of_unpack_copy hunpack

/-- A length with eight copies, split unevenly, and a run of zeros that the second list goes on. -/
example : pack { uneven8 := true, noLongZeros := true }
      (List.replicate 9 5 ++ List.replicate 10 0 ++ List.replicate 4 0) =
    [.length 5, .copy 5 5, .copy 3 5, .zeros 10, .zeros 4] := by
  decide +kernel

end DeflateRecoder
