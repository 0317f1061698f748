import DeflateRecoder.Block.Coded.Reading
import DeflateRecoder.Proofs.Block.Header
import DeflateRecoder.Proofs.Inflate.Basic
import Mathlib.Tactic.IntervalCases

/-!
# Reading as the plain inflater does

A parser on a reader and a step of the plain inflater on the bits that are left are compared by what
they lead to: both fail, or both succeed with related values and the same bits left (`Agree`). This
is closed under sequences (`Agree.bind`), so that a parser made of parts agrees with a step made of
the same parts.

The parts that differ are codes and code lengths. A decoder goes by the first word of each length,
the inflater compares whole codes: what a decoder reads has a spelling that is the symbol's code
(`words_iff`), and no other code comes next since the decoder would have read that one
(`agree_read`). Code lengths are kept as symbols by the parser and as one list by the inflater
(`agree_readSymbols`).
-/

namespace DeflateRecoder

namespace Inflate

/-! ## Agreement -/

/-- A parser and a step of the inflater lead to the same: to nothing, or to values so related with
the same bits left. -/
inductive Agree {α β : Type} (R : α → β → Prop) :
    EStateM.Result Error BitReader α → Option (β × List Bool) → Prop
  | failed {e : Error} {r : BitReader} : Agree R (.error e r) none
  | read {a : α} {b : β} {r : BitReader} (hr : r.Valid) (h : R a b) :
    Agree R (.ok a r) (some (b, r.bits))

namespace Agree

variable {α β γ δ : Type} {R : α → β → Prop} {S : γ → δ → Prop} {r : BitReader}

/-- Values that are there without reading agree if they are related. -/
theorem pure {a : α} {b : β} (hr : r.Valid) (h : R a b) :
    Agree R ((Pure.pure a : Parser α) r) ((Pure.pure b : Take β) r.bits) := .read hr h

/-- A parser that fails agrees with a step that fails. -/
theorem eq_none {e : Error} {y : Option (β × List Bool)} (h : Agree R (.error e r) y) :
    y = none := by
  cases h
  rfl

/-- A parser that reads a value agrees with a step that does. -/
theorem eq_some {a : α} {y : Option (β × List Bool)} (h : Agree R (.ok a r) y) :
    r.Valid ∧ ∃ b, y = some (b, r.bits) ∧ R a b := by
  cases h with
  | read hr h => exact ⟨hr, _, rfl, h⟩

/-- A parser and a step, each followed by another. -/
theorem bind {p : Parser α} {q : Take β} {f : α → Parser γ} {g : β → Take δ}
    (h : Agree R (p r) (q r.bits))
    (hf : ∀ a b r', p r = .ok a r' → r'.Valid → R a b → Agree S (f a r') (g b r'.bits)) :
    Agree S ((p >>= f) r) ((q >>= g) r.bits) := by
  simp only [Bind.bind, EStateM.bind, StateT.bind]
  generalize hp : p r = x at h
  generalize q r.bits = y at h
  cases h with
  | failed => exact .failed
  | read hr h => exact hf _ _ _ hp hr h

/-- What is made of values that agree. -/
theorem map {p : Parser α} {q : Take β} {f : α → γ} {g : β → δ} (h : Agree R (p r) (q r.bits))
    (hf : ∀ a b, R a b → S (f a) (g b)) : Agree S ((f <$> p) r) ((g <$> q) r.bits) := by
  rw [map_eq_pure_bind, map_eq_pure_bind]
  exact h.bind fun a b r' _ hr' hab => .pure hr' (hf a b hab)

/-- A parser that goes on without reading more, where the step is done. -/
theorem bind_left {p : Parser α} {f : α → Parser γ} {y : Option (β × List Bool)} {S : γ → β → Prop}
    (h : Agree R (p r) y)
    (hf : ∀ a b r', r'.Valid → R a b → Agree S (f a r') (some (b, r'.bits))) :
    Agree S ((p >>= f) r) y := by
  simp only [Bind.bind, EStateM.bind]
  generalize p r = x at h
  cases h with
  | failed => exact .failed
  | read hr h => exact hf _ _ _ hr h

/-- A parser that makes something of what agrees. -/
theorem then_pure {p : Parser α} {f : α → γ} {y : Option (β × List Bool)} {S : γ → β → Prop}
    (h : Agree R (p r) y) (hf : ∀ a b, R a b → S (f a) b) :
    Agree S ((p >>= fun a => Pure.pure (f a)) r) y :=
  h.bind_left fun a b _ hr' hab => .read hr' (hf a b hab)

end Agree

/-- A condition that holds is no obstacle. -/
theorem guard_of {c : Prop} [Decidable c] (h : c) : (guard c : Take Unit) = pure () := if_pos h

/-- A condition that does not hold stops the inflater. -/
theorem guard_of_not {c : Prop} [Decidable c] (h : ¬c) : (guard c : Take Unit) = failure := if_neg h

variable {r : BitReader}

/-! ## Numbers -/

/-- A number is the value of the next bits. -/
theorem number_eq {n : Nat} {bits : List Bool} (h : n ≤ bits.length) :
    number n bits = some (valueOf (bits.take n), bits.drop n) := by
  induction n generalizing bits with
  | zero => rfl
  | succ n ih =>
    cases bits with
    | nil => cases h
    | cons b bits =>
      have hrest := ih (Nat.le_of_succ_le_succ h)
      simp only [number, bit, Bind.bind, StateT.bind, Option.bind, hrest]
      rfl

/-- No number can be taken from fewer bits than it has. -/
theorem number_eq_none {n : Nat} {bits : List Bool} (h : bits.length < n) :
    number n bits = none := by
  cases hq : number n bits with
  | none => rfl
  | some a =>
    have := Takes.number n hq
    omega

/-- Both read a number. -/
theorem agree_readBits (n : Nat) (hr : r.Valid) :
    Agree (fun v w => v = w ∧ v < 2 ^ n) (BitReader.readBits n r) (number n r.bits) := by
  rcases Nat.lt_or_ge r.remaining n with hn | hn
  · obtain ⟨r', he, -⟩ := BitReader.readBits_error hr hn
    rw [he, number_eq_none (by rw [BitReader.length_bits]; exact hn)]
    exact .failed
  · obtain ⟨r', he, hr', hbits, -⟩ := BitReader.readBits_ok hr hn
    rw [he, number_eq (by rw [BitReader.length_bits]; exact hn), ← hbits]
    refine .read hr' ⟨rfl, ?_⟩
    have hlt := valueOf_lt (r.bits.take n)
    rwa [List.length_take, BitReader.length_bits, Nat.min_eq_left hn] at hlt

/-- Both read a bit. -/
theorem agree_readBit (hr : r.Valid) : Agree Eq (BitReader.readBit r) (bit r.bits) := by
  have hbit : bit r.bits = (do return (← number 1) != 0 : Take Bool) r.bits := by
    cases r.bits with
    | nil => rfl
    | cons b bits => cases b <;> rfl
  rw [hbit]
  refine (agree_readBits 1 hr).bind fun v w r' _ hr' hvw => ?_
  obtain ⟨rfl, -⟩ := hvw
  exact .pure hr' rfl

/-! ## Codes -/

/-- The first length counts where it is the given one, and not zero. -/
theorem codeCount_cons (n : Nat) (lengths : List Nat) (width : Nat) :
    codeCount (n :: lengths) width =
      (if 0 < n ∧ n = width then 1 else 0) + codeCount lengths width := by
  unfold codeCount
  rw [List.count_cons]
  split
  · next h0 => rw [if_neg (by omega)]
  · by_cases hn : n = width
    · rw [if_pos (beq_iff_eq.2 hn), if_pos (by omega), Nat.add_comm]
    · rw [if_neg (fun h => hn (beq_iff_eq.1 h)), if_neg (fun h => hn h.2), Nat.add_comm]

/-- One more bit doubles what begins with a code, and what begins with a new one comes along. -/
theorem share_succ (n width : Nat) :
    (if 0 < n ∧ n < width + 1 then 2 ^ (width + 1 - n) else 0) =
      2 * ((if 0 < n ∧ n < width then 2 ^ (width - n) else 0)
        + if 0 < n ∧ n = width then 1 else 0) := by
  by_cases hpos : 0 < n
  · rcases Nat.lt_trichotomy n width with hn | rfl | hn
    · rw [if_pos ⟨hpos, by omega⟩, if_pos ⟨hpos, hn⟩, if_neg (by omega),
        Nat.succ_sub (Nat.le_of_lt hn), Nat.pow_succ, Nat.mul_comm, Nat.add_zero]
    · rw [if_pos ⟨hpos, by omega⟩, if_neg (by omega), if_pos ⟨hpos, rfl⟩, Nat.add_sub_cancel_left,
        Nat.pow_one]
    · rw [if_neg (by omega), if_neg (by omega), if_neg (by omega)]
  · rw [if_neg (by omega), if_neg (by omega), if_neg (by omega)]

/-- One more bit doubles what begins with shorter codes, the codes of the last width among them. -/
theorem total_share_succ (lengths : List Nat) (width : Nat) :
    total (fun n => if 0 < n ∧ n < width + 1 then 2 ^ (width + 1 - n) else 0) lengths =
      2 * (total (fun n => if 0 < n ∧ n < width then 2 ^ (width - n) else 0) lengths
        + codeCount lengths width) := by
  induction lengths with
  | nil =>
    rw [codeCount]
    split <;> rfl
  | cons n lengths ih =>
    rw [total_cons, total_cons, ih, share_succ, codeCount_cons]
    omega

/-- The first word of a width comes behind everything that begins with a shorter code. -/
theorem codeValue_eq (lengths : List Nat) (symbol width : Nat) :
    codeValue lengths symbol width = firstCode lengths width + (lengths.take symbol).count width := by
  rw [codeValue]
  congr 1
  induction width with
  | zero =>
    rw [firstCode]
    exact total_eq_zero fun n _ => if_neg (by omega)
  | succ width ih => rw [firstCode, ← ih, total_share_succ]

/-- A symbol has a code just when it has a length, and then the code is the canonical one of this
length. -/
theorem code?_eq_some {lengths : List Nat} {s : Nat} {u : List Bool} :
    code? lengths s = some u ↔ ∃ width, lengths[s]? = some width ∧ 0 < width ∧
      u = (bitsOf width (codeValue lengths s width)).reverse := by
  unfold code?
  split
  · next h => simp [h]
  · next h => simp [h]
  · next width hpos h =>
    rw [h]
    simp only [Option.some.injEq]
    constructor
    · rintro rfl
      exact ⟨width, rfl, Nat.pos_of_ne_zero hpos, rfl⟩
    · rintro ⟨_, rfl, -, rfl⟩
      rfl

/-- The spellings of a symbol under a canonical table are its code. -/
theorem words_iff {t : CodeTable} (h : t.Canonical) (n : Nat) (s : Decoder.Symbol)
    (u : List Bool) :
    Decoder.words t n s u ↔ s.width = u.length ∧ code? t.lengths s.symbol = some u := by
  have hbits : 0 < t.lengthOf s.symbol → (t.word s.symbol).bits =
      (bitsOf (t.lengthOf s.symbol)
        (codeValue t.lengths s.symbol (t.lengthOf s.symbol))).reverse := by
    intro hpos
    rw [(h.word_eq hpos).1, codeValue_eq]
    rfl
  rw [code?_eq_some]
  constructor
  · rintro ⟨hpos, hwidth, rfl⟩
    refine ⟨by rw [hwidth, CodeWord.length_bits]; rfl, _, CodeTable.getElem?_lengths_of_pos hpos,
      hpos, hbits hpos⟩
  · rintro ⟨hwidth, width, hget, hpos, rfl⟩
    obtain rfl : t.lengthOf s.symbol = width := by rw [CodeTable.lengthOf_eq, hget]; rfl
    rw [List.length_reverse, length_bitsOf] at hwidth
    exact ⟨hpos, hwidth, (hbits hpos).symm⟩

/-- Where a symbol's code comes next, some symbol is found. -/
theorem symbol_ne_none {lengths : List Nat} {s : Nat} {code rest : List Bool}
    (h : code? lengths s = some code) : symbol lengths (code ++ rest) ≠ none := by
  intro hnone
  obtain ⟨width, hget, -⟩ := code?_eq_some.1 h
  have hmem : s ∈ List.range lengths.length :=
    List.mem_range.2 (List.getElem?_eq_some_iff.1 hget).1
  have hs := List.findSome?_eq_none_iff.1 hnone s hmem
  rw [h, Option.bind_some, if_pos List.take_left] at hs
  cases hs

/-- A decoder reads the symbol whose code comes next. -/
theorem agree_read {t : CodeTable} (h : t.Canonical) (hsize : t.size ≤ symbolLimit) (hr : r.Valid) :
    Agree (fun s n => s.symbol = n ∧ n < t.lengths.length) ((Decoder.ofTable t).read r)
      (symbol t.lengths r.bits) := by
  have hread := Decoder.read_recognises h hsize
  cases hq : symbol t.lengths r.bits with
  | none =>
    cases hp : (Decoder.ofTable t).read r with
    | error e r' => exact .failed
    | ok s r' =>
      -- What was read has a spelling, and the code that this is would have been found.
      obtain ⟨-, u, hbits, -, hwords⟩ := hread.sound hr hp
      obtain ⟨-, hcode⟩ := (words_iff h _ _ _).1 hwords
      rw [hbits] at hq
      exact absurd hq (symbol_ne_none hcode)
  | some a =>
    obtain ⟨n, rest⟩ := a
    obtain ⟨code, hcode, hbits⟩ := exists_code_of_symbol hq
    have hwords : Decoder.words t r.position ⟨n, code.length⟩ code :=
      (words_iff h _ _ _).2 ⟨rfl, hcode⟩
    obtain ⟨r', he, hr', hrest, -⟩ := hread.complete_position hr hbits hwords
    obtain ⟨width, hget, -⟩ := code?_eq_some.1 hcode
    rw [he, ← hrest]
    exact .read hr' ⟨rfl, (List.getElem?_eq_some_iff.1 hget).1⟩

/-! ## Tables -/

/-- Lengths that fit are those of a table. -/
theorem fits_iff {lengths : List Nat} (h : ∀ n ∈ lengths, n ≤ maxCodeLength) :
    fits lengths = true ↔ (CodeTable.ofLengths lengths).isValid = true := by
  have hshare : total CodeTable.kraftShare lengths =
      total (fun n => if n = 0 then 0 else 2 ^ (15 - n)) lengths :=
    total_congr fun n hn => kraftShare_eq (h n hn)
  have hmost : (CodeTable.ofLengths lengths).maxLength ≤ maxCodeLength := by
    rw [CodeTable.maxLength_eq, CodeTable.lengths_ofLengths]
    exact CodeTable.foldl_max_le h
  rw [fits, CodeTable.isValid, CodeTable.kraftSum, CodeTable.lengths_ofLengths, hshare,
    decide_eq_true hmost, Bool.true_and]
  rfl

/-- A table is made of lengths that fit, and refused otherwise. -/
theorem agree_ofLengths? {lengths : List Nat} (h : ∀ n ∈ lengths, n ≤ maxCodeLength)
    (hr : r.Valid) :
    Agree (fun t _ => t.Canonical ∧ t.lengths = lengths)
      (Parser.ofExcept (CodeTable.ofLengths? lengths) r) ((guard (fits lengths) : Take Unit) r.bits) := by
  by_cases hfits : fits lengths = true
  · have hvalid := (fits_iff h).1 hfits
    have htable : CodeTable.ofLengths? lengths = .ok (CodeTable.ofLengths lengths) := if_pos hvalid
    rw [guard_of hfits, htable]
    exact .read hr (CodeTable.canonical_of_ofLengths? htable)
  · have htable : CodeTable.ofLengths? lengths = .error .oversubscribed :=
      if_neg fun hvalid => hfits ((fits_iff h).2 hvalid)
    rw [guard_of_not hfits, htable]
    exact .failed

/-! ## Code lengths -/

/-- Both have the lengths of the code for code lengths in the same order. -/
theorem lengthOrder_eq : lengthOrder = transmissionOrder := by decide

/-- Both read three bits for each of some symbols. -/
theorem agree_given (order : List Nat) (hr : r.Valid) :
    Agree (fun vs given => given = order.zip vs ∧ vs.length = order.length ∧ ∀ v ∈ vs, v < 2 ^ 3)
      (order.mapM (fun _ => BitReader.readBits 3) r)
      ((order.mapM fun s => do
        let length ← number 3
        return (s, length) : Take (List (Nat × Nat))) r.bits) := by
  induction order generalizing r with
  | nil => exact .pure hr ⟨rfl, rfl, nofun⟩
  | cons s order ih =>
    rw [List.mapM_cons, List.mapM_cons, bind_assoc]
    refine (agree_readBits 3 hr).bind fun v _ r₁ _ hr₁ hv => ?_
    obtain ⟨rfl, hv⟩ := hv
    rw [pure_bind]
    refine (ih hr₁).bind fun vs given r₂ _ hr₂ hvs => ?_
    obtain ⟨rfl, hlen, hvs⟩ := hvs
    exact .pure hr₂ ⟨rfl, congrArg Nat.succ hlen, List.forall_mem_cons.2 ⟨hv, hvs⟩⟩

/-- No more of a list is paired than there are values for it. -/
theorem zip_take {α β : Type} {l : List α} {vs : List β} {n : Nat}
    (h : vs.length = (l.take n).length) : (l.take n).zip vs = l.zip vs := by
  have happend := @List.zip_append _ _ (l.take n) (l.drop n) vs [] h.symm
  rw [List.take_append_drop, List.append_nil, List.zip_nil_right, List.append_nil] at happend
  exact happend.symm

/-- Both read the lengths of the code for code lengths. -/
theorem agree_lengthsOfLengthCode (n : Nat) (hr : r.Valid) :
    Agree (fun transmitted code => code = TableHeader.placeLengths transmitted ∧
        ∀ v ∈ code, v ≤ maxCodeLength)
      ((transmissionOrder.take n).mapM (fun _ => BitReader.readBits 3) r)
      (lengthsOfLengthCode n r.bits) := by
  rw [lengthsOfLengthCode, lengthOrder_eq, ← bind_pure (List.mapM _ _)]
  refine (agree_given (transmissionOrder.take n) hr).bind fun vs given r₁ _ hr₁ hvs => ?_
  obtain ⟨rfl, hlen, hvs⟩ := hvs
  rw [zip_take hlen]
  have hle : ∀ v ∈ vs, v ≤ maxCodeLength := fun v hv =>
    Nat.le_of_lt (Nat.lt_of_lt_of_le (hvs v hv) (by decide))
  exact .pure hr₁ ⟨rfl, TableHeader.placeLengths_le hle⟩

/-- Both read a code length and how often it comes. -/
theorem agree_readSymbol {t : CodeTable} (h : t.Canonical) (hsize : t.size = 19)
    {previous : Option Nat} (hprevious : ∀ v ∈ previous, v ≤ maxCodeLength) (hr : r.Valid) :
    Agree (fun s n => s.1.value = n.1 ∧ s.1.count = n.2 + 1 ∧ n.1 ≤ maxCodeLength)
      (TableHeader.readSymbol (Decoder.ofTable t) previous r) (run t.lengths previous r.bits) := by
  refine (agree_read h (by rw [hsize]; decide) hr).bind fun s n r₁ _ hr₁ hs => ?_
  obtain ⟨rfl, hlt⟩ := hs
  rw [CodeTable.length_lengths, hsize] at hlt
  generalize s.symbol = k at hlt
  obtain rfl | rfl | rfl | hk : k = 16 ∨ k = 17 ∨ k = 18 ∨ k < 16 := by omega
  · refine (agree_readBits 2 hr₁).bind fun extra _ r₂ _ hr₂ hextra => ?_
    obtain ⟨rfl, -⟩ := hextra
    cases previous with
    | none => exact .failed
    | some v => exact .pure hr₂ ⟨rfl, rfl, hprevious v rfl⟩
  · refine (agree_readBits 3 hr₁).bind fun extra _ r₂ _ hr₂ hextra => ?_
    obtain ⟨rfl, -⟩ := hextra
    exact .pure hr₂ ⟨rfl, rfl, Nat.zero_le _⟩
  · refine (agree_readBits 7 hr₁).bind fun extra _ r₂ _ hr₂ hextra => ?_
    obtain ⟨rfl, -⟩ := hextra
    exact .pure hr₂ ⟨rfl, rfl, Nat.zero_le _⟩
  · interval_cases k <;> exact .pure hr₁ ⟨rfl, rfl, by decide⟩

/-- Both read code lengths up to the declared number of them. -/
theorem agree_readSymbols {t : CodeTable} (h : t.Canonical) (hsize : t.size = 19)
    (declared : Nat) (before : List Nat) (hle : before.length ≤ declared)
    (hbefore : ∀ v ∈ before, v ≤ maxCodeLength) (hr : r.Valid) :
    Agree (fun symbols lengths => lengths = before ++ symbols.flatMap (·.expand) ∧
        lengths.length = declared ∧ ∀ v ∈ lengths, v ≤ maxCodeLength)
      (TableHeader.readSymbols (Decoder.ofTable t) declared before.getLast?
        (declared - before.length) r)
      (codeLengths t.lengths declared before r.bits) := by
  generalize hleft : declared - before.length = left
  -- A symbol stands for one length or more, so fewer are left behind it. Those that it stands for
  -- join the lengths so far, of which the inflater looks at the last and the parser is told it.
  induction left using Nat.strongRecOn generalizing before r with
  | ind left ih =>
    rw [TableHeader.readSymbols, codeLengths]
    split
    · next h0 =>
      rw [if_pos (by omega), guard_of (by omega)]
      exact .pure hr ⟨(List.append_nil _).symm, by omega, hbefore⟩
    · next h0 =>
      rw [if_neg (by omega)]
      have hprevious : ∀ v ∈ before.getLast?, v ≤ maxCodeLength := fun v hv =>
        hbefore v (List.mem_of_getLast? hv)
      refine (agree_readSymbol h hsize hprevious hr).bind fun s n r₁ _ hr₁ hs => ?_
      obtain ⟨s, hpos⟩ := s
      obtain ⟨v, more⟩ := n
      obtain ⟨rfl, hcount, hn⟩ := hs
      dsimp only at hcount hn ⊢
      have hlen : (before ++ List.replicate (more + 1) s.value).length = before.length + s.count := by
        rw [List.length_append, List.length_replicate, hcount]
      have hlast : (before ++ List.replicate (more + 1) s.value).getLast? = some s.value := by
        rw [List.getLast?_append, List.getLast?_replicate, if_neg (Nat.succ_ne_zero more)]
        rfl
      have hbefore' : ∀ v ∈ before ++ List.replicate (more + 1) s.value, v ≤ maxCodeLength := by
        intro v hv
        rcases List.mem_append.1 hv with hv | hv
        · exact hbefore v hv
        · rw [List.eq_of_mem_replicate hv]
          exact hn
      split
      · next hover =>
        -- The inflater takes lengths beyond the declared number first, and is stopped then.
        rw [codeLengths, if_pos (by omega), guard_of_not (by omega)]
        exact .failed
      · next hfits =>
        have hrest := ih (left - s.count) (by omega) _ (by omega) hbefore' hr₁ (by omega)
        rw [hlast] at hrest
        refine hrest.then_pure fun symbols lengths hlengths => ?_
        obtain ⟨rfl, hall⟩ := hlengths
        refine ⟨?_, hall⟩
        rw [List.flatMap_cons, LengthSymbol.expand, hcount, List.append_assoc]

/-- Both read the code lengths of a dynamic block and make tables of them. -/
theorem agree_header (hr : r.Valid) :
    Agree (fun coding lengths => ∃ litlen dist h, coding = .dynamic litlen dist h ∧
        (litlen.Canonical ∧ litlen.lengths = lengths.1) ∧
        (dist.Canonical ∧ dist.lengths = lengths.2) ∧
        lengths.1.length ≤ symbolLimit ∧ lengths.2.length ≤ symbolLimit)
      (CodedBlock.readCoding .dynamic r) (header r.bits) := by
  have field (n k : Nat) {r : BitReader} (hr : r.Valid) :
      Agree (fun v w => v = w ∧ v < 2 ^ n + k) (((· + k) <$> BitReader.readBits n) r)
        (((· + k) <$> number n) r.bits) :=
    (agree_readBits n hr).map fun v w hv => ⟨congrArg (· + k) hv.1, Nat.add_lt_add_right hv.2 k⟩
  rw [CodedBlock.readCoding, TableHeader.read, header]
  simp only [bind_assoc, pure_bind]
  refine (field 5 257 hr).bind fun litlenCount _ r₁ _ hr₁ hlitlen => ?_
  obtain ⟨rfl, hlitlen⟩ := hlitlen
  refine (field 5 1 hr₁).bind fun distCount _ r₂ _ hr₂ hdist => ?_
  obtain ⟨rfl, hdist⟩ := hdist
  refine (field 4 4 hr₂).bind fun orderCount _ r₃ _ hr₃ horder => ?_
  obtain ⟨rfl, -⟩ := horder
  refine (agree_lengthsOfLengthCode orderCount hr₃).bind fun transmitted _ r₄ _ hr₄ hcode => ?_
  obtain ⟨rfl, hcode⟩ := hcode
  refine (agree_ofLengths? hcode hr₄).bind fun code _ r₅ _ hr₅ htable => ?_
  obtain ⟨hcanonical, hlengths⟩ := htable
  have hsize : code.size = 19 := by
    rw [← CodeTable.length_lengths, hlengths, TableHeader.length_placeLengths]
  rw [← hlengths]
  refine (agree_readSymbols hcanonical hsize (litlenCount + distCount) [] (Nat.zero_le _) nofun
    hr₅).bind fun symbols lengths r₆ _ hr₆ hsymbols => ?_
  obtain ⟨rfl, hcount, hle⟩ := hsymbols
  rw [List.nil_append] at hcount hle ⊢
  have hsplit : ∀ bitSize, TableHeader.lengths ⟨litlenCount, distCount, orderCount, code, symbols,
      bitSize⟩ = ((symbols.flatMap (·.expand)).take litlenCount,
        (symbols.flatMap (·.expand)).drop litlenCount) := fun _ => List.splitAt_eq
  generalize symbols.flatMap (·.expand) = lengths at hcount hle hsplit ⊢
  rw [TableHeader.ofParts, hsplit]
  refine (agree_ofLengths? (fun v hv => hle v (List.mem_of_mem_take hv)) hr₆).bind
    fun litlen _ r₇ _ hr₇ hlitlenTable => ?_
  refine (agree_ofLengths? (fun v hv => hle v (List.mem_of_mem_drop hv)) hr₇).bind
    fun dist _ r₈ _ hr₈ hdistTable => ?_
  have hlimit : 2 ^ 5 + 257 + (2 ^ 5 + 1) ≤ symbolLimit := by decide
  refine .pure hr₈ ⟨litlen, dist, _, rfl, hlitlenTable, hdistTable, ?_, ?_⟩
  · rw [List.length_take]
    omega
  · rw [List.length_drop]
    omega

end Inflate

end DeflateRecoder
