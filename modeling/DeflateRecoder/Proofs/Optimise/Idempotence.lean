import DeflateRecoder.Proofs.Optimise.FixedPoint
import DeflateRecoder.Proofs.Optimise.Recoding

/-!
# Recoding twice

An optimised stream is read back from what it is written as with the same blocks, about which
nothing is left to do. So optimising leaves the stream that was read back as it is
(`Stream.reread_optimise`), and bytes that were recoded are not changed by recoding them again
(`recode_idempotent`).
-/

namespace DeflateRecoder

variable {config : Config}

namespace Stream

/-- What a stream is written as depends on its blocks alone. -/
theorem write_congr {s t : Stream} (h : s.blocks = t.blocks) : s.write = t.write := by
  have hempty : ∀ u : Stream, u.entries.isEmpty = u.blocks.isEmpty := fun u =>
    List.isEmpty_map.symm
  rw [write, write, hempty, hempty, h]

/-- An optimised stream that was written and read back is left as it is. -/
theorem reread_optimise {name : String} {bytes : List UInt8} {s : Stream}
    (h : parse name bytes = .ok s) (hmax : config.maxPasses = 0) :
    ∃ out, (s.optimise config).stream.write = .ok out ∧ ∀ name', ∃ s', parse name' out = .ok s' ∧
      s'.bytes = s.bytes ∧ s'.write = .ok out ∧ (s'.optimise config).stream = s' ∧
      (s'.optimise config).saved = 0 := by
  obtain ⟨out, hwrite, hread⟩ := write_optimise h config
  refine ⟨out, hwrite, fun name' => ?_⟩
  obtain ⟨s', hparse, hblocks, hbytes⟩ := hread name'
  have hexhausted := exhausted_optimise hmax s
  rw [← hblocks] at hexhausted
  exact ⟨s', hparse, hbytes, (write_congr hblocks).trans hwrite, optimise_of_exhausted hexhausted⟩

end Stream

/-- Bytes stay as they are if optimising leaves their stream as it is and it is written as them. -/
theorem recode_of_fixed {s : Stream} {bytes : List UInt8} (h : Stream.parse "" bytes = .ok s)
    (hfixed : (s.optimise config).stream = s) (hwrite : s.write = .ok bytes) :
    ∃ blocks events, recode config bytes = .unchanged bytes blocks events := by
  have hwritten : ((s.optimise config).stream.writeVerified s.bytes).2 = .ok bytes := by
    rw [hfixed]
    exact Stream.writeVerified_eq hwrite (verify_of_parse h rfl)
  obtain ⟨events, hr⟩ := recode_of_written h hwritten
  exact ⟨s.length, events, hr.trans (if_pos (Nat.le_refl _))⟩

/-- Bytes that were recoded stay as they are. -/
theorem recode_recoded (hmax : config.maxPasses = 0) (bytes : List UInt8) :
    ∃ blocks events, recode config (recode config bytes).bytes =
      .unchanged (recode config bytes).bytes blocks events := by
  -- Bytes that were not changed are not changed a second time.
  have hkept : ∀ {blocks : Nat} {events : List Event},
      recode config bytes = .unchanged bytes blocks events →
      ∃ blocks events, recode config (recode config bytes).bytes =
        .unchanged (recode config bytes).bytes blocks events := by
    intro blocks events hr
    have hbytes : (recode config bytes).bytes = bytes := congrArg Recoding.bytes hr
    rw [hbytes]
    exact ⟨blocks, events, hr⟩
  cases hparse : Stream.parse "" bytes with
  | error e =>
    obtain ⟨events, hr⟩ := recode_of_parse_error hparse
    exact hkept hr
  | ok s =>
    obtain ⟨out, hwrite, hread⟩ := Stream.reread_optimise hparse hmax
    obtain ⟨s', hback, hsame, hwrite', hfixed, -⟩ := hread ""
    obtain ⟨events, hr⟩ := recode_of_written hparse
      (Stream.writeVerified_eq hwrite (verify_of_parse hback hsame))
    by_cases hlen : bytes.length ≤ out.length
    · exact hkept (hr.trans (if_pos hlen))
    · have hbytes : (recode config bytes).bytes = out :=
        congrArg Recoding.bytes (hr.trans (if_neg hlen))
      rw [hbytes]
      exact recode_of_fixed hback hfixed hwrite'

/-- Without a bound on the number of passes, recoding is idempotent. Bytes that were recoded, be
they those of a stream or not, are given out again and reported to be unchanged; and a stream that
was optimised, written and read back is not changed by optimising it. -/
theorem recode_idempotent (hmax : config.maxPasses = 0) :
    (∀ bytes, let once := (recode config bytes).bytes
      (recode config once).bytes = once ∧ (recode config once).stats.unchanged = true) ∧
    ∀ name bytes s, Stream.parse name bytes = .ok s →
      ∃ out, (s.optimise config).stream.write = .ok out ∧
        ∀ name', ∃ s', Stream.parse name' out = .ok s' ∧ (s'.optimise config).stream = s' ∧
          (s'.optimise config).saved = 0 := by
  refine ⟨fun bytes => ?_, fun name bytes s hparse => ?_⟩
  · obtain ⟨blocks, events, hr⟩ := recode_recoded hmax bytes
    have haccounts := Recoding.accounts_unchanged (recode config bytes).bytes blocks events
    rw [← hr] at haccounts
    have hbytes := congrArg Recoding.bytes hr
    exact ⟨hbytes, haccounts.unchanged_iff.2 hbytes⟩
  · obtain ⟨out, hwrite, hread⟩ := Stream.reread_optimise hparse hmax
    refine ⟨out, hwrite, fun name' => ?_⟩
    obtain ⟨s', hback, -, -, hfixed, hsaved⟩ := hread name'
    exact ⟨s', hback, hfixed, hsaved⟩

/-- Two literals in blocks of their own, a stored byte, and a byte behind them. -/
theorem recode_idempotent_several :
    let config : Config := {}
    let bytes : List UInt8 := [74, 4, 40, 9, 144, 1, 0, 254, 255, 65, 7]
    let s := Stream.ofBlocks "" [literalBlock 97, literalBlock 98, .stored ⟨[65], by decide⟩]
    config.maxPasses = 0 ∧ Stream.parse "" bytes = .ok s ∧
      (recode config (recode config bytes).bytes).bytes = (recode config bytes).bytes ∧
      ∃ out s', (s.optimise config).stream.write = .ok out ∧ Stream.parse "" out = .ok s' ∧
        (s'.optimise config).stream = s' ∧ (s'.optimise config).saved = 0 := by
  intro config bytes s
  obtain ⟨hbytes, hstreams⟩ := @recode_idempotent config rfl
  obtain ⟨out, hwrite, hread⟩ := hstreams "" bytes s Stream.parse_several
  obtain ⟨s', hback, hsame, hsaved⟩ := hread ""
  exact ⟨rfl, Stream.parse_several, (hbytes bytes).1, out, s', hwrite, hback, hsame, hsaved⟩

end DeflateRecoder
