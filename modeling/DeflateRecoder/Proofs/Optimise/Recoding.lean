import DeflateRecoder.Optimise.Recoding
import DeflateRecoder.Proofs.Optimise.Pass

/-!
# Recoding loses nothing

The blocks that passes leave are a chain if those before them were, so they are written and read
back (`Stream.write_optimise`). That the output is checked before it is used is therefore never what
decides: `recode` gives out the new bytes whenever there are fewer of them (`recode_lossless`).
-/

namespace DeflateRecoder

/-- An optimised stream is written, and what was written is read back with the same blocks, which
stand for the bytes that there were before. -/
theorem Stream.write_optimise {name : String} {bytes : List UInt8} {s : Stream}
    (h : parse name bytes = .ok s) (config : Config) :
    ∃ out, (s.optimise config).stream.write = .ok out ∧ ∀ name', ∃ s', parse name' out = .ok s' ∧
      s'.blocks = (s.optimise config).stream.blocks ∧ s'.bytes = s.bytes := by
  obtain ⟨hne, hchain⟩ := chain_optimise h config
  obtain ⟨out, hwrite, -, hread⟩ := parse_of_chain hne hchain
  refine ⟨out, hwrite, fun name' => ?_⟩
  obtain ⟨s', hparse, hsame⟩ := hread name' []
  rw [List.append_nil] at hparse
  refine ⟨s', hparse, hsame, ?_⟩
  rw [Stream.bytes, hsame]
  exact (optimise_improves config s).bytes_eq

/-- Bytes that are read as a stream of the expected bytes pass the test. -/
theorem verify_of_parse {output expected : List UInt8} {s : Stream}
    (h : Stream.parse "" output = .ok s) (hbytes : s.bytes = expected) :
    (verify output expected).2 = .ok () := by
  unfold verify
  rw [h]
  exact if_pos (by rw [hbytes, beq_self_eq_true])

/-- A stream that is written as bytes that pass the test is written as them. -/
theorem Stream.writeVerified_eq {s : Stream} {expected out : List UInt8} (h : s.write = .ok out)
    (hv : (verify out expected).2 = .ok ()) : (s.writeVerified expected).2 = .ok out := by
  unfold Stream.writeVerified
  rw [h]
  dsimp only
  rw [hv]
  rfl

section

variable {config : Config} {bytes : List UInt8}

/-- Bytes that are refused are given out as they are. -/
theorem recode_of_parse_error {e : Error} (h : Stream.parse "" bytes = .error e) :
    ∃ events, recode config bytes = .unchanged bytes 0 events := by
  refine ⟨[.inputRefused e], ?_⟩
  unfold recode
  rw [h]

/-- Of bytes that were read and written again, the shorter are given out, and the old ones if there
is no difference. -/
theorem recode_of_written {s : Stream} {out : List UInt8} (h : Stream.parse "" bytes = .ok s)
    (hw : ((s.optimise config).stream.writeVerified s.bytes).2 = .ok out) :
    ∃ events, recode config bytes =
      if bytes.length ≤ out.length then .unchanged bytes s.length events
      else
        { bytes := out
          stats := ⟨8 * bytes.length, 8 * out.length, s.length, (s.optimise config).stream.length⟩
          events } := by
  unfold recode
  rw [h]
  dsimp only
  rw [hw]
  exact ⟨_, rfl⟩

end

/-- The bytes given out are no more than those given, the sizes are those of the bytes, and it is
the same bytes exactly if nothing is reported to be saved. -/
structure Recoding.Accounts (r : Recoding) (bytes : List UInt8) : Prop where
  length_le : r.bytes.length ≤ bytes.length
  inputBits_eq : r.stats.inputBits = 8 * bytes.length
  outputBits_eq : r.stats.outputBits = 8 * r.bytes.length
  unchanged_iff : r.stats.unchanged = true ↔ r.bytes = bytes

/-- Bytes that are given out as they are are accounted for. -/
theorem Recoding.accounts_unchanged (bytes : List UInt8) (blocks : Nat) (events : List Event) :
    (unchanged bytes blocks events).Accounts bytes where
  length_le := Nat.le_refl _
  inputBits_eq := rfl
  outputBits_eq := rfl
  unchanged_iff := by
    have hsaved : (unchanged bytes blocks events).stats.saved = 0 := Nat.sub_self _
    rw [Stats.unchanged, hsaved]
    exact ⟨fun _ => rfl, fun _ => rfl⟩

/-- Fewer bytes than there were are accounted for. -/
theorem Recoding.accounts_of_lt {bytes out : List UInt8} (h : out.length < bytes.length)
    (inputBlocks outputBlocks : Nat) (events : List Event) :
    Accounts ⟨out, ⟨8 * bytes.length, 8 * out.length, inputBlocks, outputBlocks⟩, events⟩
      bytes where
  length_le := Nat.le_of_lt h
  inputBits_eq := rfl
  outputBits_eq := rfl
  unchanged_iff := by
    rw [Stats.unchanged, Stats.saved, beq_iff_eq]
    refine ⟨fun h0 => ?_, fun heq => ?_⟩
    · dsimp only at h0
      omega
    · exact absurd (congrArg List.length heq) (Nat.ne_of_lt h)

/-- What is given out is the new bytes if there are fewer of them, and the old ones otherwise. The
new bytes stand for the same bytes, so reading them back never fails. -/
theorem recode_lossless (config : Config) (bytes : List UInt8) :
    let r := recode config bytes
    r.Accounts bytes ∧
    (∀ e, Stream.parse "" bytes = .error e → r.bytes = bytes) ∧
    ∀ s, Stream.parse "" bytes = .ok s → ∃ out,
      (s.optimise config).stream.write = .ok out ∧ (verify out s.bytes).2 = .ok () ∧
      ((s.optimise config).stream.writeVerified s.bytes).2 = .ok out ∧
      (∃ s', Stream.parse "" out = .ok s' ∧ s'.bytes = s.bytes) ∧
      r.bytes = (if out.length < bytes.length then out else bytes) ∧
      r.stats.inputBlocks = s.length ∧ 1 ≤ r.stats.outputBlocks ∧
      r.stats.outputBlocks ≤ r.stats.inputBlocks := by
  intro r
  cases hparse : Stream.parse "" bytes with
  | error e =>
    obtain ⟨events, hr⟩ := @recode_of_parse_error config _ _ hparse
    have hr : r = .unchanged bytes 0 events := hr
    refine ⟨?_, fun _ _ => ?_, nofun⟩
    · rw [hr]
      exact Recoding.accounts_unchanged _ _ _
    · rw [hr]
      rfl
  | ok s =>
    obtain ⟨out, hwrite, hread⟩ := Stream.write_optimise hparse config
    obtain ⟨s', hback, -, hbytes⟩ := hread ""
    have hverify := verify_of_parse hback hbytes
    have hwritten := Stream.writeVerified_eq hwrite hverify
    obtain ⟨events, hr⟩ := recode_of_written hparse hwritten
    have hr : r = _ := hr
    have hblocks := Stream.length_optimise hparse config
    rw [hr]
    by_cases hlen : bytes.length ≤ out.length
    · rw [if_pos hlen]
      refine ⟨Recoding.accounts_unchanged _ _ _, nofun, fun t ht => ?_⟩
      cases ht
      exact ⟨out, hwrite, hverify, hwritten, ⟨s', hback, hbytes⟩,
        (if_neg (Nat.not_lt.2 hlen)).symm, rfl,
        Nat.le_trans hblocks.1 hblocks.2, Nat.le_refl _⟩
    · rw [if_neg hlen]
      have hlt := Nat.not_le.1 hlen
      refine ⟨Recoding.accounts_of_lt hlt _ _ _, nofun, fun t ht => ?_⟩
      cases ht
      exact ⟨out, hwrite, hverify, hwritten, ⟨s', hback, hbytes⟩, (if_pos hlt).symm, rfl, hblocks⟩

/-- Two literals in blocks of their own, a stored byte, and a byte behind them: what is written is
shorter, so it is given out. -/
theorem recode_lossless_several :
    let bytes : List UInt8 := [74, 4, 40, 9, 144, 1, 0, 254, 255, 65, 7]
    let s := Stream.ofBlocks "" [literalBlock 97, literalBlock 98, .stored ⟨[65], by decide⟩]
    Stream.parse "" bytes = .ok s ∧ ∃ out, (s.optimise {}).stream.write = .ok out ∧
      out.length < bytes.length ∧ (verify out [97, 98, 65]).2 = .ok () ∧
      (recode {} bytes).bytes = out ∧ (recode {} bytes).stats.inputBlocks = 3 ∧
      (recode {} bytes).stats.outputBlocks ≤ 3 := by
  intro bytes s
  have hparse : Stream.parse "" bytes = .ok s := Stream.parse_several
  obtain ⟨-, -, hparsed⟩ := recode_lossless {} bytes
  obtain ⟨out, hwrite, hverify, -, -, hbytes, hinput, -, houtput⟩ := hparsed s hparse
  have hshorter : out.length < bytes.length := by
    obtain ⟨hne, hchain⟩ := Stream.chain_optimise hparse {}
    obtain ⟨out', hwrite', hlen, -⟩ := Stream.write_of_chain hne hchain
    cases hwrite.symm.trans hwrite'
    have hle : (s.optimise {}).stream.bitSize ≤ s.bitSize := (Stream.optimise_improves {} s).end_le
    have hsize : s.bitSize = 80 := by decide +kernel
    have hbytes : bytes.length = 11 := rfl
    omega
  rw [if_pos hshorter] at hbytes
  exact ⟨hparse, out, hwrite, hshorter, hverify, hbytes, hinput,
    Nat.le_trans houtput (Nat.le_of_eq hinput)⟩

end DeflateRecoder
