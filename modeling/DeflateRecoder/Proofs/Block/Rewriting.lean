import DeflateRecoder.Proofs.Block.TableChanges

/-!
# Any sequence of changes

The operations that change a coded block from within can follow each other in any order. Each of
them succeeds on a block that can be written and refines it (`CodedBlock.Rewriting.apply_total`), so
a whole sequence does (`CodedBlock.rewrite_total`). For blocks as they come up, from bits or from
tokens (`CodedBlock.Origin`), `CodedBlock.rewrite_sound` says what is kept all along the way.
-/

namespace DeflateRecoder

namespace CodedBlock

/-- An operation that changes a block from within. -/
inductive Rewriting
  /-- Matches that cost more than their bytes are spelled out. -/
  | expandMatches (ties : Bool)
  /-- The header is made smaller without a new code. -/
  | tidyHeader
  /-- Tokens and header are made smaller without new tables. -/
  | tidy
  /-- The code lengths are packed into a new header. -/
  | packHeader (rules : PackingRules)
  /-- The header gets an optimal code. -/
  | recodeHeader
  /-- The header loses the runs that save nothing and gets an optimal code. -/
  | pruneHeader
  /-- The tokens get optimal tables. -/
  | recode
  /-- The tokens lose the matches that save nothing and get optimal tables. -/
  | recodePruned
  /-- The tokens get the fixed tables. -/
  | toFixed
  /-- A length symbol is given up, if there is one to give up. -/
  | dropLength (mode : DropMode)
  deriving DecidableEq, Repr

/-- The block that an operation gives. -/
def Rewriting.apply (b : CodedBlock) : Rewriting → Except Error CodedBlock
  | .expandMatches ties => .ok (b.expandMatches ties).1
  | .tidyHeader => .ok b.tidyHeader.1
  | .tidy => .ok b.tidy.1
  | .packHeader rules => b.packHeader rules
  | .recodeHeader => b.recodeHeader
  | .pruneHeader => b.pruneHeader
  | .recode => b.recode
  | .recodePruned => b.recodePruned
  | .toFixed => .ok b.toFixed
  | .dropLength mode => .ok ((b.dropLength? mode).getD b)

/-- The block that operations give, one after the other. -/
def rewrite (b : CodedBlock) (rewritings : List Rewriting) : Except Error CodedBlock :=
  rewritings.foldlM Rewriting.apply b

/-! ## One change -/

/-- Giving up a length symbol refines a block, and so does finding none to give up. -/
theorem dropLength?_refines (b : CodedBlock) (mode : DropMode) :
    b.Refines ((b.dropLength? mode).getD b) := by
  cases h : b.dropLength? mode with
  | none => exact .refl b
  | some c => exact dropFrom?_refines h

/-- Each operation on a block refines it. -/
theorem Rewriting.apply_refines {b c : CodedBlock} {r : Rewriting} (e : r.apply b = .ok c) :
    b.Refines c := by
  cases r with
  | expandMatches ties =>
    cases e
    exact expandMatches_refines ties b
  | tidyHeader =>
    cases e
    exact tidyHeader_refines b
  | tidy =>
    cases e
    exact tidy_refines b
  | packHeader rules => exact packHeader_refines e
  | recodeHeader => exact recodeHeader_refines e
  | pruneHeader => exact pruneHeader_refines e
  | recode => exact recode_refines e
  | recodePruned => exact recodePruned_refines e
  | toFixed =>
    cases e
    exact toFixed_refines b
  | dropLength mode =>
    cases e
    exact dropLength?_refines b mode

/-- No operation fails on a block that can be written. -/
theorem Rewriting.apply_total {b : CodedBlock} (h : b.Writable) (r : Rewriting) :
    ∃ c, r.apply b = .ok c := by
  cases r with
  | expandMatches | tidyHeader | tidy | toFixed | dropLength => exact ⟨_, rfl⟩
  | packHeader rules => exact mapHeader_total (fun _ _ _ => TableHeader.ofSymbols_total _ _ _) b
  | recodeHeader | pruneHeader =>
    exact mapHeader_total (fun _ _ _ => TableHeader.ofSymbols_total _ _ _) b
  | recode => exact encode_total h.ends b.bytes
  | recodePruned => exact encode_total ((expandMatches_refines true b).writable h).ends _

/-! ## One change after the other -/

/-- Operations in any order succeed on a block that can be written, and refine it. -/
theorem rewrite_total {b : CodedBlock} (h : b.Writable) (rewritings : List Rewriting) :
    ∃ c, b.rewrite rewritings = .ok c ∧ b.Refines c := by
  refine foldlM_total (P := Writable) Refines.refl Refines.trans (fun hb r => ?_) rewritings h
  obtain ⟨c, e⟩ := Rewriting.apply_total hb r
  have hc := Rewriting.apply_refines e
  exact ⟨c, e, hc, hc.writable hb⟩

/-! ## Blocks from bits and from tokens -/

/-- Where blocks come from behind a window: bits that are read, or tokens that make up a block. -/
inductive Origin (window : Window) : Except Error CodedBlock → Prop
  | read {kind : BlockKind} {r r' : BitReader} {b : CodedBlock} (hr : r.Valid)
    (e : read kind window r = .ok b r') : Origin window (.ok b)
  | tokens {tokens : List Token} (h : Body window tokens) : Origin window (ofTokens tokens)

/-- A block that was read is well-formed behind the window. -/
theorem wellFormed_of_read {kind : BlockKind} {window : Window} {r r' : BitReader} {b : CodedBlock}
    (hr : r.Valid) (e : read kind window r = .ok b r') : b.WellFormed window := by
  have hkind : kind ≠ .stored := by
    rintro rfl
    cases e
  obtain ⟨-, bits, -, -, -, hb, -⟩ := (read_recognises hkind window).sound hr e
  exact hb

/-- Blocks are obtained without an error from bits and tokens, and well-formed behind the window. -/
theorem Origin.wellFormed {window : Window} {start : Except Error CodedBlock}
    (h : Origin window start) : ∃ b, start = .ok b ∧ b.WellFormed window := by
  cases h with
  | read hr e => exact ⟨_, rfl, wellFormed_of_read hr e⟩
  | tokens h =>
    obtain ⟨b, e⟩ := ofTokens_total h.closed
    exact ⟨b, e, (wellFormed_ofTokens e h).1⟩

/-- Blocks from bits and from tokens stay well-formed under operations in any order. -/
theorem Origin.wellFormed_rewrite {window : Window} {start : Except Error CodedBlock}
    (h : Origin window start) (rewritings : List Rewriting) :
    ∃ b c, start = .ok b ∧ b.rewrite rewritings = .ok c ∧ c.WellFormed window := by
  obtain ⟨b, hstart, hb⟩ := h.wellFormed
  obtain ⟨c, e, hrefines⟩ := rewrite_total hb.writable rewritings
  exact ⟨b, c, hstart, e, hrefines.wellFormed window hb⟩

/-- A block has a header just when its kind announces one, and the header stands for its tables. -/
theorem header?_spec {b : CodedBlock} (h : b.coding.WellFormed) :
    (b.header?.isSome ↔ b.kind = .dynamic) ∧ ∀ header, b.header? = some header →
      header.WellFormed ∧ header.litlenCount = b.litlen.size ∧ header.distCount = b.dist.size ∧
        unpack header.symbols = .ok (b.litlen.lengths ++ b.dist.lengths) := by
  unfold header? kind litlen dist
  cases hc : b.coding with
  | fixed => exact ⟨⟨nofun, nofun⟩, nofun⟩
  | dynamic litlen dist header =>
    rw [hc] at h
    obtain ⟨hw, -, -, hls, hds, hu⟩ := h
    refine ⟨⟨fun _ => rfl, fun _ => rfl⟩, ?_⟩
    rintro _ ⟨⟩
    exact ⟨hw, hls.symm, hds.symm, hu⟩

/-- Blocks can be made of bits that are read and of tokens that make up a block, and then changed by
operations in any order without an error. The bytes stay, and they are those of the tokens; the
tokens have one end, at the end; matches find their bytes behind the same window; the tables have
words for all tokens; and there is a header just when the block is dynamic, which stands for the
tables. -/
theorem rewrite_sound {window : Window} {start : Except Error CodedBlock}
    (h : Origin window start) (rewritings : List Rewriting) :
    ∃ b c, start = .ok b ∧ b.rewrite rewritings = .ok c ∧
      c.bytes = b.bytes ∧ c.bytes = tokenBytes c.tokens ∧ Closed c.tokens ∧
      Follows window [] c.tokens ∧ (∀ t ∈ c.tokens, t.Coded c.litlen c.dist) ∧
      (c.header?.isSome ↔ c.kind = .dynamic) ∧ ∀ header, c.header? = some header →
        header.WellFormed ∧ header.litlenCount = c.litlen.size ∧ header.distCount = c.dist.size ∧
          unpack header.symbols = .ok (c.litlen.lengths ++ c.dist.lengths) := by
  obtain ⟨b, hstart, hb⟩ := h.wellFormed
  obtain ⟨c, e, hrefines⟩ := rewrite_total hb.writable rewritings
  have hc := hrefines.wellFormed window hb
  exact ⟨b, c, hstart, e, hrefines.bytes_eq, hc.bytes_eq, hc.closed, hc.follows, hc.coded,
    header?_spec hc.coding⟩

/-- A match that reaches into the window, under optimal tables, with its bytes for it, and under the
fixed tables. -/
theorem rewrite_sound_match :
    ∃ b c, ofTokens [.copy 3 1 [65, 65, 65], .endOfBlock] = .ok b ∧
      b.rewrite [.expandMatches true, .recode, .pruneHeader, .dropLength .rarest, .toFixed] = .ok c ∧
      c.bytes = b.bytes := by
  have hfound : resolve #[] (Window.ofBlocks [#[65]]) 1 3 = .ok [65, 65, 65] :=
    resolve_eq_ok.2 ⟨by decide, by decide, by decide, by decide⟩
  have hbody : Body (Window.ofBlocks [#[65]]) [.copy 3 1 [65, 65, 65], .endOfBlock] :=
    body_copy ⟨by decide, by decide, by decide, by decide⟩ hfound
  obtain ⟨b, c, hb, hc, hbytes, -⟩ := rewrite_sound (.tokens hbody)
    [.expandMatches true, .recode, .pruneHeader, .dropLength .rarest, .toFixed]
  exact ⟨b, c, hb, hc, hbytes⟩

end CodedBlock

end DeflateRecoder
