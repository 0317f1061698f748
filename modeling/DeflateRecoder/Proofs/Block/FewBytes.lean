import DeflateRecoder.Proofs.Block.Basic
import DeflateRecoder.Proofs.Block.TableChanges

/-!
# Blocks of few bytes

A match stands for three bytes at least, so a block of fewer bytes has literals and its end for
tokens (`CodedBlock.tokens_of_few`). Under the fixed tables a literal takes eight bits or more, and
no more than eight if its byte is below 144. Tables of its own cannot make such a block smaller, since
their header takes more than the literals can save (`Block.le_bitSize_of_few`).
-/

namespace DeflateRecoder

open CodedBlock

/-! ## Literals under the fixed tables -/

/-- A length below a bound is among the fixed lengths up to the bound. -/
theorem lengthOf_fixedLitlen_mem {s n : Nat} (hs : s < n) (hn : n ≤ 288) :
    CodeTable.fixedLitlen.lengthOf s ∈ fixedLitlenLengths.take n := by
  have hlength : fixedLitlenLengths.length = 288 := by
    rw [← CodeTable.lengths_fixedLitlen, CodeTable.length_lengths, CodeTable.size_fixedLitlen]
  have hlt : s < fixedLitlenLengths.length := by omega
  rw [CodeTable.lengthOf_eq, CodeTable.lengths_fixedLitlen, List.getElem?_eq_getElem hlt]
  exact List.mem_take_iff_getElem.2 ⟨s, by omega, rfl⟩

/-- Under the fixed tables every literal takes eight bits or more. -/
theorem le_lengthOf_fixedLitlen (byte : UInt8) : 8 ≤ CodeTable.fixedLitlen.lengthOf byte.toNat := by
  have hall : ∀ m ∈ fixedLitlenLengths.take 256, 8 ≤ m := by decide +kernel
  exact hall _ (lengthOf_fixedLitlen_mem byte.toNat_lt (by decide))

/-- Under the fixed tables the end of a block takes seven bits. -/
theorem tokensCost_end :
    tokensCost CodeTable.fixedLitlen CodeTable.fixedDist [.endOfBlock] = 7 := by
  have hend : CodeTable.fixedLitlen.lengthOf endSymbol = 7 := by
    rw [CodeTable.lengthOf_eq, CodeTable.lengths_fixedLitlen]
    rfl
  rw [tokensCost, total_cons, total_nil, Nat.add_zero]
  exact hend

/-- What literals and the end of a block cost under the fixed tables at least. -/
theorem le_tokensCost_literals (bytes : List UInt8) :
    7 + 8 * bytes.length ≤ tokensCost CodeTable.fixedLitlen CodeTable.fixedDist
      (bytes.map .literal ++ [.endOfBlock]) := by
  induction bytes with
  | nil => exact Nat.le_of_eq tokensCost_end.symm
  | cons byte bytes ih =>
    have hliteral : 8 ≤ Token.cost CodeTable.fixedLitlen CodeTable.fixedDist (.literal byte) :=
      le_lengthOf_fixedLitlen byte
    rw [tokensCost] at ih
    rw [List.map_cons, List.cons_append, tokensCost, total_cons, List.length_cons]
    omega

/-- What literals of bytes with a short word and the end of a block cost under the fixed tables. -/
theorem tokensCost_literals {bytes : List UInt8} (h : ∀ byte ∈ bytes, byte.toNat < 144) :
    tokensCost CodeTable.fixedLitlen CodeTable.fixedDist
      (bytes.map .literal ++ [.endOfBlock]) = 7 + 8 * bytes.length := by
  have hshort : ∀ m ∈ fixedLitlenLengths.take 144, m = 8 := by decide +kernel
  induction bytes with
  | nil => exact tokensCost_end
  | cons byte bytes ih =>
    obtain ⟨hbyte, hbytes⟩ := List.forall_mem_cons.1 h
    have hrest := ih hbytes
    have hliteral : Token.cost CodeTable.fixedLitlen CodeTable.fixedDist (.literal byte) = 8 :=
      hshort _ (lengthOf_fixedLitlen_mem hbyte (by decide))
    rw [tokensCost] at hrest
    rw [List.map_cons, List.cons_append, tokensCost, total_cons, hliteral, hrest, List.length_cons]
    omega

/-! ## The tokens of few bytes -/

/-- Tokens without an end that stand for no more than two bytes are literals. -/
theorem eq_literals_of_few {window : Window} {current : List UInt8} {body : List Token}
    (hlegal : ∀ t ∈ body, t.Legal) (hend : Token.endOfBlock ∉ body)
    (hfollows : Follows window current body) (hfew : (tokenBytes body).length ≤ 2) :
    body = (tokenBytes body).map .literal := by
  induction body generalizing current with
  | nil => rfl
  | cons t body ih =>
    have hbytes : tokenBytes (t :: body) = t.bytes ++ tokenBytes body := rfl
    rw [hbytes, List.length_append] at hfew
    have hrest := ih (fun t ht => hlegal t (.tail _ ht)) (fun hmem => hend (.tail _ hmem))
      hfollows.2 (by omega)
    cases t with
    | literal byte =>
      rw [hbytes, List.map_append, ← hrest]
      rfl
    | endOfBlock => exact absurd (.head _) hend
    | copy length distance bytes =>
      -- A match stands for as many bytes as it is long.
      obtain ⟨hlength, -⟩ := hlegal _ (.head _)
      obtain ⟨-, -, -, hrepeated⟩ := resolve_eq_ok.1 hfollows.1
      have hbytes : bytes.length = length := by rw [hrepeated, repeated, length_cycle]
      rw [Token.bytes, hbytes] at hfew
      omega

/-- A block of no more than two bytes has their literals and the end for tokens. -/
theorem CodedBlock.tokens_of_few {window : Window} {b : CodedBlock} (h : b.WellFormed window)
    (hfew : b.bytes.length ≤ 2) : b.tokens = b.bytes.map .literal ++ [.endOfBlock] := by
  obtain ⟨body, htokens, hend⟩ := h.closed
  have hbytes : b.bytes = tokenBytes body := by
    rw [h.bytes_eq, htokens, tokenBytes_append, tokenBytes_end, List.append_nil]
  have hfollows := h.follows
  rw [htokens] at hfollows
  have hbody := eq_literals_of_few (fun t ht => h.legal t (htokens ▸ List.mem_append_left _ ht)) hend
    (follows_append.1 hfollows).1 (hbytes ▸ hfew)
  rw [htokens, hbytes, ← hbody]

/-- A header takes 26 bits at least: three counts, and the lengths of four words of its own code. -/
theorem CodedBlock.le_bitSize_of_dynamic {window : Window} {b : CodedBlock}
    (h : b.WellFormed window) (hkind : b.kind = .dynamic) : 26 ≤ b.bitSize := by
  have hcoding := h.coding
  unfold kind at hkind
  cases hc : b.coding with
  | fixed =>
    rw [hc] at hkind
    cases hkind
  | dynamic litlen dist header =>
    rw [hc] at hcoding
    have hheader : b.header? = some header := by rw [header?, hc]
    have horder := hcoding.1.orderCount_ge
    rw [bitSize, hheader, Option.elim_some, hcoding.1.bitSize_eq, TableHeader.recount]
    omega

/-- A block of no more than two bytes does not take fewer bits than literals under the fixed
tables. -/
theorem Block.le_bitSize_of_few {window : Window} {b : Block} (h : b.WellFormed window)
    (hfew : b.bytes.length ≤ 2) (position : Nat) :
    7 + 8 * b.bytes.length ≤ b.bitSize position := by
  cases b with
  | stored b =>
    simp only [bitSize, bytes, StoredBlock.bitSize]
    omega
  | coded b =>
    rw [bytes] at hfew ⊢
    rw [bitSize]
    cases hc : b.coding with
    | fixed =>
      have hcost := le_tokensCost_literals b.bytes
      rw [CodedBlock.bitSize, h.tokenBits_eq, CodedBlock.litlen, CodedBlock.dist, hc,
        CodedBlock.tokens_of_few h hfew]
      exact Nat.le_trans hcost (Nat.le_add_left _ _)
    | dynamic litlen dist header =>
      have hheader := CodedBlock.le_bitSize_of_dynamic h (by rw [CodedBlock.kind, hc])
      omega

/-! ## One literal under the fixed tables -/

section

variable {position : Nat}

/-- Under the fixed tables there is no header. -/
theorem Block.bitSize_fixed (tokens : List Token) (bytes : List UInt8) :
    (Block.coded (.ofCoding .fixed tokens bytes)).bitSize position =
      tokensCost CodeTable.fixedLitlen CodeTable.fixedDist tokens := by
  rw [bitSize, CodedBlock.bitSize]
  exact Nat.zero_add _

/-- A byte as a literal under the fixed tables. -/
def literalBlock (byte : UInt8) : Block :=
  .coded (CodedBlock.ofCoding .fixed [.literal byte, .endOfBlock] [byte])

/-- A literal needs no window. -/
theorem wellFormed_literalBlock (window : Window) (byte : UInt8) :
    (literalBlock byte).WellFormed window := by
  have hbody := CodedBlock.body_literals window [byte]
  exact CodedBlock.Body.wellFormed hbody
    (CodedBlock.writable_fixed hbody.closed.mem hbody.legal [byte]) rfl

/-- A literal with a short word and the end take 15 bits. -/
theorem bitSize_literalBlock {byte : UInt8} (h : byte.toNat < 144) :
    (literalBlock byte).bitSize position = 15 :=
  (Block.bitSize_fixed _ _).trans (@tokensCost_literals [byte] (List.forall_mem_singleton.2 h))

end

end DeflateRecoder
