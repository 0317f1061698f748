import DeflateRecoder.Block.Coded.Matches
import DeflateRecoder.Proofs.Block.Coded
import DeflateRecoder.Proofs.Block.HeaderChanges

/-!
# Blocks with matches spelled out

A block refines another one when it stands for the same bytes, can be written if the other can, and
is well-formed wherever the other is (`CodedBlock.Refines`). Spelling out matches whose bytes have
words refines a block as long as its size is kept right (`CodedBlock.refines_of_spelled`);
`expandMatches` and `dropFrom?` are cases of it.
-/

namespace DeflateRecoder

namespace CodedBlock

/-- A block stands for the same bytes as another one, can be written if the other can, and is
well-formed wherever the other is. -/
structure Refines (b c : CodedBlock) : Prop where
  bytes_eq : c.bytes = b.bytes
  writable : b.Writable → c.Writable
  wellFormed : ∀ w, b.WellFormed w → c.WellFormed w

/-- A block refines itself. -/
theorem Refines.refl (b : CodedBlock) : b.Refines b := ⟨rfl, id, fun _ => id⟩

/-- What refines a block that refines another one refines that. -/
theorem Refines.trans {a b c : CodedBlock} (hb : a.Refines b) (hc : b.Refines c) : a.Refines c where
  bytes_eq := hc.bytes_eq.trans hb.bytes_eq
  writable := fun h => hc.writable (hb.writable h)
  wellFormed := fun w h => hc.wellFormed w (hb.wellFormed w h)

/-! ## Spelled tokens -/

/-- A token stays, or it is a match that is spelled out by literals that have words. -/
def Spelled (litlen : CodeTable) (t : Token) (ts : List Token) : Prop :=
  ts = [t] ∨ t.isCopy = true ∧ ts = spell t ∧ ∀ byte ∈ t.bytes, 0 < litlen.lengthOf byte.toNat

/-- Literals stand for their bytes. -/
theorem tokenBytes_map_literal (bytes : List UInt8) : tokenBytes (bytes.map .literal) = bytes := by
  induction bytes with
  | nil => rfl
  | cons byte bytes ih => exact congrArg (byte :: ·) ih

/-- Literals follow any bytes. -/
theorem follows_map_literal (window : Window) (current bytes : List UInt8) :
    Follows window current (bytes.map .literal) := by
  induction bytes generalizing current with
  | nil => trivial
  | cons byte bytes ih => exact ⟨trivial, ih _⟩

/-- Literals cost the words of their bytes. -/
theorem tokensCost_map_literal (litlen dist : CodeTable) (bytes : List UInt8) :
    tokensCost litlen dist (bytes.map .literal) = total (litlen.lengthOf ·.toNat) bytes := by
  induction bytes with
  | nil => rfl
  | cons byte bytes ih =>
    rw [List.map_cons, tokensCost, total_cons, ← tokensCost, ih, total_cons]
    rfl

/-- The bytes of the first token come first. -/
theorem tokenBytes_cons (t : Token) (tokens : List Token) :
    tokenBytes (t :: tokens) = t.bytes ++ tokenBytes tokens := rfl

/-- What spells out a token stands for the same bytes. -/
theorem Spelled.tokenBytes_eq {litlen : CodeTable} {t : Token} {ts : List Token}
    (h : Spelled litlen t ts) : tokenBytes ts = t.bytes := by
  rcases h with rfl | ⟨-, rfl, -⟩
  · exact List.append_nil _
  · exact tokenBytes_map_literal t.bytes

/-- Tokens whose replacements stand for the same bytes are replaced without a change of the
bytes. -/
theorem tokenBytes_flatMap {f : Token → List Token} {tokens : List Token}
    (hf : ∀ t ∈ tokens, tokenBytes (f t) = t.bytes) :
    tokenBytes (tokens.flatMap f) = tokenBytes tokens := by
  induction tokens with
  | nil => rfl
  | cons t tokens ih =>
    rw [List.flatMap_cons, tokenBytes_append, hf t List.mem_cons_self,
      ih fun t ht => hf t (List.mem_cons_of_mem _ ht), tokenBytes_cons]

/-- Tokens that are spelled out follow a window as before: the bytes in front of each are the
same. -/
theorem follows_flatMap {litlen : CodeTable} {window : Window} {current : List UInt8}
    {f : Token → List Token} {tokens : List Token} (hf : ∀ t ∈ tokens, Spelled litlen t (f t))
    (h : Follows window current tokens) : Follows window current (tokens.flatMap f) := by
  induction tokens generalizing current with
  | nil => trivial
  | cons t tokens ih =>
    have ht := hf t List.mem_cons_self
    rw [List.flatMap_cons, follows_append, ht.tokenBytes_eq]
    refine ⟨?_, ih (fun t ht => hf t (List.mem_cons_of_mem _ ht)) h.2⟩
    rcases ht with ht | ⟨-, ht, -⟩
    · rw [ht]
      exact ⟨h.1, trivial⟩
    · rw [ht]
      exact follows_map_literal window current t.bytes

/-- An end is not spelled out. -/
theorem Spelled.endOfBlock_eq {litlen : CodeTable} {ts : List Token}
    (h : Spelled litlen .endOfBlock ts) : ts = [.endOfBlock] := by
  rcases h with h | ⟨h, -⟩
  · exact h
  · cases h

/-- Closed tokens stay closed when some of them are spelled out. -/
theorem closed_flatMap {litlen : CodeTable} {f : Token → List Token} {tokens : List Token}
    (hf : ∀ t ∈ tokens, Spelled litlen t (f t)) (h : Closed tokens) :
    Closed (tokens.flatMap f) := by
  have hend := (hf _ h.mem).endOfBlock_eq
  obtain ⟨body, rfl, hbody⟩ := h
  refine ⟨body.flatMap f, ?_, ?_⟩
  · rw [List.flatMap_append, List.flatMap_cons, hend, List.flatMap_nil, List.append_nil]
  · intro hmem
    obtain ⟨t, ht, hmem⟩ := List.mem_flatMap.1 hmem
    rcases hf t (List.mem_append_left _ ht) with h | ⟨-, h, -⟩
    · rw [h, List.mem_singleton] at hmem
      rw [hmem] at hbody
      exact hbody ht
    · rw [h] at hmem
      obtain ⟨byte, -, hbyte⟩ := List.mem_map.1 hmem
      cases hbyte

/-- A block can still be written when matches whose bytes have words are spelled out. -/
theorem writable_of_spelled {b : CodedBlock} {f : Token → List Token} {bits : Nat}
    (hf : ∀ t ∈ b.tokens, Spelled b.litlen t (f t))
    (hbits : b.tokenBits = tokensCost b.litlen b.dist b.tokens →
      bits = tokensCost b.litlen b.dist (b.tokens.flatMap f)) (h : b.Writable) :
    Writable { b with tokens := b.tokens.flatMap f, tokenBits := bits } := by
  have hall : ∀ t ∈ b.tokens.flatMap f, t.Legal ∧ t.Coded b.litlen b.dist := by
    intro s hs
    obtain ⟨t, ht, hs⟩ := List.mem_flatMap.1 hs
    rcases hf t ht with h' | ⟨-, h', hcodes⟩
    · rw [h', List.mem_singleton] at hs
      rw [hs]
      exact ⟨h.legal t ht, h.coded t ht⟩
    · rw [h'] at hs
      obtain ⟨byte, hbyte, rfl⟩ := List.mem_map.1 hs
      exact ⟨trivial, hcodes byte hbyte, nofun⟩
  have hend : Token.endOfBlock ∈ f .endOfBlock := by
    rw [(hf _ h.ends).endOfBlock_eq]
    exact List.mem_singleton.2 rfl
  exact ⟨h.coding, List.mem_flatMap.2 ⟨_, h.ends, hend⟩, fun t ht => (hall t ht).1,
    fun t ht => (hall t ht).2, hbits h.tokenBits_eq⟩

/-- Spelling out matches whose bytes have words refines a block. -/
theorem refines_of_spelled {b : CodedBlock} {f : Token → List Token} {bits : Nat}
    (hf : ∀ t ∈ b.tokens, Spelled b.litlen t (f t))
    (hbits : b.tokenBits = tokensCost b.litlen b.dist b.tokens →
      bits = tokensCost b.litlen b.dist (b.tokens.flatMap f)) :
    b.Refines { b with tokens := b.tokens.flatMap f, tokenBits := bits } where
  bytes_eq := rfl
  writable := writable_of_spelled hf hbits
  wellFormed := fun w h => by
    have hw := writable_of_spelled hf hbits h.writable
    have hbytes := tokenBytes_flatMap fun t ht => (hf t ht).tokenBytes_eq
    exact ⟨hw.coding, closed_flatMap hf h.closed, hw.legal, hw.coded, follows_flatMap hf h.follows,
      hw.tokenBits_eq, h.bytes_eq.trans hbytes.symm⟩

/-! ## The cost of literals -/

/-- Bytes can be written as literals when they have words, and cost what the literals cost. -/
theorem addLiteralCost?_eq_some {litlen : CodeTable} {bits sum : Nat} {bytes : List UInt8} :
    addLiteralCost? litlen bits bytes = some sum ↔
      (∀ byte ∈ bytes, 0 < litlen.lengthOf byte.toNat) ∧
        sum = bits + total (litlen.lengthOf ·.toNat) bytes := by
  induction bytes generalizing bits with
  | nil => simp [addLiteralCost?, eq_comm]
  | cons byte bytes ih =>
    rw [addLiteralCost?, List.forall_mem_cons, total_cons, ← Nat.add_assoc]
    split
    · next hw => simp [hw]
    · next hw => rw [ih, and_assoc, and_iff_right (Nat.pos_of_ne_zero hw)]

/-- A match all of whose bytes have words can be spelled out, at the sum of these words. -/
theorem spelled_of_literalCost? {litlen dist : CodeTable} {t : Token} {sum : Nat}
    (ht : t.isCopy = true) (h : literalCost? litlen t.bytes = some sum) :
    Spelled litlen t (spell t) ∧ sum = tokensCost litlen dist (spell t) := by
  obtain ⟨hcodes, hsum⟩ := addLiteralCost?_eq_some.1 h
  refine ⟨.inr ⟨ht, rfl, hcodes⟩, ?_⟩
  rw [spell, tokensCost_map_literal, hsum, Nat.zero_add]

/-! ## Spelling out matches -/

/-- Where spelling out a token is worth it, its bytes have words, and the two sizes are those of the
token and of its literals. -/
theorem expansion?_eq_some {litlen dist : CodeTable} {ties : Bool} {t : Token} {a c : Nat}
    (h : expansion? litlen dist ties t = some (a, c)) :
    Spelled litlen t (spell t) ∧ a = t.cost litlen dist ∧
      c = tokensCost litlen dist (spell t) ∧ c ≤ a := by
  unfold expansion? at h
  split at h
  · next hcopy =>
    dsimp only at h
    obtain ⟨sum, hsum, h⟩ := Option.bind_eq_some_iff.1 h
    rw [addLiteralCostWithin?_eq, Option.filter_eq_some_iff, decide_eq_true_eq] at hsum
    obtain ⟨hspelled, rfl⟩ := @spelled_of_literalCost? _ dist _ _ hcopy hsum.1
    split at h
    · cases h
      exact ⟨hspelled, rfl, rfl, hsum.2⟩
    · cases h
  · cases h

/-- Where matches are spelled out, what is in the place of a token spells it. -/
theorem spelled_spellMatch (litlen dist : CodeTable) (ties : Bool) (t : Token) :
    Spelled litlen t (spellMatch litlen dist ties t) := by
  unfold spellMatch
  split
  · next hsome =>
    obtain ⟨⟨a, c⟩, hac⟩ := Option.isSome_iff_exists.1 hsome
    exact (expansion?_eq_some hac).1
  · exact .inl rfl

/-- What is counted as the price of a token when matches are spelled out is what its replacement
costs. -/
theorem replaces_spellMatch (litlen dist : CodeTable) (ties : Bool) (t : Token) :
    Replaces (expansion? litlen dist ties) (·.cost litlen dist)
      (fun t => tokensCost litlen dist (spellMatch litlen dist ties t)) t := by
  cases ht : expansion? litlen dist ties t with
  | none =>
    have hcost : tokensCost litlen dist (spellMatch litlen dist ties t) = t.cost litlen dist := by
      rw [spellMatch, ht]
      exact Nat.zero_add _
    exact .inr ⟨ht, hcost⟩
  | some ac =>
    obtain ⟨a, c⟩ := ac
    obtain ⟨-, rfl, rfl, hle⟩ := expansion?_eq_some ht
    have hcost : tokensCost litlen dist (spellMatch litlen dist ties t) =
        tokensCost litlen dist (spell t) := by
      rw [spellMatch, ht]
      rfl
    rw [← hcost] at ht hle
    exact .inl ⟨ht, hle⟩

/-- Spelling out matches takes the bits that are saved off the size of the tokens, and no more. -/
theorem expandMatches_tokenBits (ties : Bool) {b : CodedBlock}
    (hsize : b.tokenBits = tokensCost b.litlen b.dist b.tokens) :
    (b.expandMatches ties).1.tokenBits =
        tokensCost b.litlen b.dist (b.expandMatches ties).1.tokens ∧
      (b.expandMatches ties).1.tokenBits + (b.expandMatches ties).2 = b.tokenBits := by
  unfold expandMatches
  dsimp only
  split
  · obtain ⟨gain, hsum, hfold⟩ := foldl_savings (l := b.tokens)
      (fun t _ => replaces_spellMatch b.litlen b.dist ties t) 0 0
    rw [Nat.zero_add, Nat.zero_add, Nat.zero_add, ← tokensCost, ← hsize] at hfold
    rw [hfold, tokensCost, total_flatMap]
    exact ⟨rfl, hsum.trans hsize.symm⟩
  · exact ⟨hsize, rfl⟩

/-- Spelling out the matches that cost more than their bytes refines a block. -/
theorem expandMatches_refines (ties : Bool) (b : CodedBlock) :
    b.Refines (b.expandMatches ties).1 := by
  have hsize := @expandMatches_tokenBits ties b
  unfold expandMatches at hsize ⊢
  dsimp only at hsize ⊢
  split
  · next hany =>
    rw [if_pos hany] at hsize
    exact refines_of_spelled (fun t _ => spelled_spellMatch b.litlen b.dist ties t) fun hbits =>
      (hsize hbits).1
  · exact .refl b

/-! ## Giving up length symbols -/

/-- By how much a match with the given symbol grows when it is spelled out. -/
def growthOf (litlen dist : CodeTable) (symbol : Nat) (t : Token) : Option (Option Int) :=
  if t.isCopy && t.symbol == symbol then
    some ((literalCost? litlen t.bytes).map fun total => (total : Int) - t.cost litlen dist)
  else none

/-- The growths that are listed for a length symbol are those of its matches. -/
theorem filterMap_matchGrowths (b : CodedBlock) (symbol : Nat) :
    b.matchGrowths.filterMap (fun (s, growth) => if s = symbol then some growth else none) =
      b.tokens.filterMap (growthOf b.litlen b.dist symbol) := by
  rw [matchGrowths, List.filterMap_filterMap]
  congr 1
  funext t
  unfold growthOf
  cases hc : t.isCopy with
  | false => rfl
  | true =>
    rw [if_pos rfl, Option.bind_some, Bool.true_and]
    dsimp only
    by_cases hs : t.symbol = symbol
    · rw [if_pos hs, if_pos (by rw [hs, beq_self_eq_true])]
    · rw [if_neg hs, if_neg (by rw [beq_iff_eq]; exact hs)]

/-- A sum from any beginning on is the beginning and the sum. -/
theorem foldl_add_int (gs : List Int) (a : Int) :
    gs.foldl (· + ·) a = a + gs.foldl (· + ·) 0 := by
  induction gs generalizing a with
  | nil => exact (Int.add_zero a).symm
  | cons g gs ih =>
    rw [List.foldl_cons, List.foldl_cons, ih, ih (0 + g), Int.zero_add, Int.add_assoc]

/-- Where all of a list of options have values, the first of them and the others have. -/
theorem mapM_id_cons_eq_some {α : Type} {x : Option α} {l : List (Option α)} {as : List α}
    (h : (x :: l).mapM id = some as) :
    ∃ a rest, x = some a ∧ l.mapM id = some rest ∧ as = a :: rest := by
  rw [List.mapM_cons] at h
  obtain ⟨a, ha, h⟩ := Option.bind_eq_some_iff.1 h
  obtain ⟨rest, hrest, h⟩ := Option.bind_eq_some_iff.1 h
  cases h
  exact ⟨a, rest, ha, hrest, rfl⟩

/-- The tokens grow by what the matches that are spelled out grow by. -/
theorem spelled_of_growths {litlen dist : CodeTable} {symbol : Nat} {tokens : List Token}
    {gs : List Int} (h : (tokens.filterMap (growthOf litlen dist symbol)).mapM id = some gs) :
    (∀ t ∈ tokens, Spelled litlen t
      (if t.isCopy && t.symbol == symbol then spell t else [t])) ∧
    (tokensCost litlen dist (tokens.flatMap fun t =>
      if t.isCopy && t.symbol == symbol then spell t else [t]) : Int) =
        tokensCost litlen dist tokens + gs.foldl (· + ·) 0 := by
  induction tokens generalizing gs with
  | nil =>
    cases h
    exact ⟨by simp, rfl⟩
  | cons t tokens ih =>
    have hcost : tokensCost litlen dist (t :: tokens) =
        t.cost litlen dist + tokensCost litlen dist tokens := total_cons _ _ _
    rw [List.filterMap_cons] at h
    rw [List.flatMap_cons, tokensCost, total_append, ← tokensCost, ← tokensCost, hcost]
    by_cases hc : (t.isCopy && t.symbol == symbol) = true
    · -- Its growth is known, so all of its bytes have words.
      have hcopy := (Bool.and_eq_true _ _ ▸ hc).1
      rw [growthOf, if_pos hc] at h
      obtain ⟨growth, rest, hgrowth, hrest, rfl⟩ := mapM_id_cons_eq_some h
      obtain ⟨_, hlift, rfl⟩ := Option.map_eq_some_iff.1 hgrowth
      obtain ⟨sum, hlit, ⟨⟩⟩ := Option.bind_eq_some_iff.1 hlift
      obtain ⟨h₁, h₂⟩ := ih hrest
      obtain ⟨hspelled, hsum⟩ := @spelled_of_literalCost? _ dist _ _ hcopy hlit
      refine ⟨List.forall_mem_cons.2 ⟨by rw [if_pos hc]; exact hspelled, h₁⟩, ?_⟩
      rw [if_pos hc, ← hsum, List.foldl_cons, foldl_add_int]
      omega
    · rw [growthOf, if_neg hc] at h
      obtain ⟨h₁, h₂⟩ := ih h
      refine ⟨List.forall_mem_cons.2 ⟨by rw [if_neg hc]; exact .inl rfl, h₁⟩, ?_⟩
      have hone : tokensCost litlen dist [t] = t.cost litlen dist := Nat.zero_add _
      rw [if_neg hc, hone]
      omega

/-- The tokens grow by what giving up a length symbol is said to cost. -/
theorem giveUp_tokens {b : CodedBlock} {use : LengthUse} (h : use ∈ b.droppable) :
    (∀ t ∈ b.tokens, Spelled b.litlen t
      (if t.isCopy && t.symbol == use.symbol then spell t else [t])) ∧
    (tokensCost b.litlen b.dist (b.giveUp use).tokens : Int) =
      tokensCost b.litlen b.dist b.tokens + use.growth := by
  have huse : ∃ gs, (b.tokens.filterMap (growthOf b.litlen b.dist use.symbol)).mapM id = some gs ∧
      use.growth = gs.foldl (· + ·) 0 := by
    unfold droppable at h
    split at h
    · cases h
    · obtain ⟨i, -, hi⟩ := List.mem_filterMap.1 h
      unfold lengthUse? at hi
      split at hi
      · cases hi
      · next hmine =>
        obtain ⟨gs, hgs, rfl⟩ := Option.map_eq_some_iff.1 hi
        exact ⟨gs, by rw [← filterMap_matchGrowths]; exact hgs, rfl⟩
  obtain ⟨gs, hgs, hgrowth⟩ := huse
  rw [hgrowth]
  exact spelled_of_growths hgs

/-- Giving up a length symbol that can be given up refines a block. -/
theorem giveUp_refines {b : CodedBlock} {use : LengthUse} (h : use ∈ b.droppable) :
    b.Refines (b.giveUp use) := by
  obtain ⟨hspelled, hcost⟩ := giveUp_tokens h
  refine refines_of_spelled hspelled fun hbits => ?_
  rw [hbits, ← hcost]
  exact Int.toNat_natCast _

/-- Giving up a length symbol that can be given up refines the block. -/
theorem dropFrom?_refines {b c : CodedBlock} {mode : DropMode}
    (h : b.dropFrom? b.droppable mode = some c) : b.Refines c := by
  obtain ⟨use, huse, rfl⟩ := Option.map_eq_some_iff.1 h
  exact giveUp_refines (List.minOn?_mem huse)

/-- Both blocks without a length symbol refine the block. -/
theorem withoutLengths_refines {b c : CodedBlock} (h : c ∈ b.withoutLengths) : b.Refines c := by
  obtain ⟨mode, -, hc⟩ := List.mem_filterMap.1 h
  exact dropFrom?_refines hc

end CodedBlock

end DeflateRecoder
