import DeflateRecoder.Proofs.Block.Basic
import DeflateRecoder.Stream.Basic

/-!
# Chains of blocks, written and read

A `Stream.Chain` is a sequence of blocks each of which is well-formed behind those before it.
`Stream.Spells` says which bits spell it from a bit offset on; among these `Stream.plainBits` are
those with zeros for padding. Writing a chain puts its plain bits (`Stream.puts_writeBlocks`),
reading gives a chain back from any of its spellings (`Stream.readBlocks_complete`), and what was
read was spelled by the bits taken (`Stream.readBlocks_sound`).
-/

namespace DeflateRecoder

namespace Stream

/-! ## Spellings -/

/-- The bits that open a block. -/
def opening (b : Block) (last : Bool) : List Bool := last :: bitsOf 2 b.kind.code

@[simp] theorem length_opening (b : Block) (last : Bool) :
    (opening b last).length = openingBits := rfl

/-- Blocks each of which is well-formed behind a window and the blocks before it. -/
def Chain : Window → List Block → Prop
  | _, [] => True
  | w, b :: rest => b.WellFormed w ∧ Chain (w.pushNewer b.bytes.toArray) rest

/-- The bits `u` spell blocks, the first of which opens at bit `position`, with any padding. -/
def Spells : Nat → List Block → List Bool → Prop
  | _, [], u => u = []
  | position, b :: rest, u => ∃ pad v, pad.length = b.padding (position + openingBits) ∧
      u = opening b rest.isEmpty ++ (pad ++ (b.payload ++ v)) ∧ Spells (b.endOf position) rest v

/-- The bits of blocks, the first of which opens at bit `position`, with zeros for padding. -/
def plainBits : Nat → List Block → List Bool
  | _, [] => []
  | position, b :: rest =>
    opening b rest.isEmpty ++ (List.replicate (b.padding (position + openingBits)) false ++
      (b.payload ++ plainBits (b.endOf position) rest))

/-- What blocks are written as spells them, with zeros for padding. -/
theorem spells_plainBits (position : Nat) (blocks : List Block) :
    Spells position blocks (plainBits position blocks) := by
  induction blocks generalizing position with
  | nil => rfl
  | cons b rest ih =>
    exact ⟨List.replicate (b.padding (position + openingBits)) false, _, List.length_replicate,
      rfl, ih _⟩

/-- Blocks are well-formed behind one window as behind another that agrees with it. -/
theorem Chain.congr {w v : Window} (h : w.Agrees v) {blocks : List Block} (hc : Chain w blocks) :
    Chain v blocks := by
  induction blocks generalizing w v with
  | nil => trivial
  | cons b rest ih => exact ⟨hc.1.congr h, ih (h.pushNewer _) hc.2⟩

/-- A block ends where its opening bits, its padding and its payload do. -/
theorem endOf_eq {w : Window} {b : Block} (h : b.WellFormed w) (position : Nat) :
    b.endOf position =
      position + openingBits + b.padding (position + openingBits) + b.payload.length := by
  rw [Block.endOf, Block.bitSize_eq h]
  omega

/-- All spellings of a chain are as long as the blocks are big. -/
theorem length_of_spells {w : Window} {position : Nat} {blocks : List Block} {u : List Bool}
    (hc : Chain w blocks) (h : Spells position blocks u) :
    endOfBlocks position blocks = position + u.length := by
  induction blocks generalizing w position u with
  | nil =>
    obtain rfl : u = [] := h
    rfl
  | cons b rest ih =>
    obtain ⟨pad, v, hpad, rfl, hv⟩ := h
    have hrest : endOfBlocks position (b :: rest) = endOfBlocks (b.endOf position) rest := rfl
    rw [hrest, ih hc.2 hv, endOf_eq hc.1, List.length_append, List.length_append,
      List.length_append, length_opening, hpad]
    omega

/-! ## Writing -/

/-- Writing a chain puts its bits, with zeros for padding. -/
theorem puts_writeBlocks {window : Window} {blocks : List Block} (hc : Chain window blocks)
    {w : BitWriter} (hv : w.Valid) :
    ∃ w', writeBlocks blocks w = .ok w' ∧ w.Puts w' (plainBits w.bitLength blocks) := by
  induction blocks generalizing window w with
  | nil => exact ⟨w, rfl, .refl hv⟩
  | cons b rest ih =>
    have p₁ := BitWriter.puts_writeBit rest.isEmpty hv
    have p₂ := BitWriter.puts_writeBits 2 b.kind.code p₁.1
    have hopen : ((w.writeBit rest.isEmpty).writeBits 2 b.kind.code).bitLength =
        w.bitLength + openingBits := (p₁.trans p₂).bitLength_eq
    obtain ⟨w₃, e₃, p₃⟩ := Block.puts_write hc.1 p₂.1
    have hpos : w₃.bitLength = b.endOf w.bitLength := by
      rw [p₃.bitLength_eq, hopen, endOf_eq hc.1, List.length_append, List.length_replicate]
      exact (Nat.add_assoc _ _ _).symm
    obtain ⟨w₄, e₄, p₄⟩ := ih hc.2 p₃.1
    refine ⟨w₄, ?_, ?_⟩
    · rw [writeBlocks, e₃]
      exact e₄
    · have p := (p₁.trans p₂).trans (p₃.trans p₄)
      rw [hpos, hopen] at p
      rw [plainBits]
      rw [List.append_assoc (List.replicate _ _)] at p
      exact p

/-! ## Reading -/

/-- Reading a block undoes writing it and the bits that open it. -/
theorem readBlock_recognises (window : Window) :
    (readBlock window).Recognises fun n p u => p.1.WellFormed window ∧
      ∃ pad, pad.length = p.1.padding (n + openingBits) ∧
        u = opening p.1 p.2 ++ (pad ++ p.1.payload) := by
  refine (Parser.Recognises.readBit.bind fun last => (Parser.Recognises.readBits 2).bind_of_mem
    (M := fun code n p u => p.2 = last ∧ p.1.kind.code = code ∧ p.1.WellFormed window ∧
      ∃ pad, pad.length = p.1.padding n ∧ u = pad ++ p.1.payload) ?_).congr fun n p u => ⟨?_, ?_⟩
  · rintro n code u -
    cases hkind : BlockKind.ofCode? code with
    | none =>
      refine (Parser.Recognises.throw _).congr fun n p u => ⟨False.elim, ?_⟩
      rintro ⟨-, rfl, -⟩
      rw [BlockKind.ofCode?_code] at hkind
      cases hkind
    | some kind =>
      have hcode : kind.code = code := by
        unfold BlockKind.ofCode? at hkind
        split at hkind <;> cases hkind <;> rfl
      have hagrees := Window.agrees_nearest window
      refine ((Block.read_recognises kind window.nearest).bind fun b => .pure (b, last)).congr
        fun n p u => ⟨?_, ?_⟩
      · rintro ⟨b, _, _, rfl, ⟨rfl, hw, pad, hpad, rfl⟩, rfl, rfl⟩
        exact ⟨rfl, hcode, hw.congr hagrees, pad, hpad, List.append_nil _⟩
      · rintro ⟨rfl, hk, hw, pad, hpad, rfl⟩
        have hsame : p.1.kind = kind := by
          have h := BlockKind.ofCode?_code p.1.kind
          rw [hk, hkind, Option.some.injEq] at h
          exact h.symm
        exact ⟨p.1, _, [], (List.append_nil _).symm,
          ⟨hsame, hw.congr hagrees.symm, pad, hpad, rfl⟩, rfl, rfl⟩
  · rintro ⟨last, _, _, rfl, rfl, code, _, _, rfl, ⟨-, rfl⟩, rfl, rfl, hw, pad, hpad, rfl⟩
    rw [length_bitsOf] at hpad
    exact ⟨hw, pad, hpad, rfl⟩
  · rintro ⟨hw, pad, hpad, rfl⟩
    have hlt : p.1.kind.code < 2 ^ 2 := by cases p.1.kind <;> decide
    exact ⟨p.2, [p.2], _, rfl, rfl, p.1.kind.code, bitsOf 2 p.1.kind.code, _, rfl, ⟨hlt, rfl⟩, rfl,
      rfl, hw, pad, by rw [length_bitsOf]; exact hpad, rfl⟩

/-- Blocks read one behind the other, each with the bit at which its reading began; the last one
says that it is the last. -/
inductive Reads : Window → BitReader → List (Nat × Block) → BitReader → Prop
  | last {w : Window} {r r' : BitReader} {b : Block} (h : readBlock w r = .ok (b, true) r') :
    Reads w r [(r.position, b)] r'
  | more {w : Window} {r r₁ r' : BitReader} {b : Block} {trace : List (Nat × Block)}
    (h : readBlock w r = .ok (b, false) r₁)
    (rest : Reads (w.pushNewer b.bytes.toArray) r₁ trace r') :
    Reads w r ((r.position, b) :: trace) r'

/-- Reading blocks stops at the last one. -/
theorem readBlocks_of_last {w : Window} {before : List Block} {r r' : BitReader} {b : Block}
    (h : readBlock w r = .ok (b, true) r') :
    readBlocks w before r = .ok (b :: before).reverse r' := by
  rw [readBlocks]
  split <;> simp_all

/-- Behind a block that is not the last reading goes on, with its bytes in the window. -/
theorem readBlocks_of_more {w : Window} {before : List Block} {r r₁ : BitReader} {b : Block}
    (h : readBlock w r = .ok (b, false) r₁) :
    readBlocks w before r = readBlocks (w.pushNewer b.bytes.toArray) (b :: before) r₁ := by
  conv => lhs; rw [readBlocks]
  split <;> simp_all

/-- Reading blocks fails where reading one of them does. -/
theorem readBlocks_of_error {w : Window} {before : List Block} {r r' : BitReader} {e : Error}
    (h : readBlock w r = .error e r') : readBlocks w before r = .error e r' := by
  rw [readBlocks]
  split <;> simp_all

/-- What was read is a chain spelled by the bits taken, and each block was read where the sizes of
those before it put it. -/
theorem readBlocks_sound {w : Window} {before blocks : List Block} {r r' : BitReader}
    (hr : r.Valid) (h : readBlocks w before r = .ok blocks r') :
    ∃ trace, blocks = before.reverse ++ trace.map (·.2) ∧ trace ≠ [] ∧ Reads w r trace r' ∧
      Chain w (trace.map (·.2)) ∧
      (∀ index, (layoutFrom index r.position (trace.map (·.2))).map (·.position) =
        trace.map (·.1)) ∧
      ∃ u, r.bits = u ++ r'.bits ∧ r'.position = r.position + u.length ∧
        Spells r.position (trace.map (·.2)) u := by
  fun_induction readBlocks w before r with
  | case1 => cases h
  | case2 w before r b r₁ hb =>
    cases h
    obtain ⟨-, u, hbits, hpos, hw, pad, hpad, rfl⟩ := (readBlock_recognises w).sound hr hb
    refine ⟨[(r.position, b)], List.reverse_cons, List.cons_ne_nil _ _, .last hb, ⟨hw, trivial⟩,
      fun _ => rfl, _, hbits, hpos, pad, [], hpad, ?_, rfl⟩
    rw [List.append_nil]
    rfl
  | case3 w before r b r₁ hb ih =>
    obtain ⟨hr₁, u, hbits, hpos, hw, pad, hpad, rfl⟩ := (readBlock_recognises w).sound hr hb
    obtain ⟨trace, rfl, hne, hreads, hchain, hlayout, v, hbits', hpos', hspells⟩ := ih hr₁ h
    -- The next block opens where this one's size says that it ends.
    have hend : r₁.position = b.endOf r.position := by
      rw [hpos, endOf_eq hw, List.length_append, List.length_append, length_opening, hpad]
      dsimp only
      omega
    have hempty : (trace.map (·.2)).isEmpty = false := by
      cases trace with
      | nil => exact absurd rfl hne
      | cons a trace => rfl
    rw [hend] at hspells hlayout
    refine ⟨(r.position, b) :: trace, ?_, List.cons_ne_nil _ _, .more hb hreads, ⟨hw, hchain⟩, ?_,
      opening b false ++ (pad ++ b.payload) ++ v, ?_, ?_, pad, v, hpad, ?_, hspells⟩
    · rw [List.reverse_cons, List.append_assoc]
      rfl
    · intro index
      rw [List.map_cons, List.map_cons, layoutFrom, List.map_cons, hlayout]
    · rw [hbits, hbits', List.append_assoc (opening b false ++ _)]
    · rw [hpos', hpos, Nat.add_assoc, ← List.length_append]
    · rw [hempty, List.append_assoc, List.append_assoc]

/-- A chain is read back from any of its spellings. -/
theorem readBlocks_complete {w : Window} {rest : List Block} {r : BitReader} {u v : List Bool}
    (hr : r.Valid) (hc : Chain w rest) (hne : rest ≠ []) (hs : Spells r.position rest u)
    (hb : r.bits = u ++ v) (before : List Block) :
    ∃ r', readBlocks w before r = .ok (before.reverse ++ rest) r' ∧ r'.bits = v := by
  induction rest generalizing w r u before with
  | nil => exact absurd rfl hne
  | cons b rest ih =>
    obtain ⟨pad, u, hpad, rfl, hs⟩ := hs
    rw [← List.append_assoc pad, ← List.append_assoc (opening b _), List.append_assoc _ u] at hb
    have hlang : b.WellFormed w ∧ ∃ pad', pad'.length = b.padding (r.position + openingBits) ∧
        opening b rest.isEmpty ++ (pad ++ b.payload) =
          opening b rest.isEmpty ++ (pad' ++ b.payload) := ⟨hc.1, pad, hpad, rfl⟩
    obtain ⟨r₁, e₁, hr₁, hb₁, hpos⟩ :=
      @Parser.Recognises.complete_position _ _ _ (readBlock_recognises w) r (b, rest.isEmpty) _ _ hr
        hb hlang
    cases rest with
    | nil =>
      obtain rfl : u = [] := hs
      exact ⟨r₁, by rw [readBlocks_of_last e₁, List.reverse_cons], hb₁⟩
    | cons c rest =>
      have hend : b.endOf r.position = r₁.position := by
        rw [hpos, endOf_eq hc.1, List.length_append, List.length_append, length_opening, hpad]
        omega
      rw [hend] at hs
      obtain ⟨r', e, hb'⟩ := ih hr₁ hc.2 (List.cons_ne_nil _ _) hs hb₁ (b :: before)
      refine ⟨r', ?_, hb'⟩
      rw [readBlocks_of_more e₁, e, List.reverse_cons, List.append_assoc]
      rfl

end Stream

end DeflateRecoder
