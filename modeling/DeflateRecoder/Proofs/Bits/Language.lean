import DeflateRecoder.Proofs.Bits.Reader

/-!
# Languages of parsers

A `Language` says by which bits a value can be spelled from a given bit offset on. A parser
recognises a language when it succeeds on exactly the spellings: whatever it returns was spelled by
the bits it took, and it takes any spelling whatever follows (`Parser.Recognises`). The languages of
composed parsers are composed from those of their parts, so that one statement for each parser
gives both that reading undoes writing and that writing undoes reading.
-/

namespace DeflateRecoder

/-- By which bits a value can be spelled from a bit offset on. -/
abbrev Language (α : Type) := (position : Nat) → α → List Bool → Prop

namespace Language

variable {α β : Type}

/-- Nothing is spelled by no bits but one value. -/
def pure (a : α) : Language α := fun _ b u => b = a ∧ u = []

/-- No value has a spelling. -/
def none : Language α := fun _ _ _ => False

/-- A spelling of a value followed by one that depends on it. -/
def bind (L : Language α) (M : α → Language β) : Language β := fun p b u =>
  ∃ a u₁ u₂, u = u₁ ++ u₂ ∧ L p a u₁ ∧ M a (p + u₁.length) b u₂

/-- Numbers below a power of two by their bits. -/
def number (n : Nat) : Language Nat := fun _ v u => v < 2 ^ n ∧ u = bitsOf n v

/-- Any bits up to the next byte boundary. -/
def padding : Language Unit := fun p _ u => u.length = paddingAt p

/-- Bytes, behind any bits up to the next byte boundary. -/
def bytes (n : Nat) : Language (List UInt8) := fun p bs u =>
  bs.length = n ∧ ∃ pad, pad.length = paddingAt p ∧ u = pad ++ bytesBits bs

end Language

/-- The parser succeeds on exactly the spellings of a language. -/
structure Parser.Recognises {α : Type} (p : Parser α) (L : Language α) : Prop where
  sound : ∀ ⦃r a r'⦄, r.Valid → p r = .ok a r' → r'.Valid ∧
    ∃ u, r.bits = u ++ r'.bits ∧ r'.position = r.position + u.length ∧ L r.position a u
  complete : ∀ ⦃r a u v⦄, r.Valid → r.bits = u ++ v → L r.position a u →
    ∃ r', p r = .ok a r' ∧ r'.bits = v

namespace Parser.Recognises

variable {α β : Type} {p : Parser α} {L : Language α}

/-- Behind a spelling the reader is as far on as the spelling is long. -/
theorem complete_position (h : p.Recognises L) {r : BitReader} {a : α} {u v : List Bool}
    (hr : r.Valid) (hb : r.bits = u ++ v) (hL : L r.position a u) :
    ∃ r', p r = .ok a r' ∧ r'.Valid ∧ r'.bits = v ∧ r'.position = r.position + u.length := by
  obtain ⟨r', hp, hv⟩ := h.complete hr hb hL
  obtain ⟨hr', u', hb', hpos, -⟩ := h.sound hr hp
  rw [hb, hv] at hb'
  exact ⟨r', hp, hr', hv, by rw [hpos, List.append_cancel_right hb']⟩

/-- A value can be read just when a spelling of it comes next. -/
theorem exists_ok_iff (h : p.Recognises L) {r : BitReader} (hr : r.Valid) {a : α} :
    (∃ r', p r = .ok a r') ↔ ∃ u, u <+: r.bits ∧ L r.position a u := by
  constructor
  · rintro ⟨r', hp⟩
    obtain ⟨-, u, hb, -, hL⟩ := h.sound hr hp
    exact ⟨u, ⟨r'.bits, hb.symm⟩, hL⟩
  · rintro ⟨u, ⟨v, hb⟩, hL⟩
    obtain ⟨r', hp, -⟩ := h.complete hr hb.symm hL
    exact ⟨r', hp⟩

/-- The same spellings may be described in another way. -/
theorem congr (h : p.Recognises L) {M : Language α} (hLM : ∀ n a u, L n a u ↔ M n a u) :
    p.Recognises M where
  sound := fun _ _ _ hr hp => by
    obtain ⟨hr', u, hb, hpos, hL⟩ := h.sound hr hp
    exact ⟨hr', u, hb, hpos, (hLM _ _ _).1 hL⟩
  complete := fun _ _ _ _ hr hb hM => h.complete hr hb ((hLM _ _ _).2 hM)

/-- A parser that reads nothing recognises one value, which is spelled by no bits. -/
theorem pure (a : α) : Parser.Recognises (Pure.pure a) (Language.pure a) where
  sound := fun _ _ _ hr hp => by
    cases hp
    exact ⟨hr, [], rfl, rfl, rfl, rfl⟩
  complete := fun r b _ _ _ hb hL => by
    obtain ⟨rfl, rfl⟩ := hL
    exact ⟨r, rfl, hb⟩

/-- A parser that fails recognises nothing. -/
theorem throw (e : Error) :
    Parser.Recognises (MonadExcept.throw e : Parser α) Language.none where
  sound := fun _ _ _ _ hp => by cases hp
  complete := fun _ _ _ _ _ _ hL => hL.elim

/-- A parser followed by one that depends on what was read. -/
theorem bind_of_mem {f : α → Parser β} {M : α → Language β} (hp : p.Recognises L)
    (hf : ∀ n a u, L n a u → (f a).Recognises (M a)) :
    Parser.Recognises (p >>= f) (L.bind M) where
  sound := fun r b r' hr e => by
    simp only [Bind.bind, EStateM.bind] at e
    split at e
    · next a r₁ h =>
      obtain ⟨hr₁, u₁, hb₁, hpos₁, hL⟩ := hp.sound hr h
      obtain ⟨hr', u₂, hb₂, hpos₂, hM⟩ := (hf _ _ _ hL).sound hr₁ e
      refine ⟨hr', u₁ ++ u₂, by rw [hb₁, hb₂, List.append_assoc], ?_, a, u₁, u₂, rfl, hL, ?_⟩
      · rw [hpos₂, hpos₁, List.length_append, Nat.add_assoc]
      · rw [← hpos₁]
        exact hM
    · cases e
  complete := fun r b u v hr hb hL => by
    obtain ⟨a, u₁, u₂, rfl, h₁, h₂⟩ := hL
    rw [List.append_assoc] at hb
    obtain ⟨r₁, e₁, hr₁, hb₁, hpos⟩ := hp.complete_position hr hb h₁
    rw [← hpos] at h₂
    obtain ⟨r', e₂, hb₂⟩ := (hf _ _ _ h₁).complete hr₁ hb₁ h₂
    refine ⟨r', ?_, hb₂⟩
    simp only [Bind.bind, EStateM.bind, e₁, e₂]

/-- One parser after another recognises the spellings of the one followed by those of the other. -/
theorem bind {f : α → Parser β} {M : α → Language β} (hp : p.Recognises L)
    (hf : ∀ a, (f a).Recognises (M a)) : Parser.Recognises (p >>= f) (L.bind M) :=
  hp.bind_of_mem fun _ a _ _ => hf a

/-- A parser whose values are mapped recognises the same bits for the mapped values. -/
theorem map (f : α → β) (hp : p.Recognises L) :
    Parser.Recognises (f <$> p) fun n b u => ∃ a, L n a u ∧ b = f a := by
  rw [map_eq_pure_bind]
  refine (hp.bind fun a => .pure (f a)).congr fun n b u => ⟨?_, ?_⟩
  · rintro ⟨a, u₁, u₂, rfl, hL, rfl, rfl⟩
    exact ⟨a, by rw [List.append_nil]; exact hL, rfl⟩
  · rintro ⟨a, hL, rfl⟩
    exact ⟨a, u, [], (List.append_nil u).symm, hL, rfl, rfl⟩

/-- A parser that is chosen by a condition recognises what the chosen one does. -/
theorem ite {c : Prop} [Decidable c] {q : Parser α} {M : Language α} (hp : c → p.Recognises L)
    (hq : ¬ c → q.Recognises M) :
    Parser.Recognises (if c then p else q) fun n a u => (c ∧ L n a u) ∨ (¬ c ∧ M n a u) := by
  by_cases hc : c
  · rw [if_pos hc]
    exact (hp hc).congr fun n a u => by simp [hc]
  · rw [if_neg hc]
    exact (hq hc).congr fun n a u => by simp [hc]

/-- A result turned into a parser recognises its value, if it has one, in no bits. -/
theorem ofExcept (x : Except Error α) :
    (Parser.ofExcept x).Recognises fun _ a u => x = .ok a ∧ u = [] := by
  cases x with
  | ok b => exact (Parser.Recognises.pure b).congr fun n a u => by simp [Language.pure, eq_comm]
  | error e => exact (Parser.Recognises.throw e).congr fun n a u => by simp [Language.none]

/-! ## Reads -/

/-- Reading a number recognises its bits, the lowest one first. -/
theorem readBits (n : Nat) : (BitReader.readBits n).Recognises (.number n) where
  sound := fun r v r' hr e => by
    rcases Nat.lt_or_ge r.remaining n with hn | hn
    · obtain ⟨_, he, -⟩ := BitReader.readBits_error hr hn
      rw [he] at e
      cases e
    · obtain ⟨r₁, he, hr₁, hb, hpos, -⟩ := BitReader.readBits_ok hr hn
      rw [he] at e
      cases e
      have hlen : (r.bits.take n).length = n := by rw [List.length_take, r.length_bits]; omega
      have hlt := valueOf_lt (r.bits.take n)
      rw [hlen] at hlt
      refine ⟨hr₁, r.bits.take n, by rw [hb, List.take_append_drop], by rw [hpos, hlen], hlt, ?_⟩
      exact eq_bitsOf hlen
  complete := fun r v u w hr hb hL => by
    obtain ⟨hv, rfl⟩ := hL
    have hn : n ≤ r.remaining := by
      rw [← r.length_bits, hb, List.length_append, length_bitsOf]
      omega
    have ht : r.bits.take n = bitsOf n v := by
      rw [hb, List.take_append_of_le_length (by simp), List.take_of_length_le (by simp)]
    obtain ⟨r', he, -, hb', -⟩ := BitReader.readBits_ok hr hn
    refine ⟨r', ?_, ?_⟩
    · rw [he, ht, valueOf_bitsOf, Nat.mod_eq_of_lt hv]
    · rw [hb', hb, List.drop_append_of_le_length (by simp), List.drop_of_length_le (by simp),
        List.nil_append]

/-- Reading a bit recognises that bit. -/
theorem readBit : BitReader.readBit.Recognises fun _ b u => u = [b] := by
  refine ((readBits 1).bind fun v => .pure (v != 0)).congr fun n b u => ⟨?_, ?_⟩
  · rintro ⟨v, _, _, rfl, ⟨hv, rfl⟩, rfl, rfl⟩
    obtain rfl | rfl : v = 0 ∨ v = 1 := by omega
    · rfl
    · rfl
  · rintro rfl
    refine ⟨b.toNat, [b], [], rfl, ⟨?_, ?_⟩, ?_, rfl⟩ <;> cases b <;> decide

/-- Going to the next byte recognises any padding up to there. -/
theorem alignToByte : BitReader.alignToByte.Recognises .padding where
  sound := fun r a r' hr e => by
    cases e
    obtain ⟨h₁, h₂, h₃, -⟩ := BitReader.align_spec hr
    have hlen : (r.bits.take (paddingAt r.position)).length = paddingAt r.position := by
      have h := hr.position_mod
      rw [List.length_take, r.length_bits, ← h, BitReader.remaining]
      have := Nat.mod_le r.held 8
      omega
    exact ⟨h₁, r.bits.take (paddingAt r.position), by rw [h₂, List.take_append_drop],
      by rw [h₃, hlen], hlen⟩
  complete := fun r a u v hr hb hL => by
    obtain ⟨-, h₂, -⟩ := BitReader.align_spec hr
    refine ⟨r.align, rfl, ?_⟩
    rw [h₂, hb, ← (show u.length = paddingAt r.position from hL), List.drop_left]

/-- Reading a word recognises its 16 bits behind any padding. -/
theorem readWord : BitReader.readWord.Recognises fun n v u =>
    v < 2 ^ 16 ∧ ∃ pad, pad.length = paddingAt n ∧ u = pad ++ bitsOf 16 v := by
  refine (alignToByte.bind fun _ => readBits 16).congr fun n v u => ⟨?_, ?_⟩
  · rintro ⟨_, u₁, _, rfl, h₁, hv, rfl⟩
    exact ⟨hv, u₁, h₁, rfl⟩
  · rintro ⟨hv, pad, hpad, rfl⟩
    exact ⟨(), pad, bitsOf 16 v, rfl, hpad, hv, rfl⟩

/-- Reading bytes recognises theirs behind any padding. -/
theorem readBytes (n : Nat) : (BitReader.readBytes n).Recognises (.bytes n) where
  sound := fun r bs r' hr e => by
    rcases Nat.lt_or_ge r.remaining (paddingAt r.position + 8 * n) with hn | hn
    · obtain ⟨_, he, -⟩ := BitReader.readBytes_error hr hn
      rw [he] at e
      cases e
    · obtain ⟨bs', r₁, he, hlen, hr₁, hb, hpos, -⟩ := BitReader.readBytes_ok hr hn
      rw [he] at e
      cases e
      have hpad : (r.bits.take (paddingAt r.position)).length = paddingAt r.position := by
        rw [List.length_take, r.length_bits]
        omega
      refine ⟨hr₁, r.bits.take (paddingAt r.position) ++ bytesBits bs, ?_, ?_, hlen, _, hpad, rfl⟩
      · rw [List.append_assoc, ← hb, List.take_append_drop]
      · rw [hpos, List.length_append, hpad, length_bytesBits, hlen, Nat.add_assoc]
  complete := fun r bs u v hr hb hL => by
    obtain ⟨rfl, pad, hpad, rfl⟩ := hL
    rw [List.append_assoc] at hb
    have hn : paddingAt r.position + 8 * bs.length ≤ r.remaining := by
      rw [← r.length_bits, hb, List.length_append, List.length_append, length_bytesBits, hpad]
      omega
    obtain ⟨bs', r', he, hlen, -, hb', -⟩ := BitReader.readBytes_ok hr hn
    rw [hb, ← hpad, List.drop_left] at hb'
    obtain ⟨h₁, h₂⟩ := List.append_inj hb' (by rw [length_bytesBits, length_bytesBits, hlen])
    refine ⟨r', ?_, h₂.symm⟩
    rw [he, bytesBits_injective h₁]

end Parser.Recognises

/-! ## Lists of steps -/

/-- Values spelled one behind the other, each in a language of its own. -/
def Language.mapM {α β : Type} (L : α → Language β) : List α → Language (List β)
  | [] => .pure []
  | a :: l => (L a).bind fun b => (mapM L l).bind fun bs => .pure (b :: bs)

/-- Parsers in a row recognise their spellings in a row, by induction on the list. -/
theorem Parser.Recognises.mapM {α β : Type} {f : α → Parser β} {L : α → Language β}
    (hf : ∀ a, (f a).Recognises (L a)) (l : List α) :
    Parser.Recognises (l.mapM f) (Language.mapM L l) := by
  induction l with
  | nil => exact .pure []
  | cons a l ih =>
    rw [List.mapM_cons]
    exact (hf a).bind fun b => ih.bind fun bs => .pure (b :: bs)

/-- Numbers of one width, one behind the other. -/
theorem Language.mapM_number {α : Type} (n : Nat) (l : List α) (p : Nat) (vs : List Nat)
    (u : List Bool) :
    Language.mapM (fun _ : α => Language.number n) l p vs u ↔
      vs.length = l.length ∧ (∀ v ∈ vs, v < 2 ^ n) ∧ u = vs.flatMap (bitsOf n) := by
  induction l generalizing p vs u with
  | nil =>
    constructor
    · rintro ⟨rfl, rfl⟩
      exact ⟨rfl, by simp, rfl⟩
    · rintro ⟨h, -, rfl⟩
      obtain rfl := List.eq_nil_of_length_eq_zero h
      exact ⟨rfl, rfl⟩
  | cons a l ih =>
    constructor
    · rintro ⟨v, _, _, rfl, ⟨hv, rfl⟩, ws, _, _, rfl, hws, rfl, rfl⟩
      obtain ⟨h₁, h₂, rfl⟩ := (ih _ _ _).1 hws
      refine ⟨by rw [List.length_cons, List.length_cons, h₁], ?_, by simp⟩
      intro w hw
      rcases List.mem_cons.1 hw with rfl | hw
      · exact hv
      · exact h₂ w hw
    · rintro ⟨h₁, h₂, rfl⟩
      cases vs with
      | nil => simp at h₁
      | cons v vs =>
        refine ⟨v, bitsOf n v, vs.flatMap (bitsOf n), rfl, ⟨h₂ v (by simp), rfl⟩, vs, _, [],
          (List.append_nil _).symm, (ih _ _ _).2 ⟨by simpa using h₁, ?_, rfl⟩, rfl, rfl⟩
        exact fun w hw => h₂ w (by simp [hw])

end DeflateRecoder
