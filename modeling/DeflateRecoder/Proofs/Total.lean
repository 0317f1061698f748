import DeflateRecoder.Total

/-!
# Sums over parts

A total does not depend on the order of the parts (`total_perm`), is what it is for the parts that
count (`total_filter`), and is bounded by bounds on the parts (`total_mono`, `total_le_mul_length`).
-/

namespace DeflateRecoder

variable {α β : Type}

/-- A total does not depend on the order. -/
theorem total_perm (f : α → Nat) {k l : List α} (h : k.Perm l) : total f k = total f l := by
  induction h with
  | nil => rfl
  | cons a _ ih => rw [total_cons, total_cons, ih]
  | swap a b l =>
    rw [total_cons, total_cons, total_cons, total_cons]
    omega
  | trans _ _ ih₁ ih₂ => exact ih₁.trans ih₂

/-- The total over a mapped list is that of the composed measure. -/
theorem total_map (f : β → Nat) (g : α → β) (l : List α) :
    total f (l.map g) = total (fun a => f (g a)) l := by
  induction l with
  | nil => rfl
  | cons a l ih => rw [List.map_cons, total_cons, total_cons, ih]

/-- The total over lists one behind the other is the total of their totals. -/
theorem total_flatMap (g : β → Nat) (f : α → List β) (l : List α) :
    total g (l.flatMap f) = total (fun a => total g (f a)) l := by
  induction l with
  | nil => rfl
  | cons a l ih => rw [List.flatMap_cons, total_append, total_cons, ih]

/-- Measures that agree on a list have the same total over it. -/
theorem total_congr {f g : α → Nat} {l : List α} (h : ∀ a ∈ l, f a = g a) :
    total f l = total g l := by
  induction l with
  | nil => rfl
  | cons a l ih =>
    obtain ⟨ha, hl⟩ := List.forall_mem_cons.1 h
    rw [total_cons, total_cons, ha, ih hl]

/-- A measure that is nowhere bigger has no bigger total. -/
theorem total_mono {f g : α → Nat} {l : List α} (h : ∀ a ∈ l, f a ≤ g a) :
    total f l ≤ total g l := by
  induction l with
  | nil => exact Nat.le_refl 0
  | cons a l ih =>
    obtain ⟨ha, hl⟩ := List.forall_mem_cons.1 h
    rw [total_cons, total_cons]
    exact Nat.add_le_add ha (ih hl)

/-- What is bounded on a list has a total of at most the bound for each element. -/
theorem total_le_mul_length {f : α → Nat} {n : Nat} {l : List α} (h : ∀ a ∈ l, f a ≤ n) :
    total f l ≤ n * l.length := by
  induction l with
  | nil => simp
  | cons a l ih =>
    obtain ⟨ha, hl⟩ := List.forall_mem_cons.1 h
    have := ih hl
    rw [total_cons, List.length_cons, Nat.mul_succ]
    omega

/-- What is zero on a list has the total zero. -/
theorem total_eq_zero {f : α → Nat} {l : List α} (h : ∀ a ∈ l, f a = 0) : total f l = 0 := by
  have hle := total_le_mul_length fun a ha => Nat.le_of_eq (h a ha)
  rw [Nat.zero_mul] at hle
  exact Nat.le_zero.1 hle

/-- What counts nothing can be left out. -/
theorem total_filter {f : α → Nat} {p : α → Bool} {l : List α} (h : ∀ a ∈ l, ¬p a → f a = 0) :
    total f (l.filter p) = total f l := by
  induction l with
  | nil => rfl
  | cons a l ih =>
    obtain ⟨ha, hl⟩ := List.forall_mem_cons.1 h
    by_cases hp : p a
    · rw [List.filter_cons_of_pos hp, total_cons, total_cons, ih hl]
    · rw [List.filter_cons_of_neg hp, total_cons, ih hl, ha hp, Nat.zero_add]

/-- Parts of one size come to their number times that. -/
theorem total_const (n : Nat) (l : List α) : total (fun _ => n) l = n * l.length := by
  induction l with
  | nil => rfl
  | cons a l ih => rw [total_cons, ih, List.length_cons, Nat.mul_succ, Nat.add_comm]

/-- Equal parts come to as many times one of them. -/
theorem total_replicate (f : α → Nat) (n : Nat) (a : α) :
    total f (List.replicate n a) = n * f a := by
  induction n with
  | zero => exact (Nat.zero_mul _).symm
  | succ n ih => rw [List.replicate_succ, total_cons, ih, Nat.succ_mul, Nat.add_comm]

/-- A list made piece by piece is as long as its pieces together. -/
theorem length_flatMap_eq_total (f : α → List β) (l : List α) :
    (l.flatMap f).length = total (fun a => (f a).length) l := by
  induction l with
  | nil => rfl
  | cons a l ih => rw [List.flatMap_cons, List.length_append, total_cons, ih]

/-- Nothing in a list is worth a change just when none of its elements is. -/
theorem not_any_isSome_iff {worth : α → Option β} {l : List α} :
    ¬(l.any fun a => (worth a).isSome) = true ↔ ∀ a ∈ l, worth a = none := by
  simp only [List.any_eq_true, not_exists, not_and, Option.not_isSome_iff_eq_none]

end DeflateRecoder
