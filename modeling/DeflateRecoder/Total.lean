/-!
# Totals

Sizes and costs of compound things are sums over their parts. `total f l` is the sum of `f` over a
list, added up from its front. `saveStep` keeps such a sum right when a part is replaced by a cheaper
one.
-/

namespace DeflateRecoder

/-- The sum of `f` over a list. -/
def total {α : Type} (f : α → Nat) (l : List α) : Nat := l.foldl (fun n a => n + f a) 0

/-- Takes what is gained by replacing a part off a size, and adds it to what is saved. `worth` says
what the part costs and what it would cost, if it is replaced. -/
def saveStep {α : Type} (worth : α → Option (Nat × Nat)) (sizes : Nat × Nat) (a : α) : Nat × Nat :=
  match worth a with
  | some (cost, total) => (sizes.1 - cost + total, sizes.2 + (cost - total))
  | none => sizes

variable {α : Type} (f : α → Nat)

/-- Whatever was added up before stays. -/
theorem foldl_add_eq (l : List α) (n : Nat) : l.foldl (fun n a => n + f a) n = n + total f l := by
  unfold total
  induction l generalizing n with
  | nil => rfl
  | cons a l ih =>
    rw [List.foldl_cons, List.foldl_cons, ih, ih (0 + f a)]
    omega

@[simp] theorem total_nil : total f [] = 0 := rfl

@[simp] theorem total_cons (a : α) (l : List α) : total f (a :: l) = f a + total f l := by
  rw [total, List.foldl_cons, foldl_add_eq]
  omega

@[simp] theorem total_append (k l : List α) : total f (k ++ l) = total f k + total f l := by
  induction k with
  | nil => exact (Nat.zero_add _).symm
  | cons a k ih =>
    rw [List.cons_append, total_cons, total_cons, ih]
    omega

end DeflateRecoder
