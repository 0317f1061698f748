import DeflateRecoder.Code.Table

/-!
# Code trees of least weight

`CodeTree.ofWeights` builds the table of an optimal code for weighted symbols: the two lightest
trees of a forest are joined until one is left (`combine`). Among trees of equal weight the one that
has been in the forest longer is taken first, so the forest is kept sorted by weight and a new
tree goes behind those of its own weight (`Forest.insert`).

A code may be too deep for the format. `limitDepth` then works on the leaves from left to right:
as long as the depth exceeds the limit, the first deepest leaf is taken away, which lets the leaf
beside it rise by one level, and grafted onto the first of the deepest leaves that lie at least
two levels higher. Each step makes the sum of the depths smaller, which is why it ends.
-/

namespace DeflateRecoder

/-- A binary tree with a symbol at each leaf. -/
inductive CodeTree
  /-- A symbol. -/
  | leaf (symbol : Nat)
  /-- Two subtrees, reached by the bits 0 and 1. -/
  | node (left right : CodeTree)
  deriving DecidableEq, Repr

namespace CodeTree

/-! ## The forest -/

/-- A tree and the sum of the weights of its symbols. -/
structure Weighted where
  /-- The weight of the tree. -/
  weight : Nat
  /-- The tree. -/
  tree : CodeTree
  deriving Repr

/-- Puts a tree into a forest sorted by weight, behind the trees of its own weight. -/
def insert (t : Weighted) : List Weighted → List Weighted
  | [] => [t]
  | u :: forest => if u.weight ≤ t.weight then u :: insert t forest else t :: u :: forest

@[simp] theorem length_insert (t : Weighted) (forest : List Weighted) :
    (insert t forest).length = forest.length + 1 := by
  induction forest with
  | nil => rfl
  | cons u forest ih => unfold insert; split <;> simp [ih]

/-- Joins the two lightest trees of a sorted forest until one is left. -/
def combine : List Weighted → Option CodeTree
  | [] => none
  | [t] => some t.tree
  | a :: b :: forest => combine (insert ⟨a.weight + b.weight, .node a.tree b.tree⟩ forest)
termination_by forest => forest.length

/-- The leaves that symbols of positive weight need, in the order of the symbols. -/
def weightedLeaves (weights : List Nat) : List Weighted :=
  weights.zipIdx.filterMap fun (weight, symbol) =>
    if 0 < weight then some ⟨weight, .leaf symbol⟩ else none

/-- Leaves of weight 1 for the symbols of weight 0. -/
def idleLeaves (weights : List Nat) : List Weighted :=
  weights.zipIdx.filterMap fun (weight, symbol) =>
    if weight = 0 then some ⟨1, .leaf symbol⟩ else none

/-- The leaves of the tree for given weights. A code needs two words, so the first idle symbols
join when fewer than two have a weight. -/
def initialLeaves (weights : List Nat) : List Weighted :=
  let leaves := weightedLeaves weights
  leaves ++ (idleLeaves weights).take (2 - leaves.length)

/-- The tree of least weighted depth. -/
def ofLeaves? (leaves : List Weighted) : Option CodeTree :=
  combine (leaves.mergeSort fun a b => a.weight ≤ b.weight)

/-! ## Depths -/

/-- A leaf of a tree by its symbol and its depth. -/
structure Leaf where
  /-- The symbol at the leaf. -/
  symbol : Nat
  /-- The number of nodes above it. -/
  depth : Nat
  deriving DecidableEq, Repr

/-- The leaves of a tree from left to right, for a root at the given depth. -/
def leaves : CodeTree → Nat → List Leaf
  | leaf symbol, depth => [⟨symbol, depth⟩]
  | node left right, depth => left.leaves (depth + 1) ++ right.leaves (depth + 1)

/-- The depth of the deepest leaf. -/
def maxDepth (leaves : List Leaf) : Nat := (leaves.map (·.depth)).foldl max 0

/-- The sum of the depths. -/
def depthSum (leaves : List Leaf) : Nat := total (·.depth) leaves

/-! ## Limiting the depth -/

/-- Takes out the first leaf of depth `m`, which lets the leaf beside it rise. Returns the symbol
taken and the leaves that stay. -/
def evict (m : Nat) : List Leaf → Option (Nat × List Leaf)
  | a :: b :: leaves =>
    if a.depth = m ∧ b.depth = m then some (a.symbol, ⟨b.symbol, m - 1⟩ :: leaves)
    else (evict m (b :: leaves)).map fun (symbol, rest) => (symbol, a :: rest)
  | _ => none

/-- The depth of the deepest leaves that lie at least two levels above depth `m`, or 0. -/
def hostDepth (m : Nat) (leaves : List Leaf) : Nat :=
  leaves.foldl (fun d leaf => if leaf.depth + 2 ≤ m then max d leaf.depth else d) 0

/-- Grafts a symbol onto the first leaf of depth `d`: the two become siblings one level down. -/
def graft (d symbol : Nat) : List Leaf → List Leaf
  | [] => []
  | c :: leaves =>
    if c.depth = d then ⟨symbol, d + 1⟩ :: ⟨c.symbol, d + 1⟩ :: leaves
    else c :: graft d symbol leaves

/-- Evicting a leaf at depth `m` takes its depth away, and the leaf beside it rises by one level. -/
theorem depthSum_evict {m s : Nat} {leaves rest : List Leaf} (hm : 0 < m)
    (h : evict m leaves = some (s, rest)) : depthSum rest + m + 1 = depthSum leaves := by
  fun_induction evict m leaves generalizing rest with
  | case1 a b leaves hd =>
    simp only [Option.some.injEq, Prod.mk.injEq] at h
    obtain ⟨_, rfl⟩ := h
    simp only [depthSum, total_cons]
    omega
  | case2 a b leaves hd ih =>
    obtain ⟨⟨s', rest'⟩, h', he⟩ := Option.map_eq_some_iff.1 h
    simp only [Prod.mk.injEq] at he
    obtain ⟨rfl, rfl⟩ := he
    have := ih h'
    simp only [depthSum, total_cons] at this ⊢
    omega
  | case3 => cases h

/-- Grafting puts two leaves at depth `d + 1` in the place of one at `d`, which adds `d + 2` to the
sum. -/
theorem depthSum_graft_le (d s : Nat) (leaves : List Leaf) :
    depthSum (graft d s leaves) ≤ depthSum leaves + d + 2 := by
  induction leaves with
  | nil => simp [graft, depthSum]
  | cons c leaves ih =>
    unfold graft
    split <;> simp only [depthSum, total_cons] at ih ⊢ <;> omega

/-- A host lies at least two levels above the leaf that is grafted onto it. -/
theorem hostDepth_add_two_le {m : Nat} {leaves : List Leaf} (h : hostDepth m leaves ≠ 0) :
    hostDepth m leaves + 2 ≤ m := by
  have key : ∀ (ls : List Leaf) (d : Nat), (d = 0 ∨ d + 2 ≤ m) →
      let e := ls.foldl (fun d leaf => if leaf.depth + 2 ≤ m then max d leaf.depth else d) d
      e = 0 ∨ e + 2 ≤ m := by
    intro ls
    induction ls with
    | nil => intro d hd; exact hd
    | cons l ls ih => intro d hd; apply ih; dsimp only; split <;> omega
  rcases key leaves 0 (.inl rfl) with h0 | h0
  · exact absurd h0 h
  · exact h0

/-- Moves one leaf of depth `m` up; there is nothing to do it with when no leaf is high enough. -/
def raise? (m : Nat) (leaves : List Leaf) : Option (List Leaf) :=
  let d := hostDepth m leaves
  if d = 0 then none
  else (evict m leaves).map fun (symbol, rest) => graft d symbol rest

/-- Moving a leaf up makes the sum of the depths smaller. -/
theorem depthSum_raise?_lt {m : Nat} {leaves raised : List Leaf} (hm : 0 < m)
    (h : raise? m leaves = some raised) : depthSum raised < depthSum leaves := by
  simp only [raise?] at h
  split at h
  · cases h
  · next hd =>
    obtain ⟨⟨s, rest⟩, he, rfl⟩ := Option.map_eq_some_iff.1 h
    have h1 := depthSum_evict hm he
    have h2 := depthSum_graft_le (hostDepth m leaves) s rest
    have h3 := hostDepth_add_two_le hd
    simp only
    omega

/-- Moves leaves up until none is deeper than `limit`. -/
def limitDepth (limit : Nat) (leaves : List Leaf) : Except Error (List Leaf) :=
  let m := maxDepth leaves
  if _ : limit < m then
    match _ : raise? m leaves with
    | none => .error (.internal .unbalancedTree)
    | some raised => limitDepth limit raised
  else .ok leaves
termination_by depthSum leaves
decreasing_by exact depthSum_raise?_lt (Nat.zero_lt_of_lt ‹limit < m›) ‹_›

/-! ## Tables -/

/-- The leaves of the code for given weights, none deeper than `limit`. -/
def ofWeights (weights : List Nat) (limit : Nat) : Except Error (List Leaf) :=
  let leaves := initialLeaves weights
  if leaves.length < 2 then .error .noCodes
  else
    match ofLeaves? leaves with
    | none => .error .noCodes
    | some tree => limitDepth limit (tree.leaves 0)

/-- Leaves in the order in which they get their words: by depth, then by symbol. -/
def inWordOrder (leaves : List Leaf) : List Leaf :=
  leaves.mergeSort fun a b => a.depth < b.depth || (a.depth == b.depth && a.symbol ≤ b.symbol)

/-- Gives the leaves consecutive words, a word being lengthened with zeros where the depth grows. -/
def enter : List Leaf → Nat → Nat → Array CodeWord → Array CodeWord
  | [], _, _, words => words
  | l :: leaves, code, depth, words =>
    let code := code <<< (l.depth - depth)
    enter leaves (code + 1) l.depth (words.setIfInBounds l.symbol ⟨l.depth, code % 65536⟩)

/-- The code table of an alphabet of `size` symbols in which just the given leaves have words. -/
def table (size : Nat) (leaves : List Leaf) : CodeTable :=
  { words := enter (inWordOrder leaves) 0 0 (Array.replicate size CodeWord.absent) }

end CodeTree

/-- How often each of the symbols below `size` occurs. The counts are natural numbers, which never
wrap around as those of a machine word would. None of them exceeds the number of symbols, so up to
`2 ^ 32 - 1` symbols every one of them fits into 32 bits. -/
def tally (size : Nat) (symbols : List Nat) : List Nat :=
  (symbols.foldl (fun counts s => counts.modify s (· + 1)) (Array.replicate size 0)).toList

/-- The table of an optimal code for weighted symbols with no word longer than `limit`. -/
def CodeTable.ofWeights (weights : List Nat) (limit : Nat) : Except Error CodeTable :=
  (CodeTree.ofWeights weights limit).map (CodeTree.table weights.length)

end DeflateRecoder
