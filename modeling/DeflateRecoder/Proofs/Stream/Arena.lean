import DeflateRecoder.Proofs.Stream.Handles

/-!
# Blocks in an arena

An `Arena` keeps every block in a slot of its own. A handle is the number of a slot; the slot of a
block that was taken out stays empty. The blocks form a chain, since each names the one in front of
it and the one behind it, and the arena names the two ends and counts the blocks.

Here is what holds of the slots whatever the links say: a call for one handle leaves the blocks of
the others alone (`Arena.get?_perform`), and a slot is not used again (`Arena.Spent.perform`).
-/

namespace DeflateRecoder

open DeflateRecoder.Stream (Call Answer)

/-- What a slot of an arena holds. -/
structure Arena.Node where
  /-- The block. -/
  block : Block
  /-- The handle of the block in front. -/
  prev? : Option BlockId
  /-- The handle of the block behind. -/
  next? : Option BlockId

/-- A chain of blocks in numbered slots. -/
structure Arena where
  /-- The slots. -/
  nodes : Array (Option Arena.Node)
  /-- The handle of the first block. -/
  first? : Option BlockId
  /-- The handle of the last block. -/
  last? : Option BlockId
  /-- The number of blocks in the chain. -/
  count : Nat
  /-- What the stream is called in messages. -/
  name : String

namespace Arena

/-- No blocks, and no name. -/
def empty : Arena := ⟨#[], none, none, 0, ""⟩

/-- What the slot of a handle holds. -/
def node? (a : Arena) (id : BlockId) : Option Node := a.nodes[id.index]?.join

/-- The block of a handle. -/
def get? (a : Arena) (id : BlockId) : Option Block := (a.node? id).map (·.block)

/-- The handle of the block behind that of a handle. -/
def next? (a : Arena) (id : BlockId) : Option BlockId := (a.node? id).bind (·.next?)

/-- The handle of the block in front of that of a handle. -/
def prev? (a : Arena) (id : BlockId) : Option BlockId := (a.node? id).bind (·.prev?)

/-- Up to `n` blocks of the chain, from the given one on. -/
def walk (a : Arena) : (n : Nat) → Option BlockId → List Entry
  | 0, _ => []
  | _ + 1, none => []
  | n + 1, some id =>
    match a.node? id with
    | none => []
    | some node => ⟨id, node.block⟩ :: a.walk n node.next?

/-- Changes what the slot of a handle holds, or empties it. -/
def modify (a : Arena) (id : BlockId) (f : Node → Option Node) : Arena :=
  { a with nodes := a.nodes.modify id.index (·.bind f) }

/-- Says what follows a block, or what comes first if there is no such block. -/
def setNext (a : Arena) (id? next? : Option BlockId) : Arena :=
  match id? with
  | some id => a.modify id fun node => some { node with next? }
  | none => { a with first? := next? }

/-- Says what stands in front of a block, or what comes last if there is no such block. -/
def setPrev (a : Arena) (id? prev? : Option BlockId) : Arena :=
  match id? with
  | some id => a.modify id fun node => some { node with prev? }
  | none => { a with last? := prev? }

/-- The handle of the next new slot. -/
def nextId (a : Arena) : BlockId := ⟨a.nodes.size⟩

/-- Adds a slot. -/
def alloc (a : Arena) (node : Node) : Arena := { a with nodes := a.nodes.push (some node) }

/-- Adds a block at the end. Returns its handle as well. -/
def push (a : Arena) (block : Block) : BlockId × Arena :=
  let linked := (a.alloc ⟨block, a.last?, none⟩).setNext a.last? (some a.nextId)
  (a.nextId, { linked with last? := some a.nextId, count := a.count + 1 })

/-- Puts a block in the place of another. Returns the other one as well. -/
def replace (a : Arena) (id : BlockId) (block : Block) : Option Block × Arena :=
  (a.get? id, a.modify id fun node => some { node with block })

/-- Empties a slot, and links what was in front of its block to what was behind it. -/
def unlink (a : Arena) (id : BlockId) (prev? next? : Option BlockId) : Arena :=
  ((a.modify id fun _ => none).setNext prev? next?).setPrev next? prev?

/-- Takes a block out. Returns it as well. -/
def remove (a : Arena) (id : BlockId) : Option Block × Arena :=
  match a.node? id with
  | none => (none, a)
  | some node =>
    (some node.block, { a.unlink id node.prev? node.next? with count := a.count - 1 })

/-- The arena that a call leads to, and what the call returns. -/
def perform (a : Arena) : Call → Answer × Arena
  | .push block => (.handle (a.push block).1, (a.push block).2)
  | .replace id block => (.block (a.replace id block).1, (a.replace id block).2)
  | .remove id => (.block (a.remove id).1, (a.remove id).2)

variable {a : Arena} {id other : BlockId}

/-! ## Slots -/

/-- Only the slot that is changed holds something else. -/
theorem node?_modify (f : Node → Option Node) :
    (a.modify id f).node? other = if id = other then (a.node? other).bind f else a.node? other := by
  obtain ⟨i⟩ := id
  obtain ⟨j⟩ := other
  rw [node?, modify, Array.getElem?_modify]
  by_cases h : i = j
  · rw [if_pos h, if_pos (by rw [h]), node?]
    cases a.nodes[j]? with
    | none => rfl
    | some slot => cases slot <;> rfl
  · rw [if_neg h, if_neg (by simpa using h), node?]

/-- The slot that is changed holds what is made of its node. -/
@[simp] theorem node?_modify_self (f : Node → Option Node) :
    (a.modify id f).node? id = (a.node? id).bind f := by
  rw [node?_modify, if_pos rfl]

/-- Other slots than the one that is changed stay. -/
theorem node?_modify_of_ne (h : id ≠ other) (f : Node → Option Node) :
    (a.modify id f).node? other = a.node? other := by
  rw [node?_modify, if_neg h]

/-- A change to a slot that is empty, or not there, is none. -/
theorem modify_of_node?_eq_none (h : a.node? id = none) (f : Node → Option Node) :
    a.modify id f = a := by
  have hnodes : a.nodes.modify id.index (·.bind f) = a.nodes := by
    apply Array.ext_getElem?
    intro i
    rw [Array.getElem?_modify]
    split
    · next hi =>
      subst hi
      cases hslot : a.nodes[id.index]? with
      | none => rfl
      | some slot =>
        rw [node?, hslot] at h
        cases slot with
        | none => rfl
        | some node => cases h
    · rfl
  rw [modify, hnodes]

/-- The next slot is not there yet. -/
@[simp] theorem node?_nextId : a.node? a.nextId = none := by
  simp [node?, nextId]

/-- A new slot holds its node. -/
@[simp] theorem node?_alloc_nextId (node : Node) : (a.alloc node).node? a.nextId = some node := by
  simp [node?, nextId, alloc]

/-- A slot that holds something is there. -/
theorem index_lt_of_node? {node : Node} (h : a.node? id = some node) :
    id.index < a.nodes.size := by
  obtain ⟨hlt, -⟩ := Array.getElem?_eq_some_iff.1 (Option.join_eq_some_iff.1 h)
  exact hlt

/-- Other slots than the new one stay. -/
theorem node?_alloc_of_ne (h : id ≠ a.nextId) (node : Node) :
    (a.alloc node).node? id = a.node? id := by
  have hindex : id.index ≠ a.nodes.size := by
    intro hsize
    exact h (by rw [nextId, ← hsize])
  rw [node?, alloc, Array.getElem?_push, if_neg hindex, node?]

/-- Other slots stay when one is linked to what is behind it. -/
theorem node?_setNext_of_ne {id? : Option BlockId} (h : id? ≠ some other) (n? : Option BlockId) :
    (a.setNext id? n?).node? other = a.node? other := by
  cases id? with
  | none => rfl
  | some id => exact node?_modify_of_ne (by simpa using h) _

/-- Other slots stay when one is linked to what is in front of it. -/
theorem node?_setPrev_of_ne {id? : Option BlockId} (h : id? ≠ some other) (p? : Option BlockId) :
    (a.setPrev id? p?).node? other = a.node? other := by
  cases id? with
  | none => rfl
  | some id => exact node?_modify_of_ne (by simpa using h) _

/-- A handle has no block just when its slot is empty. -/
theorem get?_eq_none_iff : a.get? id = none ↔ a.node? id = none := Option.map_eq_none_iff

/-- The blocks of other slots than the one that is changed stay. -/
theorem get?_modify_of_ne (h : id ≠ other) (f : Node → Option Node) :
    (a.modify id f).get? other = a.get? other := by
  rw [get?, node?_modify_of_ne h, get?]

/-- A change of links does not change a block. -/
theorem get?_modify_of_block {f : Node → Option Node}
    (hf : ∀ node, (f node).map (·.block) = some node.block) :
    (a.modify id f).get? other = a.get? other := by
  rw [get?, node?_modify, get?]
  split
  · cases a.node? other with
    | none => rfl
    | some node => exact hf node
  · rfl

/-- An empty slot stays empty when slots are changed. -/
theorem get?_modify_of_get?_eq_none (h : a.get? other = none) (f : Node → Option Node) :
    (a.modify id f).get? other = none := by
  rw [get?_eq_none_iff] at h ⊢
  simp [node?_modify, h]

/-- Links are no part of a block. -/
@[simp] theorem get?_setNext (id? n? : Option BlockId) : (a.setNext id? n?).get? id = a.get? id := by
  cases id? with
  | none => rfl
  | some linked => exact get?_modify_of_block fun _ => rfl

/-- Links are no part of a block, in either direction. -/
@[simp] theorem get?_setPrev (id? p? : Option BlockId) : (a.setPrev id? p?).get? id = a.get? id := by
  cases id? with
  | none => rfl
  | some linked => exact get?_modify_of_block fun _ => rfl

/-- Taking a block out changes no other block: the rest of it is about links. -/
@[simp] theorem get?_unlink (p? n? : Option BlockId) :
    (a.unlink id p? n?).get? other = (a.modify id fun _ => none).get? other := by
  rw [unlink, get?_setPrev, get?_setNext]

/-- The blocks of other handles than the new one stay when one is added. -/
theorem get?_push_of_ne (h : id ≠ a.nextId) (block : Block) :
    (a.push block).2.get? id = a.get? id := by
  have halloc : (a.alloc ⟨block, a.last?, none⟩).get? id = a.get? id := by
    rw [get?, node?_alloc_of_ne h, get?]
  exact (get?_setNext _ _).trans halloc

@[simp] theorem name_setNext (id? n? : Option BlockId) : (a.setNext id? n?).name = a.name := by
  cases id? <;> rfl

@[simp] theorem name_setPrev (id? p? : Option BlockId) : (a.setPrev id? p?).name = a.name := by
  cases id? <;> rfl

@[simp] theorem first?_modify (f : Node → Option Node) : (a.modify id f).first? = a.first? := rfl

@[simp] theorem last?_modify (f : Node → Option Node) : (a.modify id f).last? = a.last? := rfl

@[simp] theorem last?_setNext (id? n? : Option BlockId) : (a.setNext id? n?).last? = a.last? := by
  cases id? <;> rfl

@[simp] theorem first?_setPrev (id? p? : Option BlockId) : (a.setPrev id? p?).first? = a.first? := by
  cases id? <;> rfl

@[simp] theorem size_nodes_modify (f : Node → Option Node) :
    (a.modify id f).nodes.size = a.nodes.size := by
  simp [modify]

@[simp] theorem size_nodes_setNext (id? n? : Option BlockId) :
    (a.setNext id? n?).nodes.size = a.nodes.size := by
  cases id? <;> simp [setNext]

@[simp] theorem size_nodes_setPrev (id? p? : Option BlockId) :
    (a.setPrev id? p?).nodes.size = a.nodes.size := by
  cases id? <;> simp [setPrev]

/-- Nothing is replaced in an empty slot. -/
theorem replace_of_node?_eq_none (h : a.node? id = none) (block : Block) :
    a.replace id block = (none, a) := by
  simp [replace, get?, h, modify_of_node?_eq_none h]

/-- Nothing is taken out of an empty slot. -/
theorem remove_of_node?_eq_none (h : a.node? id = none) : a.remove id = (none, a) := by
  rw [remove, h]

/-! ## Handles that stay, and handles that are gone -/

/-- A call leaves the blocks of all other handles alone. -/
theorem get?_perform {call : Call} {block : Block} (htarget : call.target? ≠ some id)
    (h : a.get? id = some block) : (a.perform call).2.get? id = some block := by
  cases call with
  | push new =>
    have hne : id ≠ a.nextId := by
      intro heq
      simp [heq, get?] at h
    exact (get?_push_of_ne hne new).trans h
  | replace target new =>
    have hne : target ≠ id := by simpa [Call.target?] using htarget
    exact (get?_modify_of_ne hne _).trans h
  | remove target =>
    have hne : target ≠ id := by simpa [Call.target?] using htarget
    rw [Arena.perform, Arena.remove]
    split
    · exact h
    · exact (get?_unlink _ _).trans ((get?_modify_of_ne hne _).trans h)

/-- The slot of a handle is there, and is empty. -/
def Spent (a : Arena) (id : BlockId) : Prop := id.index < a.nodes.size ∧ a.get? id = none

/-- An empty slot is not used again. -/
theorem Spent.perform (h : a.Spent id) (call : Call) : (a.perform call).2.Spent id := by
  obtain ⟨hlt, hnone⟩ := h
  cases call with
  | push new =>
    have hne : id ≠ a.nextId := by
      intro heq
      rw [heq] at hlt
      exact Nat.lt_irrefl _ hlt
    refine ⟨?_, (get?_push_of_ne hne new).trans hnone⟩
    simpa [Arena.perform, Arena.push, alloc] using Nat.lt_succ_of_lt hlt
  | replace target new =>
    refine ⟨?_, get?_modify_of_get?_eq_none hnone _⟩
    simp [Arena.perform, Arena.replace, hlt]
  | remove target =>
    rw [Arena.perform, Arena.remove]
    split
    · exact ⟨hlt, hnone⟩
    · refine ⟨?_, (get?_unlink _ _).trans (get?_modify_of_get?_eq_none hnone _)⟩
      simp [unlink, hlt]

/-- A block that is taken out leaves its slot empty. -/
theorem spent_remove {block : Block} (h : a.get? id = some block) : (a.remove id).2.Spent id := by
  obtain ⟨node, hnode, -⟩ := Option.map_eq_some_iff.1 h
  rw [remove, hnode]
  refine ⟨?_, (get?_unlink _ _).trans (by simp [get?])⟩
  simpa [unlink] using index_lt_of_node? hnode

end Arena

end DeflateRecoder
