import DeflateRecoder.Proofs.Stream.Arena

/-!
# The chain of blocks in an arena

`Arena.Linked` says of blocks that they name each other in order. `Arena.Holds` relates an arena to
the list of a `Stream`: its chain has the blocks of the list, and all other slots are empty. Every
call keeps it (`Holds.perform`), so an arena answers as the list does, whatever calls are made
(`Arena.run_as_list`).
-/

namespace DeflateRecoder

open DeflateRecoder.Stream (Call ne_of_nodup)

namespace Arena

variable {a : Arena} {id other : BlockId}

/-! ## Chains -/

/-- What one comes to first, going right over some blocks to what is behind them. -/
def front? (part : List Entry) (behind? : Option BlockId) : Option BlockId :=
  (part.head?.map (·.id)).or behind?

/-- What one comes to first, going left over some blocks to what is in front of them. -/
def back? (part : List Entry) (before? : Option BlockId) : Option BlockId :=
  (part.getLast?.map (·.id)).or before?

@[simp] theorem front?_nil (n? : Option BlockId) : front? [] n? = n? := rfl

@[simp] theorem front?_cons (e : Entry) (part : List Entry) (n? : Option BlockId) :
    front? (e :: part) n? = some e.id := rfl

@[simp] theorem back?_nil (p? : Option BlockId) : back? [] p? = p? := rfl

@[simp] theorem back?_concat (e : Entry) (part : List Entry) (p? : Option BlockId) :
    back? (part ++ [e]) p? = some e.id := by
  simp [back?]

/-- Going left, one comes to the first block last of all. -/
@[simp] theorem back?_cons (e : Entry) (part : List Entry) (p? : Option BlockId) :
    back? (e :: part) p? = back? part (some e.id) := by
  rw [back?, back?, List.getLast?_cons]
  cases part.getLast? <;> rfl

/-- Going left over two parts, one comes to the second first. -/
@[simp] theorem back?_append (xs ys : List Entry) (p? : Option BlockId) :
    back? (xs ++ ys) p? = back? ys (back? xs p?) := by
  induction xs generalizing p? with
  | nil => rfl
  | cons e xs ih => rw [List.cons_append, back?_cons, back?_cons, ih]

/-- Going right over two parts, one comes to the first first. -/
@[simp] theorem front?_append (xs ys : List Entry) (n? : Option BlockId) :
    front? (xs ++ ys) n? = front? xs (front? ys n?) := by
  cases xs <;> rfl

/-- Blocks name each other in order, the first one what is in front of them, and the last one what
is behind them. -/
def Linked (a : Arena) : (before? behind? : Option BlockId) → List Entry → Prop
  | _, _, [] => True
  | p?, n?, e :: rest =>
    a.node? e.id = some ⟨e.block, p?, front? rest n?⟩ ∧ a.Linked (some e.id) n? rest

variable {p? n? : Option BlockId} {xs ys : List Entry}

/-- What one comes to with nothing behind is one of the blocks. -/
theorem mem_of_front? (h : front? xs none = some id) : id ∈ xs.map (·.id) := by
  rw [front?, Option.or_none, ← List.head?_map] at h
  exact List.mem_of_head? h

/-- What one comes to with nothing in front is one of the blocks. -/
theorem mem_of_back? (h : back? xs none = some id) : id ∈ xs.map (·.id) := by
  rw [back?, Option.or_none, ← List.getLast?_map] at h
  exact List.mem_of_getLast? h

/-- A chain begins as before, and if it is empty with what now follows. -/
theorem first?_setNext (h : a.first? = front? xs n?) (m? : Option BlockId) :
    (a.setNext (back? xs none) m?).first? = front? xs m? := by
  cases xs with
  | nil => rfl
  | cons e xs =>
    cases hlast : back? (e :: xs) none with
    | none => simp [back?, List.getLast?_cons] at hlast
    | some id => exact h

/-- A chain ends as before, and if it is empty with what is now in front. -/
theorem last?_setPrev (h : a.last? = back? xs p?) (q? : Option BlockId) :
    (a.setPrev (front? xs none) q?).last? = back? xs q? := by
  cases xs with
  | nil => rfl
  | cons e xs => exact h

/-- Two parts are linked together just when each is linked to the end of the other. -/
theorem linked_append :
    a.Linked p? n? (xs ++ ys) ↔ a.Linked p? (front? ys n?) xs ∧ a.Linked (back? xs p?) n? ys := by
  induction xs generalizing p? with
  | nil => simp [Linked]
  | cons e xs ih => simp [Linked, ih, and_assoc]

namespace Linked

/-- Only the slots of the blocks themselves matter. -/
theorem congr {b : Arena} (h : a.Linked p? n? xs) (hb : ∀ e ∈ xs, b.node? e.id = a.node? e.id) :
    b.Linked p? n? xs := by
  induction xs generalizing p? with
  | nil => trivial
  | cons e xs ih =>
    obtain ⟨hnode, hrest⟩ := h
    obtain ⟨he, hxs⟩ := List.forall_mem_cons.1 hb
    exact ⟨he.trans hnode, ih hrest hxs⟩

/-- Changing a slot of none of the blocks leaves them linked. -/
theorem modify (h : a.Linked p? n? xs) (hid : ∀ e ∈ xs, e.id ≠ id) (f : Node → Option Node) :
    (a.modify id f).Linked p? n? xs :=
  h.congr fun e he => node?_modify_of_ne (hid e he).symm f

/-- A walk over the chain meets its blocks in order. -/
theorem walk (h : a.Linked p? none xs) (n : Nat) : a.walk n (front? xs none) = xs.take n := by
  induction xs generalizing p? n with
  | nil => cases n <;> rfl
  | cons e xs ih =>
    obtain ⟨hnode, hrest⟩ := h
    cases n with
    | zero => rfl
    | succ n => simp [Arena.walk, hnode, ih hrest]

/-- Setting what follows the last block of a chain changes nothing else in it. -/
theorem setNext (h : a.Linked p? n? xs) (hd : (xs.map (·.id)).Nodup) (m? : Option BlockId) :
    (a.setNext (back? xs none) m?).Linked p? m? xs := by
  obtain rfl | ⟨xs, e, rfl⟩ := List.eq_nil_or_concat xs
  · trivial
  · rw [List.concat_eq_append] at h hd ⊢
    have hne : ∀ x ∈ xs, x.id ≠ e.id := (ne_of_nodup hd).1
    obtain ⟨hxs, hnode, -⟩ := linked_append.1 h
    rw [back?_concat]
    refine linked_append.2 ⟨hxs.modify hne _, ?_, trivial⟩
    simp [Arena.setNext, hnode]

/-- Setting what is in front of the first block of a chain changes nothing else in it. -/
theorem setPrev (h : a.Linked p? n? xs) (hd : (xs.map (·.id)).Nodup) (q? : Option BlockId) :
    (a.setPrev (front? xs none) q?).Linked q? n? xs := by
  cases xs with
  | nil => trivial
  | cons e xs =>
    have hne : ∀ x ∈ xs, x.id ≠ e.id := (@ne_of_nodup [] xs e hd).2
    obtain ⟨hnode, hxs⟩ := h
    refine ⟨?_, hxs.modify hne _⟩
    simp [Arena.setPrev, hnode]

end Linked

/-! ## What an arena holds -/

/-- An arena holds the blocks of a stream: its chain has them in order, and all other slots are
empty. -/
structure Holds (a : Arena) (s : Stream) : Prop where
  distinct : s.ids.Nodup
  linked : a.Linked none none s.entries
  first : a.first? = front? s.entries none
  last : a.last? = back? s.entries none
  absent : ∀ id, id ∉ s.ids → a.node? id = none
  issued : a.nodes.size = s.issued
  count : a.count = s.length
  name : a.name = s.name

/-- The empty arena holds the empty stream. -/
theorem holds_empty : empty.Holds Stream.empty where
  distinct := List.nodup_nil
  linked := trivial
  first := rfl
  last := rfl
  absent _ _ := rfl
  issued := rfl
  count := rfl
  name := rfl

variable {s : Stream} {before behind : List Entry} {e : Entry}

namespace Holds

/-- A block names its neighbours. -/
theorem node? (h : a.Holds s) (hp : s.Place before e behind) :
    a.node? e.id = some ⟨e.block, back? before none, front? behind none⟩ := by
  have hlinked := h.linked
  rw [hp.entries_eq, linked_append] at hlinked
  exact hlinked.2.1

/-! ### Adding a block -/

/-- The next handle is not in use. -/
theorem nextId_not_mem (h : a.Holds s) : a.nextId ∉ s.ids := by
  intro hid
  obtain ⟨before, e, behind, hp, heq⟩ := Stream.exists_place hid
  have hnode := h.node? hp
  rw [heq, node?_nextId] at hnode
  cases hnode

/-- The next handle is the one that the stream gives out next. -/
theorem nextId_eq (h : a.Holds s) : a.nextId = ⟨s.issued⟩ := by
  rw [nextId, h.issued]

/-- Of the slots not in use, only the new one holds something after a block was added. -/
theorem node?_push (h : a.Holds s) (block : Block) (hid : id ∉ s.ids) :
    (a.push block).2.node? id =
      if id = a.nextId then some ⟨block, back? s.entries none, none⟩ else none := by
  have hkeep : (a.push block).2.node? id =
      (a.alloc ⟨block, back? s.entries none, none⟩).node? id := by
    rw [Arena.push, h.last]
    exact node?_setNext_of_ne (fun heq => hid (mem_of_back? heq)) _
  rw [hkeep]
  split
  · next heq => rw [heq, node?_alloc_nextId]
  · next hne => rw [node?_alloc_of_ne hne, h.absent id hid]

/-- A block that is added is linked behind the others. -/
theorem linked_push (h : a.Holds s) (block : Block) :
    (a.push block).2.Linked none none (s.entries ++ [⟨a.nextId, block⟩]) := by
  have hne : ∀ e ∈ s.entries, e.id ≠ a.nextId :=
    fun e he heq => h.nextId_not_mem (List.mem_map.2 ⟨e, he, heq⟩)
  have halloc : (a.alloc ⟨block, a.last?, none⟩).Linked none none s.entries :=
    h.linked.congr fun e he => node?_alloc_of_ne (hne e he) _
  have hold := halloc.setNext h.distinct (some a.nextId)
  rw [← h.last] at hold
  have hnew := h.node?_push block h.nextId_not_mem
  rw [if_pos rfl] at hnew
  exact linked_append.2 ⟨hold.congr fun _ _ => rfl, hnew, trivial⟩

/-- A block that is added stands behind the one that was the last. -/
theorem push (h : a.Holds s) (block : Block) :
    (a.push block).1 = (s.push block).1 ∧ (a.push block).2.Holds (s.push block).2 := by
  have hentries : (s.push block).2.entries = s.entries ++ [⟨a.nextId, block⟩] := by
    rw [h.nextId_eq]
    rfl
  have hids : (s.push block).2.ids = s.ids ++ [a.nextId] := by
    simp [Stream.ids, hentries]
  refine ⟨h.nextId_eq, ?_, ?_, ?_, ?_, ?_, ?_, ?_, ?_⟩
  · have hne : ∀ id ∈ s.ids, id ≠ a.nextId := fun id hid heq => h.nextId_not_mem (heq ▸ hid)
    rw [hids, List.nodup_append]
    exact ⟨h.distinct, by simp, by simpa using hne⟩
  · rw [hentries]
    exact h.linked_push block
  · have hfirst : (a.alloc ⟨block, back? s.entries none, none⟩).first? =
      front? s.entries none := h.first
    rw [hentries, front?_append, Arena.push, h.last]
    exact first?_setNext hfirst _
  · rw [hentries, back?_concat]
    rfl
  · intro id hid
    rw [hids, List.mem_append, List.mem_singleton, not_or] at hid
    rw [h.node?_push block hid.1, if_neg hid.2]
  · simp [Arena.push, alloc, Stream.push, h.issued]
  · simp [Stream.length, hentries, Arena.push, h.count]
  · simp [Arena.push, alloc, Stream.push, h.name]

/-! ### Changing one block -/

/-- A block that takes the place of another keeps its links. -/
theorem replace (h : a.Holds s) (hp : s.Place before e behind) (block : Block) :
    (a.replace e.id block).1 = some e.block ∧
      (a.replace e.id block).2.Holds { s with entries := before ++ ⟨e.id, block⟩ :: behind } := by
  obtain ⟨hd, hlinked, hfirst, hlast, habsent, hissued, hcount, hname⟩ := h
  have hids : Stream.ids { s with entries := before ++ ⟨e.id, block⟩ :: behind } = s.ids := by
    simp [Stream.ids, hp.entries_eq]
  rw [hp.entries_eq, linked_append] at hlinked
  obtain ⟨hbefore, hnode, hbehind⟩ := hlinked
  refine ⟨by simp [Arena.replace, get?, hnode], hids ▸ hd, ?_, ?_, ?_, ?_, ?_, ?_, hname⟩
  · refine linked_append.2 ⟨hbefore.modify (hp.ne_before hd) _, ?_,
      hbehind.modify (hp.ne_behind hd) _⟩
    simp [Arena.replace, hnode]
  · simp [Arena.replace, Arena.modify, hfirst, hp.entries_eq]
  · simp [Arena.replace, Arena.modify, hlast, hp.entries_eq]
  · intro id hid
    rw [hids] at hid
    have hne : e.id ≠ id := fun heq => hid (heq ▸ hp.ids_eq ▸ by simp)
    rw [Arena.replace, node?_modify_of_ne hne, habsent id hid]
  · simp [Arena.replace, hissued]
  · simp [Arena.replace, Arena.modify, hcount, Stream.length, hp.entries_eq]

/-- The blocks around one that is taken out are linked to each other. -/
theorem linked_unlink (h : a.Holds s) (hp : s.Place before e behind) :
    (a.unlink e.id (back? before none) (front? behind none)).Linked none none
      (before ++ behind) := by
  have hlinked := h.linked
  have hd := h.distinct
  rw [hp.entries_eq, linked_append] at hlinked
  rw [hp.ids_eq, List.map_append, List.map_cons, List.nodup_append, List.nodup_cons] at hd
  obtain ⟨hbefore, -, hbehind⟩ := hlinked
  obtain ⟨hdbefore, ⟨-, hdbehind⟩, hcross⟩ := hd
  have hleft : ∀ x ∈ behind, back? before none ≠ some x.id := by
    intro x hx heq
    exact hcross _ (mem_of_back? heq) x.id (by simp [List.mem_map_of_mem hx]) rfl
  have hright : ∀ x ∈ before, front? behind none ≠ some x.id := by
    intro x hx heq
    exact hcross x.id (List.mem_map_of_mem hx) _ (.tail _ (mem_of_front? heq)) rfl
  refine linked_append.2 ⟨?_, ?_⟩
  · have hset := (hbefore.modify (hp.ne_before h.distinct) fun _ => none).setNext hdbefore
      (front? behind none)
    exact hset.congr fun x hx => node?_setPrev_of_ne (hright x hx) _
  · have hkeep := (hbehind.modify (hp.ne_behind h.distinct) fun _ => none).congr
      fun x hx => node?_setNext_of_ne (hleft x hx) (front? behind none)
    exact hkeep.setPrev hdbehind (back? before none)

/-- The slot of a block that was taken out is empty, as are all that were not in use. -/
theorem node?_unlink (h : a.Holds s) (hp : s.Place before e behind)
    (hid : id ∉ (before ++ behind).map (·.id)) :
    (a.unlink e.id (back? before none) (front? behind none)).node? id = none := by
  rw [List.map_append, List.mem_append, not_or] at hid
  rw [unlink, node?_setPrev_of_ne (fun heq => hid.2 (mem_of_front? heq)),
    node?_setNext_of_ne (fun heq => hid.1 (mem_of_back? heq)), node?_modify]
  split
  · simp
  · next hne =>
    apply h.absent
    simpa [hp.ids_eq, Ne.symm hne] using hid

/-- When a block is taken out, what was in front of it and what was behind it are linked. -/
theorem remove (h : a.Holds s) (hp : s.Place before e behind) :
    (a.remove e.id).1 = some e.block ∧
      (a.remove e.id).2.Holds { s with entries := before ++ behind } := by
  have hremove : a.remove e.id = (some e.block,
      { a.unlink e.id (back? before none) (front? behind none) with count := a.count - 1 }) := by
    rw [Arena.remove, h.node? hp]
  have hfirst : (a.modify e.id fun _ => none).first? = front? before (some e.id) := by
    simpa [hp.entries_eq] using h.first
  have hlast : ((a.modify e.id fun _ => none).setNext (back? before none)
      (front? behind none)).last? = back? behind (some e.id) := by
    simpa [hp.entries_eq] using h.last
  rw [hremove]
  refine ⟨rfl, ?_, (h.linked_unlink hp).congr fun _ _ => rfl, ?_, ?_, ?_, ?_, ?_, ?_⟩
  · have hsub : (before ++ behind).Sublist (before ++ e :: behind) :=
      (List.sublist_cons_self e behind).append_left before
    exact (hp.ids_eq ▸ h.distinct).sublist (hsub.map _)
  · rw [front?_append, unlink, first?_setPrev]
    exact first?_setNext hfirst _
  · rw [back?_append]
    exact last?_setPrev hlast _
  · exact fun id hid => h.node?_unlink hp hid
  · simp [unlink, h.issued]
  · simp [Stream.length, hp.entries_eq, h.count]
  · simp [unlink, Arena.modify, h.name]

/-! ### Calls -/

/-- An arena answers a call as the list does, and holds the list that it leads to. -/
theorem perform (h : a.Holds s) (call : Call) :
    (a.perform call).1 = (s.perform call).1 ∧ (a.perform call).2.Holds (s.perform call).2 := by
  cases call with
  | push block =>
    obtain ⟨hid, hholds⟩ := h.push block
    exact ⟨congrArg Stream.Answer.handle hid, hholds⟩
  | replace id block =>
    by_cases hid : id ∈ s.ids
    · obtain ⟨before, e, behind, hp, rfl⟩ := Stream.exists_place hid
      obtain ⟨hold, hholds⟩ := h.replace hp block
      rw [Stream.perform, hp.replace? h.distinct]
      exact ⟨congrArg Stream.Answer.block hold, hholds⟩
    · rw [Stream.perform, Stream.replace?_of_not_mem hid, Arena.perform,
        replace_of_node?_eq_none (h.absent id hid)]
      exact ⟨rfl, h⟩
  | remove id =>
    by_cases hid : id ∈ s.ids
    · obtain ⟨before, e, behind, hp, rfl⟩ := Stream.exists_place hid
      obtain ⟨hold, hholds⟩ := h.remove hp
      rw [Stream.perform, hp.remove? h.distinct]
      exact ⟨congrArg Stream.Answer.block hold, hholds⟩
    · rw [Stream.perform, Stream.remove?_of_not_mem hid, Arena.perform,
        remove_of_node?_eq_none (h.absent id hid)]
      exact ⟨rfl, h⟩

end Holds

/-- What an arena tells about its chain is what the list says. -/
structure Mirrors (a : Arena) (s : Stream) : Prop where
  walk : ∀ n, a.walk n a.first? = s.entries.take n
  count : a.count = s.length
  first? : a.first? = s.first?
  last? : a.last? = s.last?
  name : a.name = s.name
  distinct : s.ids.Nodup
  place : ∀ before e behind, s.Place before e behind → a.get? e.id = some e.block ∧
    a.next? e.id = behind.head?.map (·.id) ∧ a.prev? e.id = before.getLast?.map (·.id)
  absent : ∀ id, id ∉ s.ids → a.get? id = none ∧ a.next? id = none ∧ a.prev? id = none
  same : ∀ id, a.get? id = s.get? id ∧ a.next? id = s.next? id ∧ a.prev? id = s.prev? id

namespace Holds

/-- At a place, the arena has the block and what is around it. -/
theorem place (h : a.Holds s) (hp : s.Place before e behind) : a.get? e.id = some e.block ∧
    a.next? e.id = behind.head?.map (·.id) ∧ a.prev? e.id = before.getLast?.map (·.id) := by
  simp [get?, next?, prev?, h.node? hp, front?, back?]

/-- There is nothing under a handle not in use. -/
theorem get?_absent (h : a.Holds s) (hid : id ∉ s.ids) :
    a.get? id = none ∧ a.next? id = none ∧ a.prev? id = none := by
  simp [get?, next?, prev?, h.absent id hid]

/-- Under every handle the arena has what the stream has. -/
theorem same (h : a.Holds s) (id : BlockId) :
    a.get? id = s.get? id ∧ a.next? id = s.next? id ∧ a.prev? id = s.prev? id := by
  by_cases hid : id ∈ s.ids
  · obtain ⟨before, e, behind, hp, rfl⟩ := Stream.exists_place hid
    rw [hp.get? h.distinct, hp.next? h.distinct, hp.prev? h.distinct]
    exact h.place hp
  · rw [Stream.get?_of_not_mem hid, Stream.next?_of_not_mem hid, Stream.prev?_of_not_mem hid]
    exact h.get?_absent hid

/-- An arena that holds a stream shows it, whichever way it is looked at. -/
theorem mirrors (h : a.Holds s) : a.Mirrors s where
  walk n := by
    rw [h.first]
    exact h.linked.walk n
  count := h.count
  first? := by rw [h.first, front?, Option.or_none, Stream.first?]
  last? := by rw [h.last, back?, Option.or_none, Stream.last?]
  name := h.name
  distinct := h.distinct
  place _ _ _ := h.place
  absent _ := h.get?_absent
  same := h.same

end Holds

/-- One block is behind another just when the other is in front of it. -/
theorem Mirrors.next?_eq_some_iff (h : a.Mirrors s) :
    a.next? id = some other ↔ a.prev? other = some id := by
  constructor
  · intro hnext
    by_cases hid : id ∈ s.ids
    · obtain ⟨before, e, behind, hp, rfl⟩ := Stream.exists_place hid
      rw [(h.place _ _ _ hp).2.1] at hnext
      cases behind with
      | nil => cases hnext
      | cons f behind =>
        cases hnext
        have hf : s.Place (before ++ [e]) f behind := by simp [Stream.Place, hp.entries_eq]
        simp [(h.place _ _ _ hf).2.2]
    · rw [(h.absent id hid).2.1] at hnext
      cases hnext
  · intro hprev
    by_cases hother : other ∈ s.ids
    · obtain ⟨before, f, behind, hp, rfl⟩ := Stream.exists_place hother
      rw [(h.place _ _ _ hp).2.2] at hprev
      obtain rfl | ⟨before, e, rfl⟩ := List.eq_nil_or_concat before
      · cases hprev
      · have hid : e.id = id := by simpa using hprev
        have he : s.Place before e (f :: behind) := by simp [Stream.Place, hp.entries_eq]
        simp [← hid, (h.place _ _ _ he).2.1]
    · rw [(h.absent other hother).2.2] at hprev
      cases hprev

/-! ## Calls one after the other -/

/-- Any calls return the same for both, and leave an arena that holds the stream, since each call
does. -/
theorem holds_run (calls : List Call) :
    (Call.run perform calls empty).1 = (Call.run Stream.perform calls Stream.empty).1 ∧
      (Call.run perform calls empty).2.Holds (Call.run Stream.perform calls Stream.empty).2 := by
  have step : ∀ (a : Arena) (s : Stream) (call : Call), a.Holds s →
      (a.perform call).1 = (s.perform call).1 ∧ (a.perform call).2.Holds (s.perform call).2 :=
    fun _ _ call h => h.perform call
  exact Call.run_related step calls holds_empty

/-- Whatever calls are made, an arena answers as a list to which blocks are appended, in which they
are replaced and from which they are deleted, and what it tells of its chain is what that list says.
One block is behind another just when the other is in front of it. A call for a handle without a
block returns none and changes nothing, a call for another handle leaves a block as it is, and the
handle of a block that was taken out never gets another one. -/
theorem run_as_list (calls : List Call) :
    let made := Call.run perform calls empty
    let listed := Call.run Stream.perform calls Stream.empty
    made.1 = listed.1 ∧ made.2.Mirrors listed.2 ∧
      (∀ id other, made.2.next? id = some other ↔ made.2.prev? other = some id) ∧
      (∀ id block, made.2.get? id = none →
        made.2.replace id block = (none, made.2) ∧ made.2.remove id = (none, made.2)) ∧
      (∀ id block call, made.2.get? id = some block → call.target? ≠ some id →
        (made.2.perform call).2.get? id = some block) ∧
      ∀ id block later, made.2.get? id = some block →
        (Call.run perform later (made.2.remove id).2).2.get? id = none := by
  intro made listed
  obtain ⟨hanswers, hholds⟩ := holds_run calls
  refine ⟨hanswers, hholds.mirrors, fun id other => hholds.mirrors.next?_eq_some_iff, ?_, ?_, ?_⟩
  · intro id block hnone
    rw [get?_eq_none_iff] at hnone
    exact ⟨replace_of_node?_eq_none hnone block, remove_of_node?_eq_none hnone⟩
  · intro id block call hsome htarget
    exact get?_perform htarget hsome
  · intro id block later hsome
    have step : ∀ (a : Arena) (call : Call), a.Spent id → (a.perform call).2.Spent id :=
      fun _ call h => h.perform call
    exact (Call.run_keeps step later (spent_remove hsome)).2

end Arena

end DeflateRecoder
