import DeflateRecoder.Stream.Basic
import Mathlib.Data.List.TakeWhile

/-!
# Handles into a stream

The handles of the blocks of a stream are `Stream.ids`. A handle among them has a place
(`Stream.exists_place`). If all handles are different, what the stream tells about one, or does with
it, is told by what is in front of its place and what is behind it. A handle that is not in use has
no block and no neighbours, and changes nothing.

A `Stream.Call` is one of the three ways to change a stream.
-/

namespace DeflateRecoder

namespace Stream

/-- The handles of the blocks in order. -/
def ids (s : Stream) : List BlockId := s.entries.map (·.id)

/-- A block stands behind the blocks `before` and in front of the blocks `behind`. -/
def Place (s : Stream) (before : List Entry) (e : Entry) (behind : List Entry) : Prop :=
  s.entries = before ++ e :: behind

variable {s : Stream} {before behind : List Entry} {e : Entry} {id : BlockId}

/-! ## Handles in use -/

/-- A handle in use has a place. -/
theorem exists_place (h : id ∈ s.ids) : ∃ before e behind, s.Place before e behind ∧ e.id = id := by
  obtain ⟨e, he, hid⟩ := List.mem_map.1 h
  obtain ⟨before, behind, hs⟩ := List.append_of_mem he
  exact ⟨before, e, behind, hs, hid⟩

/-- Among blocks with distinct handles, the others have other handles. -/
theorem ne_of_nodup (hd : ((before ++ e :: behind).map (·.id)).Nodup) :
    (∀ x ∈ before, x.id ≠ e.id) ∧ ∀ x ∈ behind, x.id ≠ e.id := by
  rw [List.map_append, List.map_cons, List.nodup_append, List.nodup_cons] at hd
  obtain ⟨-, ⟨hfirst, -⟩, hcross⟩ := hd
  constructor
  · intro x hx
    exact hcross x.id (List.mem_map_of_mem hx) e.id (by simp)
  · intro x hx hid
    exact hfirst (List.mem_map.2 ⟨x, hx, hid⟩)

namespace Place

/-- A place divides the entries. -/
theorem entries_eq (h : s.Place before e behind) : s.entries = before ++ e :: behind := h

/-- A place divides the handles. -/
theorem ids_eq (h : s.Place before e behind) : s.ids = (before ++ e :: behind).map (·.id) := by
  rw [ids, h.entries_eq]

/-- No block in front has the same handle. -/
theorem ne_before (h : s.Place before e behind) (hd : s.ids.Nodup) : ∀ x ∈ before, x.id ≠ e.id :=
  (ne_of_nodup (h.ids_eq ▸ hd)).1

/-- No block behind has the same handle. -/
theorem ne_behind (h : s.Place before e behind) (hd : s.ids.Nodup) : ∀ x ∈ behind, x.id ≠ e.id :=
  (ne_of_nodup (h.ids_eq ▸ hd)).2

/-- The handle leads to the block at its place. -/
theorem get? (h : s.Place before e behind) (hd : s.ids.Nodup) : s.get? e.id = some e.block := by
  have hbefore : before.find? (·.id = e.id) = none := by
    simpa using h.ne_before hd
  simp [Stream.get?, h.entries_eq, List.find?_append, hbefore]

/-- Behind a block is the first of those behind its place. -/
theorem next? (h : s.Place before e behind) (hd : s.ids.Nodup) :
    s.next? e.id = behind.head?.map (·.id) := by
  have hbefore : ∀ x ∈ before, decide (x.id ≠ e.id) = true := by
    simpa using h.ne_before hd
  rw [Stream.next?, h.entries_eq, List.dropWhile_append_of_pos hbefore,
    List.dropWhile_cons_of_neg (by simp)]
  rfl

/-- In front of a block is the last of those before its place. -/
theorem prev? (h : s.Place before e behind) (hd : s.ids.Nodup) :
    s.prev? e.id = before.getLast?.map (·.id) := by
  have hbehind : ∀ x ∈ behind.reverse, decide (x.id ≠ e.id) = true := by
    simpa using h.ne_behind hd
  rw [Stream.prev?, h.entries_eq, List.reverse_append, List.reverse_cons,
    List.append_assoc, List.dropWhile_append_of_pos hbehind, List.singleton_append,
    List.dropWhile_cons_of_neg (by simp), List.drop_one, List.tail_cons, List.head?_reverse]

/-- A block is replaced at its place, and keeps its handle. -/
theorem replace? (h : s.Place before e behind) (hd : s.ids.Nodup) (block : Block) :
    s.replace? e.id block =
      some (e.block, { s with entries := before ++ ⟨e.id, block⟩ :: behind }) := by
  have hkeep : ∀ (part : List Entry), (∀ x ∈ part, x.id ≠ e.id) →
      part.map (fun x => if x.id = e.id then ⟨e.id, block⟩ else x) = part := by
    intro part hpart
    rw [List.map_congr_left fun x hx => if_neg (hpart x hx), List.map_id']
  rw [Stream.replace?, h.get? hd, h.entries_eq, List.map_append, List.map_cons,
    hkeep _ (h.ne_before hd), hkeep _ (h.ne_behind hd), if_pos rfl]
  rfl

/-- A block is taken out of its place. -/
theorem remove? (h : s.Place before e behind) (hd : s.ids.Nodup) :
    s.remove? e.id = some (e.block, { s with entries := before ++ behind }) := by
  have hkeep : ∀ (part : List Entry), (∀ x ∈ part, x.id ≠ e.id) →
      part.filter (·.id ≠ e.id) = part := by
    intro part hpart
    simpa using hpart
  rw [Stream.remove?, h.get? hd, h.entries_eq, List.filter_append,
    List.filter_cons_of_neg (by simp), hkeep _ (h.ne_before hd), hkeep _ (h.ne_behind hd)]
  rfl

end Place

/-! ## Handles not in use -/

/-- A handle not in use has no block. -/
theorem get?_of_not_mem (h : id ∉ s.ids) : s.get? id = none := by
  rw [get?, Option.map_eq_none_iff, List.find?_eq_none]
  intro e he hid
  exact h (List.mem_map.2 ⟨e, he, by simpa using hid⟩)

/-- Nothing is behind a handle not in use. -/
theorem next?_of_not_mem (h : id ∉ s.ids) : s.next? id = none := by
  have hall : ∀ e ∈ s.entries, decide (e.id ≠ id) = true := by
    simpa [ids] using h
  rw [next?, List.dropWhile_eq_nil_iff.2 hall]
  rfl

/-- Nothing is in front of a handle not in use. -/
theorem prev?_of_not_mem (h : id ∉ s.ids) : s.prev? id = none := by
  have hall : ∀ e ∈ s.entries.reverse, decide (e.id ≠ id) = true := by
    simpa [ids] using h
  rw [prev?, List.dropWhile_eq_nil_iff.2 hall]
  rfl

/-- Nothing is replaced under a handle not in use. -/
theorem replace?_of_not_mem (h : id ∉ s.ids) (block : Block) : s.replace? id block = none := by
  rw [replace?, get?_of_not_mem h]
  rfl

/-- Nothing is taken out under a handle not in use. -/
theorem remove?_of_not_mem (h : id ∉ s.ids) : s.remove? id = none := by
  rw [remove?, get?_of_not_mem h]
  rfl

/-! ## Calls -/

/-- A call that changes a stream. The handles in it may be of blocks that are gone. -/
inductive Call where
  | push (block : Block)
  | replace (id : BlockId) (block : Block)
  | remove (id : BlockId)

/-- The handle that a call is about. -/
def Call.target? : Call → Option BlockId
  | .push _ => none
  | .replace id _ => some id
  | .remove id => some id

/-- What a call returns. -/
inductive Answer where
  /-- The handle of a block that was added. -/
  | handle (id : BlockId)
  /-- The block that was replaced or taken out, if there was one. -/
  | block (old : Option Block)

/-- The stream that a call leads to, and what it returns. A call for a handle not in use leaves the
stream as it is. -/
def perform (s : Stream) : Call → Answer × Stream
  | .push block => (.handle (s.push block).1, (s.push block).2)
  | .replace id block =>
    match s.replace? id block with
    | none => (.block none, s)
    | some (old, s) => (.block (some old), s)
  | .remove id =>
    match s.remove? id with
    | none => (.block none, s)
    | some (old, s) => (.block (some old), s)

/-- Performs calls one after the other. -/
def Call.run {σ : Type} (perform : σ → Call → Answer × σ) : List Call → σ → List Answer × σ
  | [], state => ([], state)
  | call :: calls, state =>
    let (answer, state) := perform state call
    let (answers, state) := Call.run perform calls state
    (answer :: answers, state)

/-- What every call keeps is kept by all of them. -/
theorem Call.run_keeps {σ : Type} {perform : σ → Call → Answer × σ} {P : σ → Prop}
    (step : ∀ x call, P x → P (perform x call).2) (calls : List Call) {x : σ} (h : P x) :
    P (run perform calls x).2 := by
  induction calls generalizing x with
  | nil => exact h
  | cons call calls ih => exact ih (step x call h)

/-- States that answer every call alike, and stay related, answer all sequences of calls alike. -/
theorem Call.run_related {σ τ : Type} {left : σ → Call → Answer × σ} {right : τ → Call → Answer × τ}
    {Related : σ → τ → Prop}
    (step : ∀ x y call, Related x y →
      (left x call).1 = (right y call).1 ∧ Related (left x call).2 (right y call).2)
    (calls : List Call) {x : σ} {y : τ} (h : Related x y) :
    (run left calls x).1 = (run right calls y).1 ∧
      Related (run left calls x).2 (run right calls y).2 := by
  induction calls generalizing x y with
  | nil => exact ⟨rfl, h⟩
  | cons call calls ih =>
    obtain ⟨hanswer, hstate⟩ := step x y call h
    obtain ⟨hanswers, hend⟩ := ih hstate
    exact ⟨by simp only [run, hanswer, hanswers], hend⟩

end Stream

end DeflateRecoder
