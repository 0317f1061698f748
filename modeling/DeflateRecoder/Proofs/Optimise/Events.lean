import DeflateRecoder.Proofs.Optimise.Steps
import DeflateRecoder.Proofs.Search.Merging

/-!
# What is told of changes

While blocks are searched, nothing but details is told (`level_search`). So what is told of a block
that was replaced, or of two that were merged, comes from the step that did it (`Run.Tells`), and
the steps tell it in the order in which they are taken (`Run.Steps.tells`).

A step that puts one block in the place of another tells the sizes of both, and the second is
smaller. A step that merges two blocks tells the size of the first of them, without the second one
and the bits that open it, and the size of the block in their place. That one is smaller than both
blocks together (`Stream.optimise_tells`), but it can be bigger than the size that is told
(`Stream.merged_tells_more`).
-/

namespace DeflateRecoder

/-! ## What is told of a search -/

/-- A trial is told as a detail. -/
theorem Trial.level_event {b : Block} {t : Trial} (h : t.Sound b) (position : Nat) :
    (t.event position).level = .trace := by
  cases t with
  | offer attempt c => rfl
  | failed reason => exact h

/-- A search tells nothing but details. -/
theorem level_search {config : Config} {b : Block} {position : Nat} {event : Event}
    (h : event ∈ (search config b position).1) : event.level = .trace := by
  obtain ⟨t, ht, rfl⟩ := List.mem_map.1 h
  exact Trial.level_event (b.sound_trials config.rules t ht) position

/-- Trying to merge two blocks tells nothing but details. -/
theorem level_mergeBlocks {config : Config} {first second : Block} {position : Nat} {event : Event}
    (h : event ∈ (mergeBlocks config first second position).1) : event.level = .trace := by
  unfold mergeBlocks at h
  split at h
  · cases h
  · obtain rfl := List.mem_singleton.1 h
    rfl
  · exact level_search h

/-- Trying to merge a block with the one behind it tells nothing but details. -/
theorem level_mergeFront {config : Config} {first : Block} {start : Nat} {behind : List Entry}
    {event : Event} (h : event ∈ (mergeFront config first start behind).1) :
    event.level = .trace := by
  cases behind with
  | nil => cases h
  | cons second rest =>
    rw [mergeFront] at h
    split at h
    · exact level_mergeBlocks h
    · cases h

namespace Run

variable {config : Config} {r r' r'' : Run} {m : Move} {event : Event}

/-! ## What is told of a step -/

/-- The bits from the body of the block at hand to the end of the first `n` blocks ahead. -/
def span (r : Run) (n : Nat) : Nat :=
  Stream.endOfBlocks r.position ((r.ahead.take n).map (·.block)) - (r.position + openingBits)

/-- One block takes the bits of its body. -/
theorem span_one {e : Entry} {behind : List Entry} (h : r.ahead = e :: behind) :
    r.span 1 = e.block.bitSize (r.position + openingBits) := by
  simp [span, h, Stream.endOfBlocks, Block.endOf]

/-- Two blocks take the bodies of both, and the bits that open the second. -/
theorem span_two {e second : Entry} {rest : List Entry} (h : r.ahead = e :: second :: rest) :
    r.span 2 = r.span 1 + openingBits +
      second.block.bitSize (r.position + openingBits + r.span 1 + openingBits) := by
  rw [span_one h]
  simp [span, h, Stream.endOfBlocks, Block.endOf]
  omega

/-- A step puts a block in the place of the first `n` ahead. -/
structure Puts (config : Config) (m : Move) (n : Nat) (r r' : Run) (block : Block) : Prop where
  next : r.next config = some (m, r')
  length_le : n ≤ r.ahead.length
  passed : r'.passed = r.passed
  ahead : ∃ e behind, r.ahead = e :: behind ∧ r'.ahead = ⟨e.id, block⟩ :: r.ahead.drop n

/-- What a step tells of a block that was replaced, or of two that were merged: which one it is, a
size, and the size of the block that it puts there. -/
def Tells (config : Config) (r r' : Run) : Event → Prop
  | .replaced index old new => ∃ block, Puts config .replace 1 r r' block ∧
      index = r.passed.length ∧ old = r.span 1 ∧
      new = block.bitSize (r.position + openingBits) ∧ new < r.span 1
  | .merged index old new => ∃ block, Puts config .merge 2 r r' block ∧
      index = r.passed.length ∧ old = r.span 1 ∧
      new = block.bitSize (r.position + openingBits) ∧ new < r.span 2
  | _ => True

/-- A detail tells nothing of a replacement or a merge. -/
theorem tells_of_level (h : event.level = .trace) : Tells config r r' event := by
  cases event with
  | replaced | merged => cases h
  | _ => trivial

/-- Where nothing but details is told, nothing is told of a replacement or a merge. -/
theorem tells_of_details {α : Type} {result : List Event × α} {events : List Event} {found : α}
    (h : result = (events, found)) (hlevel : ∀ event ∈ result.1, event.level = .trace) :
    ∀ event ∈ events, Tells config r r' event := by
  subst h
  intro event hevent
  exact tells_of_level (hlevel event hevent)

/-- A replacement is told with the sizes of the block that goes and of the one that comes. -/
theorem tells_of_replace {e : Entry} {behind : List Entry} {events : List Event}
    {better : Smaller e.block (r.position + openingBits)} (hahead : r.ahead = e :: behind)
    (h : r.next config = some (.replace, r.change (⟨e.id, better.1⟩ :: behind) events)) :
    Tells config r (r.change (⟨e.id, better.1⟩ :: behind) events)
      (.replaced r.passed.length (e.block.bitSize (r.position + openingBits))
        (better.1.bitSize (r.position + openingBits))) := by
  have hputs : Puts config .replace 1 r (r.change (⟨e.id, better.1⟩ :: behind) events) better.1 :=
    ⟨h, by simp [hahead], rfl, e, behind, hahead, by rw [hahead]; rfl⟩
  refine ⟨better.1, hputs, rfl, (span_one hahead).symm, rfl, ?_⟩
  rw [span_one hahead]
  exact better.2

/-- A merge is told with the size of the first block alone, which is not what the merged one
replaces. -/
theorem tells_of_merge {e second : Entry} {rest : List Entry} {merged : Block}
    {events : List Event} (hahead : r.ahead = e :: second :: rest)
    (hsmaller : r.position + openingBits + merged.bitSize (r.position + openingBits) <
      second.block.endOf (e.block.endOf r.position))
    (h : r.next config = some (.merge, r.change (⟨e.id, merged⟩ :: rest) events)) :
    Tells config r (r.change (⟨e.id, merged⟩ :: rest) events)
      (.merged r.passed.length (e.block.bitSize (r.position + openingBits))
        (merged.bitSize (r.position + openingBits))) := by
  have hputs : Puts config .merge 2 r (r.change (⟨e.id, merged⟩ :: rest) events) merged :=
    ⟨h, by simp [hahead], rfl, e, second :: rest, hahead, by rw [hahead]; rfl⟩
  refine ⟨merged, hputs, rfl, (span_one hahead).symm, rfl, ?_⟩
  rw [Block.endOf, Block.endOf] at hsmaller
  rw [span_two hahead, span_one hahead]
  omega

/-- What a step tells is behind what was told before it. -/
theorem next_tells (h : r.next config = some (m, r')) :
    ∃ told, r'.events = r.events ++ told ∧ ∀ event ∈ told, Tells config r r' event := by
  cases turn_of_next h with
  | remove => exact ⟨_, rfl, List.forall_mem_singleton.2 trivial⟩
  | replace hahead hsearch =>
    exact ⟨_, rfl, List.forall_mem_append.2 ⟨tells_of_details hsearch fun _ => level_search,
      List.forall_mem_singleton.2 (tells_of_replace hahead h)⟩⟩
  | merge hahead hsearch hmerge =>
    have hsmaller := (mergeBlocks_spec (congrArg Prod.snd hmerge)).2
    refine ⟨_, rfl, List.forall_mem_append.2 ⟨List.forall_mem_append.2 ⟨?_, ?_⟩,
      List.forall_mem_singleton.2 (tells_of_merge hahead hsmaller h)⟩⟩
    · exact tells_of_details hsearch fun _ => level_search
    · exact tells_of_details hmerge fun _ => level_mergeBlocks
  | keep hahead hsearch hmerge =>
    exact ⟨_, rfl, List.forall_mem_append.2 ⟨tells_of_details hsearch fun _ => level_search,
      tells_of_details hmerge fun _ => level_mergeFront⟩⟩
  | again => exact ⟨[.passFinished r.pass r.changed], rfl, List.forall_mem_singleton.2 trivial⟩

/-! ## What is told of any number of steps -/

/-- What was told once stays told. -/
theorem Steps.mem_events {moves : List Move} (hsteps : Steps config r moves r')
    (h : event ∈ r.events) : event ∈ r'.events := by
  induction hsteps with
  | refl => exact h
  | step hnext _ ih =>
    obtain ⟨told, htold, -⟩ := next_tells hnext
    exact ih (htold ▸ List.mem_append_left told h)

/-- Whatever was told on the way was told by one of the steps. -/
theorem Steps.tells {moves : List Move} (hsteps : Steps config r moves r')
    (h : event ∈ r'.events) : event ∈ r.events ∨
      ∃ before q q', Steps config r before q ∧ (∃ m, q.next config = some (m, q')) ∧
        Tells config q q' event := by
  induction hsteps with
  | refl => exact .inl h
  | @step r q r' m moves hnext _ ih =>
    rcases ih h with hq | ⟨before, p, p', hbefore, hp, htells⟩
    · obtain ⟨told, htold, hall⟩ := next_tells hnext
      rw [htold, List.mem_append] at hq
      rcases hq with hr | hnew
      · exact .inl hr
      · exact .inr ⟨[], r, q, .refl r, ⟨m, hnext⟩, hall event hnew⟩
    · exact .inr ⟨m :: before, p, p', .step hnext hbefore, hp, htells⟩

end Run

namespace Stream

open Run

/-- Whatever is told while a stream is made smaller was told by a step, or at the end of the last pass
or of all. -/
theorem exists_step_of_told {s : Stream} {config : Config} {event : Event}
    (h : event ∈ (s.optimise config).events)
    (hpass : ∀ pass changed, event ≠ .passFinished pass changed)
    (hsaved : ∀ name bits passes, event ≠ .saved name bits passes) :
    ∃ before r r', Steps config (start s.entries) before r ∧ Tells config r r' event := by
  obtain ⟨moves, last, hsteps, -, houtcome⟩ := steps_settle config 1 s.entries []
  have hlast : event ∈ last.finished := by
    rcases List.mem_append.1 h with hsettled | hend
    · have hevents : last.finished = (settle config 1 s.entries).events :=
        congrArg Settled.events houtcome
      exact hevents ▸ hsettled
    · exact absurd (List.mem_singleton.1 hend) (hsaved _ _ _)
  have hevents : event ∈ last.events := by
    rcases List.mem_append.1 hlast with hevents | hend
    · exact hevents
    · exact absurd (List.mem_singleton.1 hend) (hpass _ _)
  rcases hsteps.tells hevents with hnone | ⟨before, r, r', hbefore, -, htells⟩
  · cases hnone
  · exact ⟨before, r, r', hbefore, htells⟩

/-- What the first step tells is told in the end. -/
theorem told_of_first_step {s : Stream} {config : Config} {m : Move} {r : Run} {event : Event}
    (hnext : (start s.entries).next config = some (m, r)) (h : event ∈ r.events) :
    event ∈ (s.optimise config).events := by
  obtain ⟨moves, last, hsteps, hend, houtcome⟩ := steps_settle config 1 s.entries []
  have hlast : event ∈ last.events := by
    cases hsteps with
    | refl => exact absurd (hend.symm.trans hnext) (Option.some_ne_none _).symm
    | step hfirst hlater =>
      cases hfirst.symm.trans hnext
      exact hlater.mem_events h
  have hevents : last.finished = (settle config 1 s.entries).events :=
    congrArg Settled.events houtcome
  exact List.mem_append_left _ (hevents ▸ List.mem_append_left _ hlast)

/-- While a stream is made smaller, a block that was replaced is told with the size that it had at its
place and the size of the block put there, which is smaller. Two blocks that were merged are told
with the size of the first alone and that of the block put there, which is smaller than the two
with the bits between them. -/
theorem optimise_tells (s : Stream) (config : Config) :
    (∀ index old new, .replaced index old new ∈ (s.optimise config).events →
      ∃ before r r' block, Steps config (start s.entries) before r ∧
        Puts config .replace 1 r r' block ∧ index = r.passed.length ∧ old = r.span 1 ∧
        new = block.bitSize (r.position + openingBits) ∧ new < old) ∧
    ∀ index old new, .merged index old new ∈ (s.optimise config).events →
      ∃ before r r' block, Steps config (start s.entries) before r ∧
        Puts config .merge 2 r r' block ∧ index = r.passed.length ∧ old = r.span 1 ∧
        old + openingBits ≤ r.span 2 ∧
        new = block.bitSize (r.position + openingBits) ∧ new < r.span 2 := by
  constructor
  · intro index old new h
    obtain ⟨before, r, r', hsteps, block, hputs, hindex, rfl, hnew, hlt⟩ :=
      exists_step_of_told h nofun nofun
    exact ⟨before, r, r', block, hsteps, hputs, hindex, rfl, hnew, hlt⟩
  · intro index old new h
    obtain ⟨before, r, r', hsteps, block, hputs, hindex, rfl, hnew, hlt⟩ :=
      exists_step_of_told h nofun nofun
    refine ⟨before, r, r', block, hsteps, hputs, hindex, rfl, ?_, hnew, hlt⟩
    obtain ⟨e, behind, hahead, -⟩ := hputs.ahead
    have hlength := hputs.length_le
    cases behind with
    | nil => simp [hahead] at hlength
    | cons second rest =>
      rw [span_two hahead]
      exact Nat.le_add_right _ _

end Stream

/-! ## A merge that tells of growth -/

namespace Stream

open Run

/-- Of two literals in blocks of their own, 15 bits are told where 33 are replaced, and the block in
their place takes more than 15. -/
theorem merged_literals {config : Config} (hmerge : config.merge = true) {a b : UInt8}
    (ha : a.toNat < 144) (hb : b.toNat < 144) {s : Stream}
    (hs : s.blocks = [literalBlock a, literalBlock b]) :
    ∃ new, .merged 0 15 new ∈ (s.optimise config).events ∧ 23 ≤ new := by
  obtain ⟨merged, r, hmerged, hnext, htold⟩ := exists_next_start_of_literals hmerge ha hb hs
  refine ⟨merged.bitSize openingBits, told_of_first_step hnext htold, ?_⟩
  obtain ⟨hjoins, -⟩ := mergeBlocks_spec hmerged
  have hbytes : merged.bytes.length = 2 := congrArg List.length hjoins.bytes_eq
  have hwell := hjoins.wellFormed .empty (wellFormed_literalBlock _ a) (wellFormed_literalBlock _ b)
  have hle := Block.le_bitSize_of_few hwell (Nat.le_of_eq hbytes) openingBits
  rw [hbytes] at hle
  exact hle

/-- Two literals in blocks of their own are read, and merged into a block that is told to be
bigger. -/
theorem merged_tells_more :
    ∃ s, parse "" [74, 4, 44, 9, 0] = .ok s ∧
      ∃ new, .merged 0 15 new ∈ (s.optimise {}).events ∧ 15 < new := by
  have hchain : Chain Window.empty [literalBlock 97, literalBlock 98] :=
    ⟨wellFormed_literalBlock _ 97, wellFormed_literalBlock _ 98, trivial⟩
  obtain ⟨out, hwrite, -, hread⟩ := @parse_of_chain (ofBlocks "" [literalBlock 97, literalBlock 98])
    (List.cons_ne_nil _ _) hchain
  have hout : (ofBlocks "" [literalBlock 97, literalBlock 98]).write.toOption =
      some [74, 4, 44, 9, 0] := by decide +kernel
  rw [hwrite] at hout
  cases hout
  obtain ⟨s, hs, hblocks⟩ := hread "" []
  obtain ⟨new, hnew, hle⟩ := @merged_literals {} rfl 97 98 (by decide) (by decide) s hblocks
  exact ⟨s, hs, new, hnew, by omega⟩

end Stream

end DeflateRecoder
