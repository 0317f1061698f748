import DeflateRecoder.Proofs.Batch.Results
import Mathlib.Logic.Relation

/-!
# The worker pool of a batch

`Pool.Step` is one step of the threads that work on a batch. A feeder sends the jobs into a channel;
workers take jobs out of it, one at a time, and send the results into another channel; a collector
takes the results out until the last worker has ended. A channel has room for so many messages. It
hands each of them to one receiver, in no particular order, and a receiver is told that there are no
more when no message is left and all senders have ended. Which thread takes the next step is left
open.

`Pool.Sound.step` says that no step loses or repeats a job, `Pool.exists_step` that no run gets
stuck, and `Pool.left_lt_of_step` that every run comes to an end. `returns_iff` puts this together:
however a batch runs, it returns the results of its streams alone.
-/

namespace DeflateRecoder.Batch

/-! ## States and steps -/

/-- What a worker is doing. -/
inductive Worker
  /-- It waits for a job. -/
  | waiting
  /-- It does a job, and sends the result when there is room. -/
  | busy (job : Job)
  /-- It has let go of its ends of the channels. -/
  | ended

/-- The job that a worker has taken. -/
def Worker.job? : Worker → Option Job
  | busy job => some job
  | _ => none

/-- The threads that work on a batch, and the messages between them. -/
structure Pool where
  /-- The jobs that the feeder has not sent. -/
  ahead : List Job
  /-- The feeder has not ended. -/
  feeding : Bool
  /-- The jobs that no worker has taken. -/
  queue : List Job
  /-- The workers. -/
  workers : List Worker
  /-- The results that the collector has not taken. -/
  results : List Result
  /-- The results that the collector has taken, in that order. -/
  arrived : List Result
  /-- What the collector has returned, if it has. -/
  outcome : Option (Except Error (List Result))

namespace Pool

/-- How many messages a channel has room for. -/
def capacity (p : Pool) : Nat := 4 * p.workers.length

/-- All workers have ended. -/
def Closed (p : Pool) : Prop := ∀ w ∈ p.workers, w = .ended

/-- The threads before their first step. -/
def start (workers : Nat) (all : List Job) : Pool where
  ahead := all
  feeding := true
  queue := []
  workers := List.replicate workers .waiting
  results := []
  arrived := []
  outcome := none

/-- One step of one of the threads that work on a batch of `size` streams. -/
inductive Step (config : Config) (size : Nat) : Pool → Pool → Prop
  /-- The feeder sends a job. -/
  | feed {p : Pool} {job : Job} {rest : List Job} (hfeeding : p.feeding = true)
      (hahead : p.ahead = job :: rest) (hroom : p.queue.length < p.capacity)
      (hopen : ¬p.Closed) :
      Step config size p { p with ahead := rest, queue := p.queue ++ [job] }
  /-- The feeder gives up when there is nobody to send a job to. -/
  | feedRefused {p : Pool} {job : Job} {rest : List Job} (hfeeding : p.feeding = true)
      (hahead : p.ahead = job :: rest) (hclosed : p.Closed) :
      Step config size p { p with feeding := false }
  /-- The feeder ends when it has sent all jobs. -/
  | feedEnd {p : Pool} (hfeeding : p.feeding = true) (hahead : p.ahead = []) :
      Step config size p { p with feeding := false }
  /-- A worker takes a job. -/
  | take {p : Pool} {i : Nat} {job : Job} {front back : List Job}
      (hworker : p.workers[i]? = some .waiting) (hqueue : p.queue = front ++ job :: back) :
      Step config size p
        { p with queue := front ++ back, workers := p.workers.set i (.busy job) }
  /-- A worker ends when no job is left and none can come. -/
  | workerEnd {p : Pool} {i : Nat} (hworker : p.workers[i]? = some .waiting)
      (hqueue : p.queue = []) (hfeeding : p.feeding = false) :
      Step config size p { p with workers := p.workers.set i .ended }
  /-- A worker sends the result of its job. -/
  | send {p : Pool} {i : Nat} {job : Job} (hworker : p.workers[i]? = some (.busy job))
      (hroom : p.results.length < p.capacity) (hopen : p.outcome = none) :
      Step config size p
        { p with workers := p.workers.set i .waiting, results := p.results ++ [job.run config] }
  /-- A worker gives up when there is nobody to send a result to. -/
  | sendRefused {p : Pool} {i : Nat} {job : Job} (hworker : p.workers[i]? = some (.busy job))
      (hclosed : p.outcome ≠ none) :
      Step config size p { p with workers := p.workers.set i .ended }
  /-- The collector takes a result. -/
  | collect {p : Pool} {r : Result} {front back : List Result} (hopen : p.outcome = none)
      (hresults : p.results = front ++ r :: back) :
      Step config size p { p with results := front ++ back, arrived := p.arrived ++ [r] }
  /-- The collector returns when no result is left and none can come. -/
  | collectEnd {p : Pool} (hopen : p.outcome = none) (hresults : p.results = [])
      (hclosed : p.Closed) :
      Step config size p { p with outcome := some (Batch.collect size p.arrived) }

/-! ## What every step keeps -/

variable {config : Config} {size : Nat} {all : List Job} {p q : Pool}

/-- The results that there are and those of the jobs that are still to be done. -/
def accounted (config : Config) (p : Pool) : List Result :=
  (p.ahead ++ p.queue ++ p.workers.filterMap Worker.job?).map (Job.run config) ++ p.results ++
    p.arrived

/-- No job gets lost: those that are still to be done and the results that there are make up the
batch, and threads end one after the other. -/
structure Sound (config : Config) (size : Nat) (all : List Job) (p : Pool) : Prop where
  conserved : (p.accounted config).Perm (all.map (Job.run config))
  manned : p.workers ≠ []
  /-- The feeder ends when it has sent all jobs. -/
  fed : p.feeding = false → p.ahead = []
  /-- Workers end behind the feeder, when all jobs have been taken. -/
  drained : .ended ∈ p.workers → p.feeding = false ∧ p.queue = []
  /-- The collector ends last. -/
  collected : ∀ o, p.outcome = some o →
    p.Closed ∧ p.results = [] ∧ o = Batch.collect size p.arrived

/-- A pool that has not begun is sound: every job is still to come, and no worker has ended. -/
theorem sound_start {workers : Nat} (h : 0 < workers) (config : Config) (size : Nat)
    (all : List Job) : (start workers all).Sound config size all where
  conserved := by
    have hidle : (List.replicate workers Worker.waiting).filterMap Worker.job? = [] := by
      rw [List.filterMap_replicate_of_none rfl]
    simp only [accounted, start, hidle, List.append_nil]
    exact List.Perm.refl _
  manned := List.ne_nil_of_length_pos (by rwa [start, List.length_replicate])
  fed := nofun
  drained := fun hmem => nomatch List.eq_of_mem_replicate hmem
  collected := nofun

/-- A worker among the others, and what takes its place. -/
theorem exists_split {α : Type} {l : List α} {i : Nat} {a : α} (h : l[i]? = some a) :
    ∃ front back, l = front ++ a :: back ∧ ∀ b, l.set i b = front ++ b :: back := by
  obtain ⟨hlt, rfl⟩ := List.getElem?_eq_some_iff.1 h
  refine ⟨l.take i, l.drop (i + 1), ?_, fun b => ?_⟩
  · rw [List.getElem_cons_drop, List.take_append_drop]
  · rw [List.set_eq_take_append_cons_drop, if_pos hlt]

/-- Before a thread gives up it would have to be the last one. -/
theorem Sound.not_closed (h : p.Sound config size all) (hfeeding : p.feeding = true) :
    ¬p.Closed := by
  intro hclosed
  obtain ⟨w, hw⟩ := List.exists_mem_of_ne_nil _ h.manned
  have hended := (h.drained (hclosed w hw ▸ hw)).1
  rw [hfeeding] at hended
  cases hended

/-- As long as a worker has not ended, nothing has been returned. -/
theorem Sound.outcome_eq_none (h : p.Sound config size all) {i : Nat} {w : Worker}
    (hw : p.workers[i]? = some w) (hlive : w ≠ .ended) : p.outcome = none := by
  refine Option.eq_none_iff_forall_ne_some.2 fun o ho => hlive ?_
  exact (h.collected o ho).1 w (List.mem_of_getElem? hw)

/-- No step loses or repeats a job. -/
theorem Sound.conserved_step (h : p.Sound config size all) (hs : p.Step config size q) :
    (q.accounted config).Perm (all.map (Job.run config)) := by
  -- Each result is counted once wherever its job is: not sent, sent, taken, done or collected.
  refine List.Perm.trans (List.perm_iff_count.2 fun r => ?_) h.conserved
  cases hs with
  | feed hfeeding hahead hroom hopen =>
    simp only [accounted, hahead, List.map_append, List.map_cons, List.map_nil, List.count_append,
      List.count_cons, List.count_nil]
    omega
  | feedRefused => rfl
  | feedEnd => rfl
  | take hworker hqueue =>
    obtain ⟨others, behind, hworkers, hset⟩ := exists_split hworker
    simp only [accounted, hset]
    simp only [hworkers, hqueue, Worker.job?, List.filterMap_append, List.filterMap_cons,
      List.map_append, List.map_cons, List.count_append, List.count_cons]
    omega
  | workerEnd hworker hqueue hfeeding =>
    obtain ⟨others, behind, hworkers, hset⟩ := exists_split hworker
    simp only [accounted, hset]
    simp only [hworkers, Worker.job?, List.filterMap_append, List.filterMap_cons]
  | send hworker hroom hopen =>
    obtain ⟨others, behind, hworkers, hset⟩ := exists_split hworker
    simp only [accounted, hset]
    simp only [hworkers, Worker.job?, List.filterMap_append, List.filterMap_cons, List.map_append,
      List.map_cons, List.count_append, List.count_cons, List.count_nil]
    omega
  | sendRefused hworker hclosed => exact absurd (h.outcome_eq_none hworker nofun) hclosed
  | collect hopen hresults =>
    simp only [accounted, hresults, List.count_append, List.count_cons, List.count_nil]
    omega
  | collectEnd => rfl

/-- Nothing is asked of a collector that has not returned. -/
theorem of_outcome_eq_none {P : Except Error (List Result) → Prop} (hopen : p.outcome = none) :
    ∀ o, p.outcome = some o → P o := by
  intro o ho
  rw [hopen] at ho
  cases ho

/-- Only a worker that ends is one more that has ended. -/
theorem ended_mem_of_set {workers : List Worker} {i : Nat} {w : Worker}
    (h : .ended ∈ workers.set i w) (hw : w ≠ .ended) : .ended ∈ workers :=
  (List.mem_or_eq_of_mem_set h).resolve_right (Ne.symm hw)

/-- Changing a worker leaves workers. -/
theorem set_ne_nil {workers : List Worker} (h : workers ≠ []) (i : Nat) (w : Worker) :
    workers.set i w ≠ [] :=
  mt (List.set_eq_nil_iff i w).1 h

/-- Every step of a pool keeps it sound. What it does to the results is `Sound.conserved_step`; the
rest is who may have ended. -/
theorem Sound.step (h : p.Sound config size all) (hs : p.Step config size q) :
    q.Sound config size all := by
  have hconserved := h.conserved_step hs
  have hmanned := h.manned
  cases hs with
  | feed hfeeding hahead hroom hopen =>
    -- No worker ends before the last job was sent.
    have hbusy : p.feeding ≠ false := by
      rw [hfeeding]
      decide
    exact ⟨hconserved, hmanned, fun hdone => absurd hdone hbusy,
      fun hended => absurd (h.drained hended).1 hbusy, h.collected⟩
  | feedRefused hfeeding hahead hclosed => exact absurd hclosed (h.not_closed hfeeding)
  | feedEnd hfeeding hahead =>
    exact ⟨hconserved, hmanned, fun _ => hahead, fun hended => ⟨rfl, (h.drained hended).2⟩,
      h.collected⟩
  | take hworker hqueue =>
    have hopen := h.outcome_eq_none hworker nofun
    refine ⟨hconserved, set_ne_nil hmanned _ _, h.fed, fun hended => ?_, of_outcome_eq_none hopen⟩
    have hempty := (h.drained (ended_mem_of_set hended nofun)).2
    rw [hqueue] at hempty
    exact absurd hempty (by simp)
  | workerEnd hworker hqueue hfeeding =>
    have hopen := h.outcome_eq_none hworker nofun
    exact ⟨hconserved, set_ne_nil hmanned _ _, h.fed, fun _ => ⟨hfeeding, hqueue⟩,
      of_outcome_eq_none hopen⟩
  | send hworker hroom hopen =>
    exact ⟨hconserved, set_ne_nil hmanned _ _, h.fed,
      fun hended => h.drained (ended_mem_of_set hended nofun), of_outcome_eq_none hopen⟩
  | sendRefused hworker hclosed => exact absurd (h.outcome_eq_none hworker nofun) hclosed
  | collect hopen hresults =>
    exact ⟨hconserved, hmanned, h.fed, h.drained, of_outcome_eq_none hopen⟩
  | collectEnd hopen hresults hclosed =>
    exact ⟨hconserved, hmanned, h.fed, h.drained,
      fun o ho => ⟨hclosed, hresults, (Option.some.inj ho).symm⟩⟩

/-- When the collector has returned, all results have arrived. -/
theorem Sound.arrived_perm (h : p.Sound config size all) {o : Except Error (List Result)}
    (ho : p.outcome = some o) : p.arrived.Perm (all.map (Job.run config)) := by
  obtain ⟨hclosed, hresults, -⟩ := h.collected o ho
  obtain ⟨w, hw⟩ := List.exists_mem_of_ne_nil _ h.manned
  obtain ⟨hfeeding, hqueue⟩ := h.drained (hclosed w hw ▸ hw)
  have hidle : p.workers.filterMap Worker.job? = [] :=
    List.filterMap_eq_nil_iff.2 fun w hw => by rw [hclosed w hw]; rfl
  have hconserved := h.conserved
  rwa [accounted, h.fed hfeeding, hqueue, hidle, hresults] at hconserved

/-! ## Progress -/

/-- As long as the collector has not returned, some thread can take a step. -/
theorem exists_step (config : Config) (size : Nat) (ho : p.outcome = none) :
    ∃ q, p.Step config size q := by
  have hroom : ∀ {i : Nat} {w : Worker}, p.workers[i]? = some w → 0 < p.capacity := by
    intro i w hw
    have := List.length_pos_of_mem (List.mem_of_getElem? hw)
    rw [capacity]
    omega
  cases hresults : p.results with
  | cons r rest => exact ⟨_, @Step.collect _ _ _ r [] rest ho hresults⟩
  | nil =>
    by_cases hclosed : p.Closed
    · exact ⟨_, .collectEnd ho hresults hclosed⟩
    · obtain ⟨w, hw, hlive⟩ : ∃ w ∈ p.workers, w ≠ .ended := by
        simpa only [Closed, not_forall, exists_prop] using hclosed
      obtain ⟨i, hi⟩ := List.mem_iff_getElem?.1 hw
      cases w with
      | ended => exact absurd rfl hlive
      | busy job => exact ⟨_, .send hi (by rw [hresults]; exact hroom hi) ho⟩
      | waiting =>
        -- The worker takes a job; if there is none, it is the feeder's turn, or the worker ends.
        cases hqueue : p.queue with
        | cons job rest => exact ⟨_, @Step.take _ _ _ i job [] rest hi hqueue⟩
        | nil =>
          cases hfeeding : p.feeding with
          | false => exact ⟨_, .workerEnd hi hqueue hfeeding⟩
          | true =>
            cases hahead : p.ahead with
            | nil => exact ⟨_, .feedEnd hfeeding hahead⟩
            | cons job rest =>
              exact ⟨_, .feed hfeeding hahead (by rw [hqueue]; exact hroom hi) hclosed⟩

/-- How many steps a worker takes at most, beside those for jobs that it has not taken. -/
def workerLeft : Worker → Nat
  | .waiting => 1
  | .busy _ => 3
  | .ended => 0

/-- How many steps are left at most. A job is sent, taken and done, and its result is collected. -/
def left (p : Pool) : Nat :=
  4 * p.ahead.length + 3 * p.queue.length + total workerLeft p.workers + p.results.length +
    p.feeding.toNat + p.outcome.isNone.toNat

/-- Each step leaves fewer to be taken. -/
theorem left_lt_of_step (hs : p.Step config size q) : q.left < p.left := by
  cases hs with
  | feed hfeeding hahead hroom hopen =>
    simp only [left, hahead, List.length_cons, List.length_append, List.length_nil]
    omega
  | feedRefused hfeeding hahead hclosed =>
    simp only [left, hfeeding, Bool.toNat_false, Bool.toNat_true]
    omega
  | feedEnd hfeeding hahead =>
    simp only [left, hfeeding, Bool.toNat_false, Bool.toNat_true]
    omega
  | take hworker hqueue =>
    obtain ⟨others, behind, hworkers, hset⟩ := exists_split hworker
    simp only [left, hset]
    simp only [hworkers, hqueue, total_append, total_cons, workerLeft, List.length_append,
      List.length_cons]
    omega
  | workerEnd hworker hqueue hfeeding =>
    obtain ⟨others, behind, hworkers, hset⟩ := exists_split hworker
    simp only [left, hset]
    simp only [hworkers, total_append, total_cons, workerLeft]
    omega
  | send hworker hroom hopen =>
    obtain ⟨others, behind, hworkers, hset⟩ := exists_split hworker
    simp only [left, hset]
    simp only [hworkers, total_append, total_cons, workerLeft, List.length_append,
      List.length_cons, List.length_nil]
    omega
  | sendRefused hworker hclosed =>
    obtain ⟨others, behind, hworkers, hset⟩ := exists_split hworker
    simp only [left, hset]
    simp only [hworkers, total_append, total_cons, workerLeft]
    omega
  | collect hopen hresults =>
    simp only [left, hresults, List.length_append, List.length_cons]
    omega
  | collectEnd hopen hresults hclosed =>
    simp only [left, hopen, Option.isNone_none, Option.isNone_some, Bool.toNat_false,
      Bool.toNat_true]
    omega

/-- Some steps later the collector has returned. -/
theorem exists_outcome (config : Config) (size : Nat) (p : Pool) :
    ∃ q o, Relation.ReflTransGen (Step config size) p q ∧ q.outcome = some o := by
  induction hn : p.left using Nat.strongRecOn generalizing p with
  | ind n ih =>
    cases ho : p.outcome with
    | some o => exact ⟨p, o, .refl, ho⟩
    | none =>
      obtain ⟨p', hs⟩ := exists_step config size ho
      obtain ⟨q, o, hrun, ho⟩ := ih p'.left (hn ▸ left_lt_of_step hs) p' rfl
      exact ⟨q, o, .head hs hrun, ho⟩

end Pool

/-! ## What a batch returns -/

/-- The states that the threads of a batch get into. -/
def Reaches (config : Config) (processors : Nat) (inputs : List (List UInt8)) (p : Pool) : Prop :=
  Relation.ReflTransGen (Pool.Step config inputs.length)
    (Pool.start (workerCount config processors inputs.length) (jobs inputs)) p

/-- What a batch can return. -/
inductive Returns (config : Config) (processors : Nat) (inputs : List (List UInt8)) :
    Except Error (List Result) → Prop
  /-- A single thread does the jobs in turn. -/
  | inline (h : workerCount config processors inputs.length = 1) :
      Returns config processors inputs (.ok ((jobs inputs).map (Job.run config)))
  /-- Several threads run until the collector returns. -/
  | pooled {p : Pool} {o : Except Error (List Result)}
      (h : workerCount config processors inputs.length ≠ 1)
      (hrun : Reaches config processors inputs p) (ho : p.outcome = some o) :
      Returns config processors inputs o

/-- Whatever a pool can reach is sound, by induction on the steps that led there. -/
theorem Reaches.sound {config : Config} {processors : Nat} {inputs : List (List UInt8)} {p : Pool}
    (h : Reaches config processors inputs p) :
    p.Sound config inputs.length (jobs inputs) := by
  induction h with
  | refl => exact Pool.sound_start (workerCount_pos _ _ _) _ _ _
  | tail _ hs ih => exact ih.step hs

/-- The collector returns the results of all streams. -/
theorem Reaches.outcome_eq {config : Config} {processors : Nat} {inputs : List (List UInt8)}
    {p : Pool} (h : Reaches config processors inputs p) {o : Except Error (List Result)}
    (ho : p.outcome = some o) : o = .ok (resultsOf config inputs) := by
  obtain ⟨-, -, rfl⟩ := h.sound.collected o ho
  rw [← length_resultsOf config inputs]
  exact collect_perm (inOrder_resultsOf config inputs) (h.sound.arrived_perm ho)

/-- A run returns exactly what is made of the inputs one by one: each reachable end has the one
outcome, and there is an end to reach. -/
theorem returns_iff (config : Config) (processors : Nat) (inputs : List (List UInt8))
    (o : Except Error (List Result)) :
    Returns config processors inputs o ↔ o = .ok (resultsOf config inputs) := by
  constructor
  · rintro (h | ⟨-, hrun, ho⟩)
    · rfl
    · exact hrun.outcome_eq ho
  · rintro rfl
    by_cases h : workerCount config processors inputs.length = 1
    · exact .inline h
    · obtain ⟨p, o, hrun, ho⟩ := Pool.exists_outcome config inputs.length
        (Pool.start (workerCount config processors inputs.length) (jobs inputs))
      have he := Reaches.outcome_eq hrun ho
      exact he ▸ .pooled h hrun ho

/-- The results do not depend on how many streams are worked on at a time. -/
theorem resultsOf_threads (config : Config) (threads : Nat) (inputs : List (List UInt8)) :
    resultsOf { config with threads } inputs = resultsOf config inputs := by
  unfold resultsOf Job.run
  simp only [recode_threads]

/-- However many threads work on a batch and in whatever order they take their steps, it returns the
results of its streams alone, one for each of them; a run that cannot go on has returned them. -/
theorem every_run_returns (config : Config) (processors : Nat) (inputs : List (List UInt8)) :
    ∃ results : List Result, results.length = inputs.length ∧
      (∀ i : Nat, results[i]? = inputs[i]?.map fun input =>
        ⟨i, (recode config input).bytes, (recode config input).stats, "input"⟩) ∧
      (∀ threads o, Returns { config with threads } processors inputs o ↔ o = .ok results) ∧
      (∀ threads p, Reaches { config with threads } processors inputs p →
        (∃ q, p.Step { config with threads } inputs.length q) ∨
          p.outcome = some (.ok results)) ∧
      optimiseAll config processors inputs = .ok results := by
  refine ⟨resultsOf config inputs, length_resultsOf _ _, getElem?_resultsOf _ _,
    fun threads o => ?_, fun threads p hrun => ?_, optimiseAll_eq _ _ _⟩
  · rw [returns_iff, resultsOf_threads]
  · cases ho : p.outcome with
    | none => exact .inl (Pool.exists_step _ _ ho)
    | some o =>
      right
      rw [hrun.outcome_eq ho, resultsOf_threads]

/-- Two workers and a single thread on an empty block and a byte that is no stream. -/
theorem every_run_returns_two : ∃ results : List Result, results.length = 2 ∧
    Returns { threads := 2 } 1 [[3, 0], [255]] (.ok results) ∧
    Returns { threads := 1 } 1 [[3, 0], [255]] (.ok results) ∧
    (∃ q, Pool.Step { threads := 2 } 2 (Pool.start 2 (jobs [[3, 0], [255]])) q) := by
  obtain ⟨results, hlen, -, hreturns, hgoes, -⟩ := every_run_returns {} 1 [[3, 0], [255]]
  refine ⟨results, hlen, (hreturns 2 _).2 rfl, (hreturns 1 _).2 rfl, ?_⟩
  exact (hgoes 2 _ .refl).resolve_right nofun

end DeflateRecoder.Batch
