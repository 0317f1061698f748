import DeflateRecoder.Optimise.Recoding

/-!
# Batches

A batch recodes streams that have nothing to do with each other. The streams are dealt out to
workers, and results arrive in whatever order the workers finish; `collect` puts them back into
the order of the streams by the number that each carries.
-/

namespace DeflateRecoder.Batch

/-- A stream to be recoded. -/
structure Job where
  /-- The place of the stream in the batch. -/
  index : Nat
  /-- The bytes of the stream. -/
  input : List UInt8

/-- What became of a stream. -/
structure Result where
  /-- The place of the stream in the batch. -/
  index : Nat
  /-- The bytes to use in its place. -/
  output : List UInt8
  /-- The sizes before and after. -/
  stats : Stats
  /-- What the output was made from. -/
  source : String
  deriving DecidableEq, Repr

/-- The jobs for the streams of a batch. -/
def jobs (inputs : List (List UInt8)) : List Job :=
  inputs.zipIdx.map fun (input, index) => ⟨index, input⟩

/-- Does a job. -/
def Job.run (config : Config) (job : Job) : Result :=
  let r := recode config job.input
  ⟨job.index, r.bytes, r.stats, "input"⟩

/-- Puts a result in its place among results in increasing order. A later result for the same
stream takes the place of an earlier one. -/
def place (r : Result) : List Result → List Result
  | [] => [r]
  | s :: rest =>
    if r.index < s.index then r :: s :: rest
    else if r.index = s.index then r :: rest
    else s :: place r rest

/-- The results for `total` streams, which arrived in any order. -/
def collect (total : Nat) (arrived : List Result) : Except Error (List Result) :=
  let results := arrived.foldl (fun results r => place r results) []
  if results.length = total then .ok results
  else .error (.internal (.resultCount total results.length))

/-- How many workers a batch of `size` streams gets. -/
def workerCount (config : Config) (processors size : Nat) : Nat :=
  let wanted := if config.threads = 0 then processors else config.threads
  min (min (max wanted 1) 32) (max size 1)

/-- The share of one of several workers, each of which takes the next job in turn. -/
def share (workers worker : Nat) (jobs : List Job) : List Job :=
  jobs.filter fun job => job.index % workers = worker

/-- Recodes the streams of a batch. -/
def optimiseAll (config : Config) (processors : Nat) (inputs : List (List UInt8)) :
    Except Error (List Result) :=
  let all := jobs inputs
  let workers := workerCount config processors inputs.length
  if workers = 1 then .ok (all.map (Job.run config))
  else
    collect inputs.length <|
      (List.range workers).flatMap fun worker => (share workers worker all).map (Job.run config)

end DeflateRecoder.Batch
