import BlockFlow.Machine.Batch
import BlockFlow.Proofs.Batch.Endings
import BlockFlow.Settings.Basic
import Mathlib.Data.List.ReduceOption

/-!
# Executing a batch concurrently

An executor shares the jobs of a batch out among workers that run at the same time.  A feeder puts
the jobs into a channel, in the order of the inputs; each worker takes a job, runs it on a machine
of its own and puts the result into a second channel, until no job is left; a collector gathers the
results and sorts them by the numbers of their jobs.

Both channels are bounded: who finds one full waits.  The channel of the jobs is closed by the
feeder, after it has reported that all jobs are handed out; the channel of the results is closed
when the last worker is gone.  Nothing else says who moves when: `Executor.Step` relates a state to
all states that some process can lead to, and `Executor.Run` strings steps together in any order.
-/

namespace BlockFlow

/-! ### Processes -/

/-- One job of a batch. -/
structure Job where
  /-- The number of the job: the place of its inputs. -/
  number : Nat
  /-- The inputs of the run. -/
  inputs : Inputs

/-- The jobs of a batch. -/
def jobsOf (inputs : List Inputs) : List Job :=
  inputs.zipIdx.map fun (inputs, number) => ⟨number, inputs⟩

/-- A channel: what was sent and not received yet, the oldest first. -/
structure Channel (α : Type) where
  queue : List α := []
  closed : Bool := false

namespace Channel

variable {α : Type}

/-- A value can be sent. -/
def Accepts (capacity : Nat) (c : Channel α) : Prop :=
  c.closed = false ∧ c.queue.length < capacity

/-- No value is left, and none will come. -/
def Drained (c : Channel α) : Prop :=
  c.closed = true ∧ c.queue = []

end Channel

/-- The feeder. -/
inductive Feeder where
  /-- It has these jobs left to hand out. -/
  | handing (rest : List Job)
  /-- It has reported, and is about to close the channel. -/
  | closing
  | gone

namespace Feeder

/-- The jobs that were not handed out yet. -/
def rest : Feeder → List Job
  | handing rest => rest
  | _ => []

/-- The feeder has not reported yet. -/
def isHanding : Feeder → Bool
  | handing _ => true
  | _ => false

end Feeder

/-- A worker. -/
inductive Worker where
  /-- It is ready for a job. -/
  | waiting
  /-- It runs a job, of which it has executed some blocks. -/
  | running (job : Job) (blocks : Nat)
  /-- It has a result to deliver. -/
  | delivering (result : JobResult)
  /-- It has seen the end of the jobs, and is about to go. -/
  | leaving
  | gone

namespace Worker

/-- The worker has seen the end of the jobs. -/
def hasLeft : Worker → Bool
  | leaving | gone => true
  | _ => false

end Worker

/-- The collector. -/
inductive Collector where
  /-- It gathers results. -/
  | collecting (received : List JobResult)
  /-- It has all results, and waits for the report of the feeder. -/
  | settling (received : List JobResult)
  /-- It has returned the results of the batch. -/
  | returned (results : List JobResult)

namespace Collector

/-- The results that have reached the collector. -/
def received : Collector → List JobResult
  | collecting received | settling received => received
  | returned results => results

/-- The collector still gathers results. -/
def isCollecting : Collector → Bool
  | collecting _ => true
  | _ => false

/-- The batch is done. -/
def hasReturned : Collector → Bool
  | returned _ => true
  | _ => false

end Collector

/-! ### The executor -/

/-- An executor for one graph. -/
structure Executor where
  /-- The graph to execute. -/
  graph : Graph
  /-- The limit of each run. -/
  limit : Int
  /-- How many workers there are. -/
  workers : Nat
  /-- How many values wait in a channel at most. -/
  capacity : Nat
  workers_pos : 0 < workers
  capacity_pos : 0 < capacity

namespace Executor

/-- The executor of a batch under settings.  There are as many workers as the settings say, or as
the computer has processors if they do not say, and two values per worker wait in a channel. -/
def ofSettings (graph : Graph) (settings : Settings) (processors : Nat)
    (hprocessors : 0 < processors) : Executor where
  graph := graph
  limit := settings.withDefaults.stepLimit
  workers := if settings.workers ≤ 0 then processors else settings.workers.toNat
  capacity := 2 * if settings.workers ≤ 0 then processors else settings.workers.toNat
  workers_pos := by
    split <;> omega
  capacity_pos := by
    split <;> omega

/-- What all processes of an executor are doing. -/
structure State where
  feeder : Feeder
  /-- The report of the feeder waits for the collector. -/
  reported : Bool := false
  jobs : Channel Job := {}
  workers : List Worker
  results : Channel JobResult := {}
  collector : Collector := .collecting []

variable (exec : Executor)

/-- Every process at its beginning. -/
def start (inputs : List Inputs) : State where
  feeder := .handing (jobsOf inputs)
  workers := List.replicate exec.workers .waiting

/-- The result of a job, of which a number of blocks are executed at most. -/
def result (blocks : Nat) (job : Job) : JobResult :=
  .ofInputs blocks exec.graph exec.limit job.number job.inputs

/-- One process makes a move.  If it is a worker that starts a job, the step is marked with it.  A
worker whose run crashed makes no move. -/
inductive Step : Option Job → State → State → Prop
  /-- The feeder hands out a job. -/
  | hand {s : State} {job : Job} {rest : List Job} (hfeeder : s.feeder = .handing (job :: rest))
      (hroom : s.jobs.Accepts exec.capacity) :
      Step none s { s with
        feeder := .handing rest
        jobs := { s.jobs with queue := s.jobs.queue ++ [job] } }
  /-- The feeder reports that all jobs are handed out. -/
  | report {s : State} (hfeeder : s.feeder = .handing []) (hroom : s.reported = false) :
      Step none s { s with feeder := .closing, reported := true }
  /-- The feeder closes the channel of the jobs. -/
  | close {s : State} (hfeeder : s.feeder = .closing) (hopen : s.jobs.closed = false) :
      Step none s { s with feeder := .gone, jobs := { s.jobs with closed := true } }
  /-- A worker takes a job. -/
  | take {s : State} {before after : List Worker} {job : Job} {queue : List Job}
      (hworker : s.workers = before ++ .waiting :: after) (hjobs : s.jobs.queue = job :: queue) :
      Step (some job) s { s with
        jobs := { s.jobs with queue }
        workers := before ++ .running job 0 :: after }
  /-- A worker executes a block of a run that has not ended yet. -/
  | compute {s : State} {before after : List Worker} {job : Job} {blocks : Nat}
      (hworker : s.workers = before ++ .running job blocks :: after)
      (hrun : (exec.result blocks job).outcome = .unfinished) :
      Step none s { s with workers := before ++ .running job (blocks + 1) :: after }
  /-- A worker has come to the end of a run. -/
  | finish {s : State} {before after : List Worker} {job : Job} {blocks : Nat}
      (hworker : s.workers = before ++ .running job blocks :: after)
      (hrun : (exec.result blocks job).outcome.Ended) :
      Step none s { s with workers := before ++ .delivering (exec.result blocks job) :: after }
  /-- A worker delivers a result. -/
  | deliver {s : State} {before after : List Worker} {result : JobResult}
      (hworker : s.workers = before ++ .delivering result :: after)
      (hroom : s.results.Accepts exec.capacity) :
      Step none s { s with
        results := { s.results with queue := s.results.queue ++ [result] }
        workers := before ++ .waiting :: after }
  /-- A worker sees that there are no more jobs. -/
  | leave {s : State} {before after : List Worker}
      (hworker : s.workers = before ++ .waiting :: after) (hjobs : s.jobs.Drained) :
      Step none s { s with workers := before ++ .leaving :: after }
  /-- A worker goes. -/
  | depart {s : State} {before after : List Worker}
      (hworker : s.workers = before ++ .leaving :: after) :
      Step none s { s with workers := before ++ .gone :: after }
  /-- All workers are gone, and the channel of the results is closed. -/
  | closeResults {s : State} (hworkers : ∀ w ∈ s.workers, w = .gone)
      (hopen : s.results.closed = false) :
      Step none s { s with results := { s.results with closed := true } }
  /-- The collector receives a result. -/
  | collect {s : State} {received queue : List JobResult} {result : JobResult}
      (hcollector : s.collector = .collecting received)
      (hresults : s.results.queue = result :: queue) :
      Step none s { s with
        results := { s.results with queue }
        collector := .collecting (received ++ [result]) }
  /-- The collector sees that there are no more results. -/
  | drain {s : State} {received : List JobResult} (hcollector : s.collector = .collecting received)
      (hresults : s.results.Drained) : Step none s { s with collector := .settling received }
  /-- The collector takes the report of the feeder and returns the results, sorted by the numbers
  of their jobs. -/
  | settle {s : State} {received results : List JobResult}
      (hcollector : s.collector = .settling received) (hreport : s.reported = true)
      (hperm : results.Perm received) (hsorted : results.Pairwise (·.job ≤ ·.job)) :
      Step none s { s with reported := false, collector := .returned results }

/-- The executor has come to a state by the given steps. -/
inductive Run (inputs : List Inputs) : List (Option Job) → State → Prop
  | start : Run inputs [] (exec.start inputs)
  | step {trace : List (Option Job)} {s s' : State} {started : Option Job}
      (hrun : Run inputs trace s) (hstep : exec.Step started s s') :
      Run inputs (trace ++ [started]) s'

/-- Some process is about to send into a channel, or to close one, that is closed already. -/
def State.Misused (s : State) : Prop :=
  (s.feeder ≠ .gone ∧ s.jobs.closed = true) ∨
    ((∃ w ∈ s.workers, w ≠ .gone) ∧ s.results.closed = true)

end Executor

end BlockFlow
