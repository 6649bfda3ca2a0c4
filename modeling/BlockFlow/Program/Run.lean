import BlockFlow.Log.Record
import BlockFlow.Machine.Batch
import BlockFlow.Program.Basic

/-!
# Running programs

A program that was lowered can be run under settings, once with the inputs of the settings, or as a
batch with inputs of its own for every job.  Unset settings are filled in first, and the report of a
run holds the settings it was run under.  A record is made of a run that ended with a value, and of
every batch.
-/

namespace BlockFlow

/-- The diagnostic of a run without a value. -/
def RunError.report (e : RunError) : String :=
  "runtime error: " ++ e.message

/-- What became of a run. -/
structure RunReport where
  /-- How the run ended. -/
  outcome : Outcome
  /-- The settings it was run under. -/
  settings : Settings
  /-- The records it left behind. -/
  records : List LogRecord
deriving DecidableEq, Inhabited

/-- What became of a batch. -/
structure BatchReport where
  /-- The results of the jobs, in the order of their inputs. -/
  results : List JobResult
  /-- The settings it was run under. -/
  settings : Settings
  /-- The records it left behind. -/
  records : List LogRecord
deriving DecidableEq, Inhabited

namespace BatchReport

/-- How many jobs have no value. -/
def failures (results : List JobResult) : Nat :=
  results.countP fun r => r.outcome.error?.isSome

end BatchReport

namespace Program

/-- The records of a run: one for a run with a value. -/
def runRecords (outcome : Outcome) (steps : Nat) : List LogRecord :=
  match outcome with
  | .finished value =>
    [.debug "run finished" [⟨"result", .number value.toInt⟩, ⟨"steps", .number steps⟩]]
  | _ => []

/-- Runs a program with the inputs of the settings.  A program that was only parsed has no run. -/
def run (p : Program) (settings : Settings) (polls : Machine.Polls) : Option RunReport :=
  p.graph?.map fun graph =>
    let settings := settings.withDefaults
    let m := Machine.new graph settings.stepLimit settings.inputs
    let (outcome, m, _) := m.run Machine.enough polls
    ⟨outcome, settings, runRecords outcome m.steps⟩

/-- Runs a program once per set of inputs; those of the settings are not used.  A program that was
only parsed has no run.  How many workers the settings ask for is not seen in the report: the jobs
have these results however they are shared out (`Executor.Run.returned_eq_results`). -/
def runBatch (p : Program) (settings : Settings) (inputs : List Inputs) : Option BatchReport :=
  p.graph?.map fun graph =>
    let settings := settings.withDefaults
    let results := BlockFlow.runBatch Machine.enough graph settings.stepLimit inputs
    ⟨results, settings, [.debug "batch finished"
      [⟨"runs", .number results.length⟩, ⟨"failed", .number (BatchReport.failures results)⟩]]⟩

end Program

end BlockFlow
