import BlockFlow.Machine.Basic

/-!
# Batches

A batch runs one graph once per set of inputs.  Every job has a machine of its own, so the jobs do
not depend on each other, and the results come in the order of the inputs.
-/

namespace BlockFlow

/-- The result of one job of a batch. -/
structure JobResult where
  /-- The number of the job: the place of its inputs. -/
  job : Nat
  /-- How the run ended. -/
  outcome : Outcome
  /-- How many blocks it counted. -/
  steps : Nat
deriving DecidableEq, Repr, Inhabited

namespace JobResult

/-- Runs one job on a machine of its own. -/
def ofInputs (fuel : Nat) (graph : Graph) (limit : Int) (job : Nat) (inputs : Inputs) :
    JobResult :=
  let (outcome, m, _) := (Machine.new graph limit inputs).run fuel none
  ⟨job, outcome, m.steps⟩

end JobResult

/-- Runs a graph once per set of inputs. -/
def runBatch (fuel : Nat) (graph : Graph) (limit : Int) (inputs : List Inputs) : List JobResult :=
  inputs.zipIdx.map fun (inputs, job) => JobResult.ofInputs fuel graph limit job inputs

end BlockFlow
