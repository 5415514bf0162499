import Mathlib.Tactic.Common

/-!
One rank of a tensor-parallel group: its poison flags, and what an iteration and its
failures do to them. Errors are known by their class. What the device does is told by
the run of an iteration; the record of iterations is kept for the proofs alone.
-/

namespace Riley.TensorParallel

inductive CudaErrorStage
  | initialization
  | validation
  | create
  | prepare
  | launch
  | synchronize
  | query
  | record
  | copy
  | close
  deriving DecidableEq, Repr

inductive LlamaForwardError
  | plan
  /-- Whether the error names the place of execution. -/
  | weight (site : Bool)
  | cuda (source : CudaErrorStage)
  | embedding (source : CudaErrorStage)
  | invalidConfiguration
  | attentionBudgetExceeded
  | hostAllocation
  | invalidTokenCount
  | tokenOutOfRange
  | tokensNotUploaded
  | outputNotReady
  | poisoned
  | invalidDownloadLength
  | tracePlanMismatch
  | traceRequiresReferenceAttention
  | traceLayerUnavailable
  | lastTokenTraceLayerUnavailable
  | fullSequenceLayerStageTraceLayerUnavailable
  | cleanup
  | arithmeticOverflow
  deriving DecidableEq, Repr

inductive LlamaBatchExecutorError
  | metadata
  | forward (source : LlamaForwardError)
  | pagedKv
  | invalidConfiguration
  | unsupportedHeadDimension
  | invalidBatch
  | tokenOutOfRange
  | positionOutOfRange
  | cuda (source : CudaErrorStage)
  | hostAllocation
  | arithmeticOverflow
  | outputNotReady
  | poisoned
  | tensorParallelFollower (reason : String)
  | invalidDownloadLength
  | greedyLogitsNonFinite
  | invalidGreedyResult
  | cleanup
  deriving DecidableEq, Repr

def followerFailed (reason : String) : LlamaBatchExecutorError := .tensorParallelFollower reason

section Poison

def poisonForCudaError (poisoned : Bool) (source : CudaErrorStage) : Bool :=
  poisoned || decide (source ≠ .validation)

def poisonForForwardError (poisoned : Bool) : LlamaForwardError → Bool
  | .cuda source | .embedding source => poisonForCudaError poisoned source
  | .weight true | .invalidConfiguration | .arithmeticOverflow => true
  | _ => poisoned

/-- The two flags of an executor behind an error of a batch. -/
def poisonForBatchError (poisoned forwardPoisoned : Bool) (error : LlamaBatchExecutorError)
    (forwardGemmsPoisoned : Bool) : Bool × Bool :=
  match error with
  | .cuda source =>
      (poisonForCudaError poisoned source, poisonForCudaError forwardPoisoned source)
  | .forward source =>
      let forwardPoisoned := poisonForForwardError forwardPoisoned source
      (poisoned || (forwardPoisoned || forwardGemmsPoisoned), forwardPoisoned)
  | .invalidConfiguration | .arithmeticOverflow => (true, true)
  | _ => (poisoned, forwardPoisoned)

end Poison

inductive BatchDispatchDisposition
  | preDispatch
  | commandSubmissionStarted
  deriving DecidableEq, Repr

def BatchDispatchDisposition.mutationMayHaveOccurred : BatchDispatchDisposition → Bool
  | preDispatch => false
  | commandSubmissionStarted => true

inductive ExecutionCompletionImplementation
  | perOperation
  | iterationBatch
  deriving DecidableEq, Repr

/-- How much of an iteration a device has done, where it has done any. -/
inductive Touch
  | partly
  | whole
  deriving DecidableEq, Repr

/-- The iterations that a device has touched, oldest first. -/
abbrev History := List (Nat × Touch)

/-- What became of an iteration on a device: what it did, the error of the run, how far
the dispatch came, and the flags that the run has set. -/
structure DeviceRun where
  touch : Option Touch
  error : Option LlamaBatchExecutorError
  disposition : BatchDispatchDisposition
  forwardPoisoned : Bool
  gemmsPoisoned : Bool
  lmHeadPoisoned : Bool
  shapesPoisoned : Bool
  succeeds : error = none → touch = some .whole

structure Executor where
  /-- Whether the configuration asks for numerics that need an owned graph. -/
  ownedGraphNumerics : Bool
  completion : ExecutionCompletionImplementation
  poisoned : Bool
  forwardPoisoned : Bool
  gemmsPoisoned : Bool
  lmHeadPoisoned : Bool
  shapesPoisoned : Bool
  history : History
  deriving DecidableEq, Repr

namespace Executor

def isPoisoned (executor : Executor) : Bool :=
  executor.poisoned || executor.forwardPoisoned || executor.lmHeadPoisoned ||
    executor.shapesPoisoned

/-- The checks before any rank is given the rows. What packing and validating them says
comes from outside. -/
def admission (executor : Executor) (packs : Option LlamaBatchExecutorError) :
    Option LlamaBatchExecutorError :=
  if executor.ownedGraphNumerics then some .invalidConfiguration
  else if executor.isPoisoned then some .poisoned
  else packs

/-- The executor behind the device work of an iteration. -/
def ran (executor : Executor) (call : Nat) (run : DeviceRun) : Executor :=
  { executor with
    forwardPoisoned := executor.forwardPoisoned || run.forwardPoisoned
    gemmsPoisoned := executor.gemmsPoisoned || run.gemmsPoisoned
    lmHeadPoisoned := executor.lmHeadPoisoned || run.lmHeadPoisoned
    shapesPoisoned := executor.shapesPoisoned || run.shapesPoisoned
    history := executor.history ++ (run.touch.map fun touch => (call, touch)).toList }

def poison (executor : Executor) : Executor :=
  { executor with poisoned := true, forwardPoisoned := true }

/-- The executor behind an iteration that failed. -/
def failed (executor : Executor) (disposition : BatchDispatchDisposition)
    (error : LlamaBatchExecutorError) : Executor :=
  let mutated := decide (executor.completion = .iterationBatch) &&
    disposition.mutationMayHaveOccurred
  let flags := poisonForBatchError (executor.poisoned || mutated)
    (executor.forwardPoisoned || mutated) error (executor.gemmsPoisoned || executor.lmHeadPoisoned)
  { executor with
    poisoned := flags.1 || executor.shapesPoisoned
    forwardPoisoned := flags.2 }

/-- The end of an iteration, by its own result and that of the followers. -/
def conclude (executor : Executor) (disposition : BatchDispatchDisposition) :
    Option LlamaBatchExecutorError → Option LlamaBatchExecutorError →
      Executor × Option LlamaBatchExecutorError
  | none, none => (executor, none)
  | none, some error => (executor.poison.failed disposition error, some error)
  | some error, _ => (executor.failed disposition error, some error)

/-- A whole iteration on a rank that has no followers. -/
def executeOutput (executor : Executor) (call : Nat) (packs : Option LlamaBatchExecutorError)
    (run : DeviceRun) : Executor × Option LlamaBatchExecutorError :=
  match executor.admission packs with
  | some error => (executor, some error)
  | none => (executor.ran call run).conclude run.disposition run.error none

end Executor

end Riley.TensorParallel
