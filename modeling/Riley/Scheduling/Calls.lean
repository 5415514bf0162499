import Riley.Scheduling.Settle

/-!
The public operations of the scheduler.
-/

namespace Riley.Scheduling

open PagedKv Outcome

/-- Creates all bounded scheduler containers and the host paged-KV pool. -/
def Scheduler.new (cookie : Nat) (config : SchedulerConfig) (layout : KvLayout) :
    HostM Scheduler := do
  let config ← fromExcept config.validate
  rejectIf (layout.physicalBlockCount < config.maxPromisedKvBlocks)
    (.invalidConfiguration "max_promised_kv_blocks"
      "must not exceed the physical KV pool block count")
  let requestCapacity ← orReject
    (checkedAdd usizeMax config.maxWaitingRequests config.maxActiveSequences)
    (.arithmeticOverflow "live request capacity")
  forEach ["live requests", "waiting request queue", "terminal tombstones",
      "completion outbox"] tryReserveExact
  forEach ["pool_slots", "free_list"] fun resource =>
    hostReserve (.pagedKv (.hostAllocation resource))
  return {
    config := config
    pool := KvBlockPool.new cookie layout
    requests := []
    waiting := []
    terminal := []
    terminalCapacity := requestCapacity
    completionOutbox := []
    completionOutboxCapacity := requestCapacity
    activeSequences := 0
    waitingPromptTokens := 0
    promisedKvBlocks := 0
    nextRequestId := 1
    nextIterationId := 1
    lastNowNs := none
    agingOverrideLastIteration := false
    prefillPlateau := none
    atomicPrefillChunks := false
    prefillCoalescing := none
    prefillBurst := none
    prefixCache := none
    inflight := none
    accepting := true
    hostAnswers := [] }

def setAtomicPrefillChunks (enabled : Bool) : SchedulerM Unit := do
  let s ← get
  rejectIf (enabled ∧ s.prefillPlateau.isSome)
    (.invalidConfiguration "atomic_prefill_chunks"
      "cannot combine with a token-trimming plateau policy")
  set { s with atomicPrefillChunks := enabled }

/-- `policy.map(validate).transpose()` -/
def validated {α : Type} (validate : α → Except SchedulerError α) (policy : Option α) :
    Except SchedulerError (Option α) :=
  match policy with
  | none => .ok none
  | some policy => (validate policy).map some

def setPrefillPlateauPolicy (policy : Option PrefillPlateauPolicy) : SchedulerM Unit := do
  let s ← get
  rejectIf (s.atomicPrefillChunks ∧ policy.isSome)
    (.invalidConfiguration "prefill_plateau" "atomic prefill chunks cannot be trimmed")
  let policy ← fromExcept (validated (·.validate s.config.iterationTokenBudget) policy)
  set { s with prefillPlateau := policy }

def setPrefillCoalescingPolicy (policy : Option PrefillCoalescingPolicy) :
    SchedulerM Unit := do
  let s ← get
  let policy ← fromExcept (validated PrefillCoalescingPolicy.validate policy)
  set { s with prefillCoalescing := policy }

def setPrefillBurstPolicy (policy : Option PrefillBurstPolicy) : SchedulerM Unit := do
  let s ← get
  let policy ← fromExcept (validated (·.validate s.config.iterationTokenBudget) policy)
  set { s with prefillBurst := policy }

/-- Keeps up to `maxBlocks` full prompt blocks for later requests. -/
def enablePrefixCache (maxBlocks : Nat) : SchedulerM Unit := do
  let s ← get
  rejectIf (maxBlocks = 0 ∨ s.pool.layout.physicalBlockCount < maxBlocks)
    (.invalidConfiguration "prefix_cache.max_blocks"
      "must be positive and within the physical KV pool")
  rejectIf s.atomicPrefillChunks
    (.invalidConfiguration "prefix_cache"
      "atomic prefill chunks need the whole prompt executed")
  rejectIf (s.requests ≠ [])
    (.invalidConfiguration "prefix_cache" "must be enabled before the first request")
  let cache ← onHost (PrefixCache.new maxBlocks)
  modify fun s => { s with prefixCache := some cache }

def beginShutdown : SchedulerM Unit :=
  modify fun s => { s with accepting := false }

def popPendingCompletion : SchedulerM (Option RequestCompletion) := do
  let s ← get
  set { s with completionOutbox := s.completionOutbox.drop 1 }
  return s.completionOutbox.head?

/-- The record of a new request before it is admitted or queued. -/
def RequestRecord.new (requestId : RequestId) (descriptor : RequestDescriptor)
    (promisedKvBlocks nowNs : Nat) : RequestRecord where
  requestId := requestId
  descriptor := descriptor
  state := .waiting
  submittedAtNs := nowNs
  readySinceNs := nowNs
  prefillCursor := 0
  generatedTokenIds := []
  promisedKvBlocks := promisedKvBlocks
  sequence := none
  cancellationDeferred := false
  plateauDeferred := false
  cachedPromptTokens := 0
  prefixTip := none
  prefixLinked := true

/-- Puts a new request at the end of the waiting queue. -/
def enqueueWaiting (requestId : RequestId) (promptTokens : Nat) : SchedulerM Unit := do
  let s ← get
  let waitingPromptTokens ← orReject
    (checkedAdd usizeMax s.waitingPromptTokens promptTokens)
    (.arithmeticOverflow "waiting prompt tokens")
  set { s with
    waitingPromptTokens := waitingPromptTokens
    waiting := s.waiting ++ [requestId] }

/-- The part of `submit` after every check: the caller's ownership is accepted. -/
def acceptRequest (descriptor : RequestDescriptor)
    (maximumLogicalLength promisedKvBlocks : Nat) (canAdmit : Bool) (nowNs : Nat) :
    SchedulerM Submission := do
  onHost (tryReserveExact "scheduler-owned prompt tokens")
  let requestId ← peekRequestId
  onHost (tryReserveExact "request generated tokens")
  let record := RequestRecord.new requestId descriptor promisedKvBlocks nowNs
  if canAdmit then do
    let record ← admitRecord record maximumLogicalLength nowNs
    modify fun s => { s with requests := s.requests ++ [record] }
    advanceRequestId
    return ⟨requestId, .admitted⟩
  else do
    enqueueWaiting requestId descriptor.promptTokenIds.length
    modify fun s => { s with requests := s.requests ++ [record] }
    advanceRequestId
    return ⟨requestId, .waiting⟩

/-- Admits immediately when possible or enters the bounded FCFS queue. -/
def submit (descriptor : RequestDescriptor) (nowNs : Nat) : SchedulerM Submission := do
  ensureCompletionBacklogEmpty
  let s ← get
  rejectIf (s.accepting = false) .schedulerClosed
  observeNow nowNs
  let s ← get
  let maximumLogicalLength ← fromExcept (validateDescriptor s.config descriptor)
  let promisedKvBlocks := blocksForLength maximumLogicalLength
  rejectIf (s.config.maxPromisedKvBlocks < promisedKvBlocks)
    (.kvCapacityExceeded promisedKvBlocks s.config.maxPromisedKvBlocks)
  let canAdmit := s.waiting.isEmpty && s.canAdmit promisedKvBlocks
  rejectIf (canAdmit = false ∧ s.config.overloadPolicy = .rejectImmediately)
    (s.immediateOverloadError promisedKvBlocks)
  runIf (canAdmit = false) (validateWaitingCapacity descriptor.promptTokenIds.length)
  acceptRequest descriptor maximumLogicalLength promisedKvBlocks canAdmit nowNs

def markDeferred (deferred : List RequestId) (record : RequestRecord) : RequestRecord :=
  if record.requestId ∈ deferred then { record with plateauDeferred := true } else record

/-- Expires queued requests, admits FCFS work, and builds at most one plan. -/
def planIteration (nowNs : Nat) : SchedulerM PlanningOutput := do
  ensureCompletionBacklogEmpty
  observeNow nowNs
  ensureNoIterationInFlight
  let s ← get
  ensureCompletionCapacity s.waiting.length
  onHost (tryReserveExact "admission timeout completions")
  expireWaiting nowNs
  admitWaiting nowNs
  adoptCachedPrefixes
  let s ← get
  let (candidates, usedAgingOverride, plateauDeferred) ← onHost (s.selectCandidates nowNs)
  if candidates = [] then do
    modify fun s => { s with agingOverrideLastIteration := false }
    let completions ← drainCompletionOutbox
    return ⟨none, completions⟩
  else do
    let iterationId ← peekIterationId
    let plan ← preparePlan iterationId candidates nowNs
    advanceIterationId
    modify fun s => { s with
      agingOverrideLastIteration := usedAgingOverride
      requests := s.requests.map (markDeferred plateauDeferred) }
    let completions ← drainCompletionOutbox
    return ⟨some plan, completions⟩

def takeInflight : SchedulerM InflightPlan := do
  let inflight ← requireInflight
  modify fun s => { s with inflight := none }
  return inflight

/-- Commits one fully validated runtime result and routes outputs by slot. -/
def completeIteration (result : IterationResult) (nowNs : Nat) :
    SchedulerM IterationUpdates := do
  ensureCompletionBacklogEmpty
  validateNow nowNs
  validateIterationResult result
  let inflight ← requireInflight
  let _ ← orReject (checkedAdd usizeMax inflight.prefillCount inflight.decodeCount)
    (.arithmeticOverflow "completed iteration batch size")
  forEach ["iteration token events", "iteration completions",
      "iteration settlement failures"] fun resource => onHost (tryReserveExact resource)
  ensureCompletionCapacity inflight.items.length
  let settledItems ← prevalidateCompletionPublication result
  onHost (tryReserveExact "committed iteration items")
  modify fun s => { s with lastNowNs := some nowNs }
  let inflight ← takeInflight
  let (committed, failures) ← commitItems nowNs (inflight.items.zip settledItems)
  if failures ≠ [] then do
    let later ← failCommitted nowNs committed
    let completions ← drainCompletionOutbox
    return ⟨[], completions, failures ++ later⟩
  else do
    let (events, failures) ← publishItems nowNs committed
    let completions ← drainCompletionOutbox
    return ⟨events, completions, failures⟩

/-- Settles a plan that could not produce valid runtime feedback. -/
def abortIteration (iterationId : IterationId) (abort : ExecutionAbort) (nowNs : Nat) :
    SchedulerM IterationUpdates := do
  ensureCompletionBacklogEmpty
  validateNow nowNs
  let inflight ← requireInflight
  rejectIf (iterationId ≠ inflight.iterationId)
    (.unexpectedIteration inflight.iterationId iterationId)
  validateInflightReservations
  forEach ["aborted iteration completions", "aborted iteration settlement failures"]
    fun resource => onHost (tryReserveExact resource)
  ensureCompletionCapacity inflight.items.length
  modify fun s => { s with lastNowNs := some nowNs }
  let inflight ← takeInflight
  runIf (abort = .deviceQuiescedMutationUnknown) dropPrefixCacheEntries
  let failures ← abortItems abort nowNs inflight.items
  let completions ← drainCompletionOutbox
  return ⟨[], completions, failures⟩

def deferCancellation (record : RequestRecord) : RequestRecord :=
  { record with cancellationDeferred := true }

/-- Cancels queued or idle work immediately and defers in-flight reclamation. -/
def cancel (requestId : RequestId) (nowNs : Nat) : SchedulerM CancellationOutcome := do
  ensureCompletionBacklogEmpty
  observeNow nowNs
  let s ← get
  if s.terminal.any (·.requestId = requestId) then
    return ⟨requestId, false, true, none⟩
  else do
    let (index, record) ← requireRecord requestId
    if record.cancellationDeferred then
      return ⟨requestId, true, false, none⟩
    else if s.inflight.any fun plan =>
        plan.items.any fun item => item.requestId = requestId then do
      modifyRecord index deferCancellation
      return ⟨requestId, true, false, none⟩
    else do
      ensureCompletionCapacity 1
      finishLiveRequest requestId .cancelled nowNs
      let completion ← popPendingCompletion
      let completion ← orReject completion
        (.invalidPlan "completion outbox"
          "immediate cancellation did not enqueue its terminal payload")
      return ⟨requestId, false, false, some completion⟩

/-- One round of the shutdown loop over the last live request. -/
def cancelLast (nowNs : Nat) : SchedulerM Bool := do
  let s ← get
  match s.requests.getLast? with
  | none => return false
  | some record => do
      finishLiveRequest record.requestId .cancelled nowNs
      return true

/-- Closes every non-in-flight request, normally during server shutdown. -/
def shutdown (nowNs : Nat) : SchedulerM (List RequestCompletion) := do
  beginShutdown
  ensureCompletionBacklogEmpty
  observeNow nowNs
  ensureNoIterationInFlight
  onHost (tryReserveExact "shutdown completions")
  let s ← get
  ensureCompletionCapacity s.requests.length
  repeatWhile s.requests.length (cancelLast nowNs)
  dropPrefixCacheEntries
  drainCompletionOutbox

/-- A failed close: its error and the failures contained before it. -/
structure SchedulerCloseFailure where
  error : SchedulerError
  settlementFailures : List RequestSettlementFailure
  deriving DecidableEq

abbrev CloseM := EStateM SchedulerCloseFailure Scheduler

/-- Hands the terminal notifications collected so far back to the outbox. -/
def closeFailure {α : Type} (error : SchedulerError) (recovered : List RequestCompletion)
    (settlementFailures : List RequestSettlementFailure) : CloseM α := do
  modify fun s => { s with completionOutbox := recovered ++ s.completionOutbox }
  throw ⟨error, settlementFailures⟩

/-- Runs a step of `close` that fails before anything was collected. -/
def orCloseFailure {α : Type} (action : SchedulerM α) : CloseM α := do
  match ← attempt action with
  | .ok a => return a
  | .error error => throw ⟨error, []⟩

/-- Settles the outstanding plan of a scheduler that closes. -/
def closeInflight (nowNs : Nat) (inflightAbort : Option ExecutionAbort)
    (completions : List RequestCompletion) :
    CloseM (List RequestCompletion × List RequestSettlementFailure) := do
  let s ← get
  match s.inflight with
  | none => return (completions, [])
  | some plan =>
      match inflightAbort with
      | none => closeFailure (.closeDispositionRequired plan.iterationId) completions []
      | some abort => do
          match ← attempt (abortIteration plan.iterationId abort nowNs) with
          | .error error => closeFailure error completions []
          | .ok updates =>
              return (completions ++ updates.completions, updates.settlementFailures)

/-- Whether anything that the scheduler owned is left. -/
def Scheduler.closedCleanly (s : Scheduler) : Bool :=
  s.pool.allocatedBlockCount = 0 && s.activeSequences = 0 && s.promisedKvBlocks = 0 &&
    s.waitingPromptTokens = 0 && s.requests.isEmpty && s.waiting.isEmpty &&
    s.completionOutbox.isEmpty && s.inflight.isNone

/-- Permanently stops admission, settles any outstanding plan and closes every
sequence. -/
def close (nowNs : Nat) (inflightAbort : Option ExecutionAbort) :
    CloseM SchedulerCloseOutput := do
  orCloseFailure beginShutdown
  orCloseFailure (validateNow nowNs)
  let s ← get
  let _ ← orCloseFailure (orReject
    (checkedAdd usizeMax s.completionOutbox.length s.requests.length)
    (.arithmeticOverflow "close completion capacity"))
  orCloseFailure (onHost (tryReserveExact "close completions"))
  let drained ← orCloseFailure drainCompletionOutbox
  modify fun s => { s with lastNowNs := some nowNs }
  let (completions, failures) ← closeInflight nowNs inflightAbort drained
  match ← attempt (shutdown nowNs) with
  | .error error => closeFailure error completions failures
  | .ok remaining => do
      let completions := completions ++ remaining
      let s ← get
      if s.closedCleanly = false then
        closeFailure (.invalidPlan "close cleanup"
          "successful shutdown left live ownership or pending notifications")
          completions failures
      else
        match ← attempt (onHost (tryReserveExact "metric percentile scratch")) with
        | .error error => closeFailure error completions failures
        | .ok () => return ⟨completions, failures⟩

end Riley.Scheduling
