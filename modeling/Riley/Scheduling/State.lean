import Riley.Scheduling.Plan
import Riley.Scheduling.PrefixCache

/-!
The state of the scheduler: request records, the waiting queue, the in-flight
plan, the completion outbox and the incrementally maintained counters.
Metrics, gauges and the measured CPU time of an iteration are left out.
`hostAnswers` are the answers that the host allocator will give to the
current call; an exhausted list answers yes.
-/

namespace Riley.Scheduling

open PagedKv Outcome

/-- Model-token input and bounded output capacity for one request. -/
structure RequestDescriptor where
  promptTokenIds : List TokenId
  maxNewTokens : Nat
  deriving DecidableEq, Repr

inductive RequestState where
  | waiting
  | admitted
  | prefilling
  | decoding
  | finished
  | cancelled
  | failed
  deriving DecidableEq, Repr

def RequestState.name : RequestState → String
  | waiting => "Waiting"
  | admitted => "Admitted"
  | prefilling => "Prefilling"
  | decoding => "Decoding"
  | finished => "Finished"
  | cancelled => "Cancelled"
  | failed => "Failed"

/-- Why a request left the bounded scheduler state. -/
inductive RequestFinishReason where
  | length
  | stop
  | cancelled
  | admissionTimeout
  | executorFailure
  deriving DecidableEq, Repr

def RequestFinishReason.state : RequestFinishReason → RequestState
  | length | stop => .finished
  | cancelled => .cancelled
  | admissionTimeout | executorFailure => .failed

/-- Terminal request payload returned directly to the caller. -/
structure RequestCompletion where
  requestId : RequestId
  reason : RequestFinishReason
  generatedTokenIds : List TokenId
  cachedPromptTokens : Nat
  completedAtNs : Nat
  deriving DecidableEq

/-- One accepted runtime token routed back to its request. -/
structure TokenEvent where
  requestId : RequestId
  tokenId : TokenId
  generatedIndex : Nat
  deriving DecidableEq

structure Submission where
  requestId : RequestId
  state : RequestState
  deriving DecidableEq

structure PlanningOutput where
  plan : Option IterationPlan
  completions : List RequestCompletion
  deriving DecidableEq

/-- One request-scoped ownership failure contained while settling. -/
structure RequestSettlementFailure where
  requestId : RequestId
  error : SchedulerError
  deriving DecidableEq

/-- Tokens and terminal requests produced when an iteration settles. -/
structure IterationUpdates where
  tokenEvents : List TokenEvent
  completions : List RequestCompletion
  settlementFailures : List RequestSettlementFailure
  deriving DecidableEq

structure SchedulerCloseOutput where
  completions : List RequestCompletion
  settlementFailures : List RequestSettlementFailure
  deriving DecidableEq

/-- Whether a failed execution touched the device-visible reserved ranges. -/
inductive ExecutionAbort where
  | notDispatched
  | deviceQuiescedMutationUnknown
  deriving DecidableEq, Repr

structure CancellationOutcome where
  requestId : RequestId
  deferredUntilIterationSettles : Bool
  alreadyTerminal : Bool
  completion : Option RequestCompletion
  deriving DecidableEq

structure RequestRecord where
  requestId : RequestId
  descriptor : RequestDescriptor
  state : RequestState
  submittedAtNs : Nat
  readySinceNs : Nat
  prefillCursor : Nat
  generatedTokenIds : List TokenId
  promisedKvBlocks : Nat
  sequence : Option SequenceState
  cancellationDeferred : Bool
  plateauDeferred : Bool
  cachedPromptTokens : Nat
  /-- Index entry of the sequence's last shared block. -/
  prefixTip : Option EntryId
  /-- False once `prefixTip` stops being a place to continue from. -/
  prefixLinked : Bool
  deriving DecidableEq

namespace RequestRecord

def prompt (record : RequestRecord) : List TokenId := record.descriptor.promptTokenIds

end RequestRecord

structure TerminalTombstone where
  requestId : RequestId
  state : RequestState
  deriving DecidableEq

structure InflightItem where
  requestId : RequestId
  kind : WorkKind
  targetLogicalLength : Nat
  outputSlot : Option OutputSlot
  previousState : RequestState
  previousReadySinceNs : Nat
  reservation : SequenceReservation
  deriving DecidableEq

structure InflightPlan where
  iterationId : IterationId
  prefillTokens : Nat
  decodeTokens : Nat
  prefillCount : Nat
  decodeCount : Nat
  expectedOutputSlots : List OutputSlot
  items : List InflightItem
  deriving DecidableEq

structure SettledInflightItem where
  requestId : RequestId
  kind : WorkKind
  targetLogicalLength : Nat
  output : Option IterationOutput
  deriving DecidableEq

/-- Bounded, deterministic scheduler and sole owner of host paged-KV state. -/
structure Scheduler where
  config : SchedulerConfig
  pool : KvBlockPool
  requests : List RequestRecord
  waiting : List RequestId
  terminal : List TerminalTombstone
  terminalCapacity : Nat
  completionOutbox : List RequestCompletion
  completionOutboxCapacity : Nat
  activeSequences : Nat
  waitingPromptTokens : Nat
  promisedKvBlocks : Nat
  nextRequestId : Nat
  nextIterationId : Nat
  lastNowNs : Option Nat
  agingOverrideLastIteration : Bool
  prefillPlateau : Option PrefillPlateauPolicy
  atomicPrefillChunks : Bool
  prefillCoalescing : Option PrefillCoalescingPolicy
  prefillBurst : Option PrefillBurstPolicy
  prefixCache : Option PrefixCache
  inflight : Option InflightPlan
  accepting : Bool
  hostAnswers : List Bool

abbrev SchedulerM := EStateM SchedulerError Scheduler

/-- An action that only asks the host allocator. -/
def onHost {α : Type} (action : HostM α) : SchedulerM α :=
  zoom Scheduler.hostAnswers (fun host s => { s with hostAnswers := host }) id action

/-- A read-only operation of the paged KV cache. -/
def fromKv {α : Type} (value : Except PagedKvError α) : SchedulerM α :=
  fromExcept (value.mapError .pagedKv)

/-- An operation of the prefix cache on the pool of the scheduler. -/
def onCache {α : Type} (cache : PrefixCache) (action : CacheM α) : SchedulerM α :=
  zoom (fun s => CacheState.mk cache s.pool)
    (fun state s => { s with prefixCache := some state.cache, pool := state.pool }) id
    action

def withSequence (sequence : Option SequenceState) (record : RequestRecord) :
    RequestRecord :=
  { record with sequence := sequence }

namespace Scheduler

def modifyRecordAt (index : Nat) (f : RequestRecord → RequestRecord) (s : Scheduler) :
    Scheduler :=
  { s with requests := s.requests.modify index f }

end Scheduler

/-- `self.requests[index]` followed by an assignment through it. -/
def modifyRecord (index : Nat) (f : RequestRecord → RequestRecord) : SchedulerM Unit :=
  modify (Scheduler.modifyRecordAt index f)

/-- An operation of the sequence of the record at `index`. -/
def onSequence {α : Type} (index : Nat) (sequence : SequenceState) (action : KvM α) :
    SchedulerM α :=
  zoom (fun s => KvState.mk sequence s.pool)
    (fun state s =>
      Scheduler.modifyRecordAt index (withSequence (some state.seq))
        { s with pool := state.pool })
    .pagedKv action

namespace Scheduler

def recordIndex (s : Scheduler) (requestId : RequestId) : Option Nat :=
  s.requests.findIdx? (·.requestId = requestId)

/-- The position of a live request and its record. -/
def lookup (s : Scheduler) (requestId : RequestId) : Option (Nat × RequestRecord) :=
  (s.recordIndex requestId).bind fun index =>
    (s.requests[index]?).map fun record => (index, record)

def canAdmit (s : Scheduler) (requestedBlocks : Nat) : Bool :=
  s.activeSequences < s.config.maxActiveSequences &&
    (checkedAdd usizeMax s.promisedKvBlocks requestedBlocks).any
      (· ≤ s.config.maxPromisedKvBlocks)

def immediateOverloadError (s : Scheduler) (requestedBlocks : Nat) : SchedulerError :=
  if s.config.maxActiveSequences ≤ s.activeSequences then
    .activeSequenceLimit s.config.maxActiveSequences
  else
    .kvCapacityExceeded requestedBlocks
      (s.config.maxPromisedKvBlocks - s.promisedKvBlocks)

/-- `Vec::swap_remove`: the last record takes the place of the removed one. -/
def swapRemove (index : Nat) (requests : List RequestRecord) : List RequestRecord :=
  match requests.getLast? with
  | none => []
  | some last => (requests.set index last).dropLast

end Scheduler

def validTransition (source target : RequestState) : Bool :=
  source = target ||
    match source, target with
    | .waiting, .admitted | .waiting, .cancelled | .waiting, .failed => true
    | .admitted, .prefilling | .admitted, .cancelled | .admitted, .failed => true
    | .prefilling, .decoding | .prefilling, .finished | .prefilling, .cancelled
    | .prefilling, .failed => true
    | .decoding, .finished | .decoding, .cancelled | .decoding, .failed => true
    | .cancelled, .failed => true
    | _, _ => false

def invalidTransition (requestId : RequestId) (source target : RequestState) :
    SchedulerError :=
  .invalidStateTransition requestId source.name target.name

def maximumLogicalLength (descriptor : RequestDescriptor) : Except SchedulerError Nat :=
  match checkedAdd usizeMax descriptor.promptTokenIds.length
      (descriptor.maxNewTokens - 1) with
  | some maximum => .ok maximum
  | none => .error (.arithmeticOverflow "request maximum logical length")

def validateDescriptor (config : SchedulerConfig) (descriptor : RequestDescriptor) :
    Except SchedulerError Nat :=
  if descriptor.promptTokenIds = [] then
    .error (.invalidConfiguration "prompt_token_ids" "must contain at least one token")
  else if descriptor.maxNewTokens = 0 then
    .error (.invalidConfiguration "max_new_tokens" "must be greater than zero")
  else do
    let maximum ← maximumLogicalLength descriptor
    if config.maxSequenceTokens < maximum then
      .error (.sequenceTokenLimit config.maxSequenceTokens maximum)
    else
      .ok maximum

section Checks

def validateNow (nowNs : Nat) : SchedulerM Unit := do
  let s ← get
  match s.lastNowNs with
  | none => pure ()
  | some previousNs => rejectIf (nowNs < previousNs) (.clockRegression previousNs nowNs)

def observeNow (nowNs : Nat) : SchedulerM Unit := do
  validateNow nowNs
  modify fun s => { s with lastNowNs := some nowNs }

def ensureCompletionBacklogEmpty : SchedulerM Unit := do
  let s ← get
  rejectIf (s.completionOutbox ≠ []) (.pendingCompletions s.completionOutbox.length)

def ensureCompletionCapacity (needed : Nat) : SchedulerM Unit := do
  let s ← get
  let total ← orReject (checkedAdd usizeMax s.completionOutbox.length needed)
    (.arithmeticOverflow "completion backlog size")
  rejectIf (s.completionOutboxCapacity < total)
    (.completionBacklogCapacity s.completionOutboxCapacity s.completionOutbox.length needed)

def ensureNoIterationInFlight : SchedulerM Unit := do
  let s ← get
  match s.inflight with
  | none => pure ()
  | some inflight => throw (.iterationInFlight inflight.iterationId)

def validateWaitingCapacity (promptTokens : Nat) : SchedulerM Unit := do
  let s ← get
  rejectIf (s.config.maxWaitingRequests ≤ s.waiting.length)
    (.waitingQueueFull s.config.maxWaitingRequests)
  let requested ← orReject (checkedAdd usizeMax s.waitingPromptTokens promptTokens)
    (.arithmeticOverflow "waiting prompt token admission")
  rejectIf (s.config.maxWaitingPromptTokens < requested)
    (.waitingTokenLimit s.config.maxWaitingPromptTokens requested)

/-- The next request identifier; the one after it must still exist. -/
def peekRequestId : SchedulerM RequestId := do
  let s ← get
  let _ ← orReject (checkedAdd u64Max s.nextRequestId 1) (.identifierExhausted "request")
  orReject (RequestId.new s.nextRequestId) (.identifierExhausted "request")

def advanceRequestId : SchedulerM Unit := do
  let s ← get
  let next ← orReject (checkedAdd u64Max s.nextRequestId 1)
    (.identifierExhausted "request")
  set { s with nextRequestId := next }

def peekIterationId : SchedulerM IterationId := do
  let s ← get
  let _ ← orReject (checkedAdd u64Max s.nextIterationId 1)
    (.identifierExhausted "iteration")
  orReject (IterationId.new s.nextIterationId) (.identifierExhausted "iteration")

def advanceIterationId : SchedulerM Unit := do
  let s ← get
  let next ← orReject (checkedAdd u64Max s.nextIterationId 1)
    (.identifierExhausted "iteration")
  set { s with nextIterationId := next }

def drainCompletionOutbox : SchedulerM (List RequestCompletion) := do
  let s ← get
  set { s with completionOutbox := [] }
  return s.completionOutbox

/-- Keeps the most recent terminal states, up to the fixed capacity. -/
def rememberTerminal (requestId : RequestId) (state : RequestState) : SchedulerM Unit :=
  modify fun s =>
    let kept :=
      if s.terminal.length = s.terminalCapacity then s.terminal.drop 1 else s.terminal
    { s with terminal := kept ++ [⟨requestId, state⟩] }

end Checks

end Riley.Scheduling
