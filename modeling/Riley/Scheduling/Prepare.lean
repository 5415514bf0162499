import Riley.Scheduling.Lifecycle
import Riley.Scheduling.Select

/-!
Building one immutable plan: the payload of every candidate, one KV
reservation for each of them, the validated plan, and the rollback of
everything reserved when a later step fails.
-/

namespace Riley.Scheduling

open PagedKv Outcome

structure CandidatePayload where
  candidate : Candidate
  inputTokens : List TokenId
  targetLogicalLength : Nat
  outputSlot : Option OutputSlot
  deriving DecidableEq

/-- `copy_tokens`: an exact copy of the tokens. -/
def copyTokens (tokens : List TokenId) (resource : String) : SchedulerM (List TokenId) := do
  onHost (tryReserveExact resource)
  return tokens

/-- The input of a candidate, its target length and whether it needs output. -/
def payloadOf (candidate : Candidate) (record : RequestRecord) :
    SchedulerM (List TokenId × Nat × Bool) :=
  match candidate.kind with
  | .prefill => do
      let stop ← orReject (checkedAdd usizeMax record.prefillCursor candidate.tokenCount)
        (.arithmeticOverflow "prefill cursor")
      rejectIf (record.prompt.length < stop)
        (.invalidPlan "prefill range" "candidate exceeds the retained prompt")
      let input ← copyTokens
        ((record.prompt.take stop).drop record.prefillCursor) "prefill input tokens"
      return (input, stop, stop = record.prompt.length)
  | .decode => do
      let token ← orReject record.generatedTokenIds.getLast?
        (.invalidPlan "decode token" "decoding request has no prior generated token")
      let sequence ← orReject record.sequence
        (.invalidPlan "sequence" "decode candidate has no KV sequence")
      let target ← orReject (checkedAdd usizeMax sequence.logicalLength 1)
        (.arithmeticOverflow "decode target logical length")
      let input ← copyTokens [token] "decode input token"
      return (input, target, true)

/-- The payloads of the candidates, with slots numbered from `slots`. -/
def buildPayloads : Nat → List Candidate → SchedulerM (List CandidatePayload × Nat)
  | slots, [] => return ([], slots)
  | slots, candidate :: rest => do
      let (_, record) ← requireRecord candidate.requestId
      let (inputTokens, targetLogicalLength, needsOutput) ← payloadOf candidate record
      rejectIf (needsOutput ∧ u32Max < slots) (.arithmeticOverflow "iteration output slot")
      let payload : CandidatePayload :=
        ⟨candidate, inputTokens, targetLogicalLength,
          if needsOutput then some slots else none⟩
      let (payloads, slots) ← buildPayloads (if needsOutput then slots + 1 else slots) rest
      return (payload :: payloads, slots)

/-- One round of the eviction loop; answers whether to go on. -/
def evictForRoom (neededBlocks : Nat) : SchedulerM Bool := do
  let s ← get
  match s.prefixCache with
  | none => return false
  | some cache =>
      if s.pool.freeBlockCount < neededBlocks then
        onCache cache PrefixCache.evictOne
      else
        return false

/-- Makes room and reserves the KV blocks of one payload. -/
def reservePayload (payload : CandidatePayload) : SchedulerM InflightItem := do
  let (index, record) ← requireRecord payload.candidate.requestId
  let sequence ← orReject record.sequence
    (.invalidPlan "sequence" "active candidate has no KV sequence")
  let s ← get
  repeatWhile s.pool.slots.length
    (evictForRoom (sequence.additionalBlocksFor payload.targetLogicalLength))
  let reservation ←
    onSequence index sequence (SequenceState.reserveTo payload.targetLogicalLength)
  return {
    requestId := payload.candidate.requestId
    kind := payload.candidate.kind
    targetLogicalLength := payload.targetLogicalLength
    outputSlot := payload.outputSlot
    previousState := record.state
    previousReadySinceNs := record.readySinceNs
    reservation := reservation }

/-- The transport table and the work item of a reserved payload. -/
def transportPayload (payload : CandidatePayload) (item : InflightItem)
    (tableIndex : Nat) : SchedulerM (OwnedBlockTable × WorkItem) := do
  let (_, record) ← requireRecord item.requestId
  let sequence ← orReject record.sequence
    (.invalidPlan "sequence" "reserved candidate has no KV sequence")
  let view ← fromKv (sequence.reservedBlockTable item.reservation)
  let table ← onHost (OwnedBlockTable.copyFromV1 item.requestId view)
  let workItem ← fromExcept (WorkItem.new item.requestId item.kind payload.inputTokens
    payload.targetLogicalLength tableIndex payload.outputSlot)
  return (table, workItem)

/-- The outcome of settling prepared items; a later failure does not stop the
earlier reservations from being rolled back. -/
def rollbackItems : List InflightItem → Option SchedulerError →
    SchedulerM (Option SchedulerError)
  | [], cleanupError => return cleanupError
  | item :: rest, cleanupError => do
      match ← attempt (settleReservation item.requestId item.reservation .rollback) with
      | .error error => rollbackItems rest (cleanupError.orElse fun _ => some error)
      | .ok () => do
          let s ← get
          match s.recordIndex item.requestId with
          | none => rollbackItems rest cleanupError
          | some index => do
              modifyRecord index fun record => { record with
                state := item.previousState
                readySinceNs := item.previousReadySinceNs }
              rollbackItems rest cleanupError

def rollbackPreparedPlan {α : Type} (items : List InflightItem)
    (original : SchedulerError) : SchedulerM α := do
  let cleanupError ← rollbackItems items.reverse none
  throw (cleanupError.getD original)

structure Prepared where
  inflightItems : List InflightItem
  blockTables : List OwnedBlockTable
  workItems : List WorkItem

def reservePayloads : Prepared → List CandidatePayload → SchedulerM Prepared
  | prepared, [] => return prepared
  | prepared, payload :: rest => do
      match ← attempt (reservePayload payload) with
      | .error error => rollbackPreparedPlan prepared.inflightItems error
      | .ok item => do
          let items := prepared.inflightItems ++ [item]
          match ← attempt (transportPayload payload item prepared.blockTables.length) with
          | .error error => rollbackPreparedPlan items error
          | .ok (table, workItem) =>
              reservePayloads
                ⟨items, prepared.blockTables ++ [table], prepared.workItems ++ [workItem]⟩
                rest

/-- Runs a step of `prepare_plan` and rolls everything back when it fails. -/
def orRollback {α : Type} (items : List InflightItem) (action : SchedulerM α) :
    SchedulerM α := do
  match ← attempt action with
  | .ok a => return a
  | .error error => rollbackPreparedPlan items error

/-- `try_fold(0, checked_add)` over the input lengths of the items. -/
def checkedTokenCount : Nat → List WorkItem → Option Nat
  | count, [] => some count
  | count, item :: rest =>
      match checkedAdd usizeMax count item.inputTokens.length with
      | none => none
      | some count => checkedTokenCount count rest

/-- The state of a request whose work of this kind is in flight. -/
def WorkKind.state : WorkKind → RequestState
  | .prefill => .prefilling
  | .decode => .decoding

/-- Checks the transition of every in-flight request before any is made. -/
def checkTransitions : List InflightItem → SchedulerM (List Nat)
  | [] => return []
  | item :: rest => do
      let (index, record) ← requireRecord item.requestId
      rejectIf (validTransition record.state item.kind.state = false)
        (invalidTransition item.requestId record.state item.kind.state)
      let indices ← checkTransitions rest
      return index :: indices

def started (kind : WorkKind) (nowNs : Nat) (record : RequestRecord) : RequestRecord :=
  { record with state := kind.state, readySinceNs := nowNs }

def startItems (nowNs : Nat) (items : List (InflightItem × Nat)) : SchedulerM Unit :=
  forEach items fun item => modifyRecord item.2 (started item.1.kind nowNs)

def reservePlanBuffers : SchedulerM Unit :=
  forEach ["prefill plan items", "decode plan items", "iteration block tables",
      "in-flight reservations", "expected output slots", "candidate payloads",
      "request transition indices"]
    fun resource => onHost (tryReserveExact resource)

/-- The last part of `prepare_plan`, once everything is reserved. -/
def dispatchPlan (iterationId : IterationId) (prepared : Prepared) (slots nowNs : Nat) :
    SchedulerM IterationPlan := do
  let prefillItems := prepared.workItems.filter (·.kind = .prefill)
  let decodeItems := prepared.workItems.filter (·.kind = .decode)
  let items := prepared.inflightItems
  let plan ← orRollback items
    (onHost (IterationPlan.new iterationId prefillItems decodeItems prepared.blockTables))
  let prefillTokens ← orRollback items (orReject (checkedTokenCount 0 plan.prefillItems)
    (.arithmeticOverflow "prefill plan token count"))
  let decodeTokens ← orRollback items (orReject (checkedTokenCount 0 plan.decodeItems)
    (.arithmeticOverflow "decode plan token count"))
  let indices ← orRollback items (checkTransitions items)
  startItems nowNs (items.zip indices)
  modify fun s => { s with inflight := some {
    iterationId := iterationId
    prefillTokens := prefillTokens
    decodeTokens := decodeTokens
    prefillCount := plan.prefillItems.length
    decodeCount := plan.decodeItems.length
    expectedOutputSlots := List.range slots
    items := items } }
  return plan

def preparePlan (iterationId : IterationId) (candidates : List Candidate)
    (nowNs : Nat) : SchedulerM IterationPlan := do
  reservePlanBuffers
  let (payloads, slots) ← buildPayloads 0 candidates
  let prepared ← reservePayloads ⟨[], [], []⟩ payloads
  dispatchPlan iterationId prepared slots nowNs

end Riley.Scheduling
