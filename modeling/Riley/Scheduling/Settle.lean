import Riley.Scheduling.Prepare

/-!
Settling the in-flight iteration: validating the runtime's feedback, then
committing, publishing or giving up what the plan reserved.
-/

namespace Riley.Scheduling

open PagedKv Outcome

def requireInflight : SchedulerM InflightPlan := do
  let s ← get
  orReject s.inflight .noIterationInFlight

def validateIterationResult (result : IterationResult) : SchedulerM Unit := do
  let inflight ← requireInflight
  rejectIf (result.iterationId ≠ inflight.iterationId)
    (.unexpectedIteration inflight.iterationId result.iterationId)
  rejectIf (result.outputs.length ≠ inflight.expectedOutputSlots.length)
    (.invalidIterationResult "outputs"
      "runtime must return exactly every planned output slot")
  rejectIf (inflight.expectedOutputSlots.any fun expected =>
      !result.outputs.any fun output => output.slot = expected)
    (.invalidIterationResult "outputs" "runtime omitted a planned output slot")
  rejectIf (result.outputs.any fun output => output.slot ∉ inflight.expectedOutputSlots)
    (.invalidIterationResult "outputs" "runtime returned an unplanned output slot")

/-- The reserved table of an in-flight item must still have its target length. -/
def checkReservedTable (item : InflightItem) (record : RequestRecord)
    (missing : String) : SchedulerM Unit := do
  let sequence ← orReject record.sequence (.invalidPlan "sequence" missing)
  let table ← fromKv (sequence.reservedBlockTable item.reservation)
  rejectIf (table.logicalLength ≠ item.targetLogicalLength)
    (.invalidPlan "target_logical_length"
      "reserved KV table differs from the in-flight work target")

def validateInflightReservations : SchedulerM Unit := do
  let inflight ← requireInflight
  forEach inflight.items fun item => do
    let (_, record) ← requireRecord item.requestId
    checkReservedTable item record "in-flight reservation owner has no KV sequence"

/-- The output that a runtime result routes to an item. -/
def outputOf (result : IterationResult) (item : InflightItem) :
    Except SchedulerError (Option IterationOutput) :=
  match item.outputSlot with
  | none => .ok none
  | some slot =>
      match result.outputs.find? (·.slot = slot) with
      | some output => .ok (some output)
      | none => .error (.invalidIterationResult "outputs" "validated output slot disappeared")

/-- The state that publishing an item will move its request to. -/
def targetStateOf (record : RequestRecord) (output : Option IterationOutput) :
    Except SchedulerError RequestState :=
  if record.cancellationDeferred then
    .ok .cancelled
  else
    match output with
    | none => .ok .prefilling
    | some output =>
        match checkedAdd usizeMax record.generatedTokenIds.length 1 with
        | none => .error (.arithmeticOverflow "generated token count")
        | some generatedTokens =>
            if record.descriptor.maxNewTokens < generatedTokens then
              .error (.invalidPlan "generated token count"
                "runtime output exceeds the request generation bound")
            else if output.stop ∨ generatedTokens = record.descriptor.maxNewTokens then
              .ok .finished
            else
              .ok .decoding

def prevalidateItem (result : IterationResult) (item : InflightItem) :
    SchedulerM SettledInflightItem := do
  rejectIf (item.reservation.targetLogicalLength ≠ item.targetLogicalLength)
    (.invalidPlan "target_logical_length"
      "reservation target differs from the in-flight work target")
  let (_, record) ← requireRecord item.requestId
  checkReservedTable item record "in-flight request has no KV sequence"
  let output ← fromExcept (outputOf result item)
  let target ← fromExcept (targetStateOf record output)
  rejectIf (validTransition record.state target = false)
    (invalidTransition item.requestId record.state target)
  return ⟨item.requestId, item.kind, item.targetLogicalLength, output⟩

def prevalidateItems (result : IterationResult) :
    List InflightItem → SchedulerM (List SettledInflightItem)
  | [] => return []
  | item :: rest => do
      let settled ← prevalidateItem result item
      let others ← prevalidateItems result rest
      return settled :: others

def prevalidateCompletionPublication (result : IterationResult) :
    SchedulerM (List SettledInflightItem) := do
  let inflight ← requireInflight
  onHost (tryReserveExact "settled iteration metadata")
  prevalidateItems result inflight.items

def commitReservation (item : InflightItem) : SchedulerM Unit := do
  let (index, record) ← requireRecord item.requestId
  let sequence ← orReject record.sequence
    (.invalidPlan "sequence" "in-flight request has no KV sequence")
  let commit ← onSequence index sequence (SequenceState.commit item.reservation)
  rejectIf (commit.logicalLength ≠ item.targetLogicalLength)
    (.invalidPlan "target_logical_length"
      "paged-KV commit published a different logical length")

/-- Commits every item. A failed commit fails its request and is reported. -/
def commitItems (nowNs : Nat) : List (InflightItem × SettledInflightItem) →
    SchedulerM (List SettledInflightItem × List RequestSettlementFailure)
  | [] => return ([], [])
  | (item, settled) :: rest => do
      match ← attempt (commitReservation item) with
      | .ok () => do
          let (committed, failures) ← commitItems nowNs rest
          return (settled :: committed, failures)
      | .error error => do
          let reclaimed ← attempt (forceReclaimLiveRequest item.requestId nowNs)
          let contained := match reclaimed with
            | .ok () => error
            | .error cleanup => cleanup
          let (committed, failures) ← commitItems nowNs rest
          return (committed, ⟨item.requestId, contained⟩ :: failures)

def advanceCursor (target : Nat) (record : RequestRecord) : RequestRecord :=
  { record with prefillCursor := target }

def pushToken (tokenId : TokenId) (record : RequestRecord) : RequestRecord :=
  { record with generatedTokenIds := record.generatedTokenIds ++ [tokenId] }

def readyAgain (state : RequestState) (nowNs : Nat) (record : RequestRecord) :
    RequestRecord :=
  { record with state := state, readySinceNs := nowNs }

/-- What publishing one item produced: its token event, which stays even when
the request then fails to finish, and that failure. -/
structure Publication where
  events : List TokenEvent
  failure : Option SchedulerError

/-- Ends a request; a failure is part of the answer. -/
def finishPublished (requestId : RequestId) (reason : RequestFinishReason) (nowNs : Nat)
    (events : List TokenEvent) : SchedulerM Publication := do
  match ← attempt (finishLiveRequest requestId reason nowNs) with
  | .ok () => return ⟨events, none⟩
  | .error error => return ⟨events, some error⟩

/-- Routes the output of a committed item. -/
def publishOutput (item : SettledInflightItem) (index : Nat) (record : RequestRecord)
    (nowNs : Nat) : SchedulerM Publication :=
  match item.output with
  | none => do
      modifyRecord index (readyAgain .prefilling nowNs)
      return ⟨[], none⟩
  | some output => do
      modifyRecord index (pushToken output.tokenId)
      let event : TokenEvent :=
        ⟨item.requestId, output.tokenId, record.generatedTokenIds.length⟩
      let reachedLength :=
        record.generatedTokenIds.length + 1 = record.descriptor.maxNewTokens
      if output.stop ∨ reachedLength then
        finishPublished item.requestId (if output.stop then .stop else .length) nowNs [event]
      else do
        modifyRecord index (readyAgain .decoding nowNs)
        return ⟨[event], none⟩

def publishCommittedItem (item : SettledInflightItem) (nowNs : Nat) :
    SchedulerM Publication := do
  let (index, record) ← requireRecord item.requestId
  if record.cancellationDeferred then
    finishPublished item.requestId .cancelled nowNs []
  else do
    runIf (item.kind = .prefill) do
      modifyRecord index (advanceCursor item.targetLogicalLength)
      publishPromptBlocks index
    publishOutput item index record nowNs

/-- Publishes every committed item. A failure fails its request and is
reported. -/
def publishItems (nowNs : Nat) : List SettledInflightItem →
    SchedulerM (List TokenEvent × List RequestSettlementFailure)
  | [] => return ([], [])
  | item :: rest => do
      let attempted ← attempt (publishCommittedItem item nowNs)
      let published : Publication := match attempted with
        | .ok published => published
        | .error error => ⟨[], some error⟩
      match published.failure with
      | none => do
          let (events, failures) ← publishItems nowNs rest
          return (published.events ++ events, failures)
      | some error => do
          let contained ← containLiveRequestFailure item.requestId nowNs error
          let (events, failures) ← publishItems nowNs rest
          return (published.events ++ events, ⟨item.requestId, contained⟩ :: failures)

/-- Fails the requests whose items committed beside one that did not. -/
def failCommitted (nowNs : Nat) : List SettledInflightItem →
    SchedulerM (List RequestSettlementFailure)
  | [] => return []
  | item :: rest => do
      match ← attempt (finishLiveRequest item.requestId .executorFailure nowNs) with
      | .ok () => failCommitted nowNs rest
      | .error error => do
          let contained ← containLiveRequestFailure item.requestId nowNs error
          let failures ← failCommitted nowNs rest
          return ⟨item.requestId, contained⟩ :: failures

/-- What an aborted item leaves its request with. -/
def abortRecord (abort : ExecutionAbort) (item : InflightItem) (index : Nat)
    (record : RequestRecord) (nowNs : Nat) : SchedulerM Unit :=
  match abort with
  | .notDispatched =>
      if record.cancellationDeferred then
        finishLiveRequest item.requestId .cancelled nowNs
      else
        modifyRecord index fun record => { record with
          state := item.previousState
          readySinceNs := item.previousReadySinceNs }
  | .deviceQuiescedMutationUnknown =>
      finishLiveRequest item.requestId .executorFailure nowNs

def ExecutionAbort.settlement : ExecutionAbort → ReservationSettlement
  | .notDispatched => .rollback
  | .deviceQuiescedMutationUnknown => .poison

def abortItem (abort : ExecutionAbort) (nowNs : Nat) (item : InflightItem) :
    SchedulerM (List RequestSettlementFailure) := do
  match ← attempt (settleReservation item.requestId item.reservation abort.settlement) with
  | .error error => return [⟨item.requestId, error⟩]
  | .ok () => do
      let s ← get
      match s.lookup item.requestId with
      | none => return [⟨item.requestId, .unknownRequest item.requestId⟩]
      | some (index, record) => do
          match ← attempt (abortRecord abort item index record nowNs) with
          | .ok () => return []
          | .error error => do
              let contained ← containLiveRequestFailure item.requestId nowNs error
              return [⟨item.requestId, contained⟩]

def abortItems (abort : ExecutionAbort) (nowNs : Nat) :
    List InflightItem → SchedulerM (List RequestSettlementFailure)
  | [] => return []
  | item :: rest => do
      let failures ← abortItem abort nowNs item
      let others ← abortItems abort nowNs rest
      return failures ++ others

end Riley.Scheduling
