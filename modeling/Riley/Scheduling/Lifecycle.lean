import Riley.Scheduling.State

/-!
How a live request is admitted, gets its blocks from the prefix cache, lists
its own blocks there, and leaves: the internal operations that the public
calls are made of.
-/

namespace Riley.Scheduling

open PagedKv Outcome

/-- The live record of a request, or the error that there is none. -/
def requireRecord (requestId : RequestId) : SchedulerM (Nat × RequestRecord) := do
  let s ← get
  orReject (s.lookup requestId) (.unknownRequest requestId)

/-- Takes the record at `index` out and keeps its terminal payload. -/
def completeRecord (index : Nat) (record : RequestRecord) (reason : RequestFinishReason)
    (state : RequestState) (nowNs : Nat) : SchedulerM Unit := do
  modify fun s => { s with
    requests := Scheduler.swapRemove index s.requests
    completionOutbox := s.completionOutbox ++ [
      { requestId := record.requestId
        reason := reason
        generatedTokenIds := record.generatedTokenIds
        cachedPromptTokens := record.cachedPromptTokens
        completedAtNs := nowNs }] }
  rememberTerminal record.requestId state

def forceReclaimLiveRequest (requestId : RequestId) (completedAtNs : Nat) :
    SchedulerM Unit := do
  ensureCompletionCapacity 1
  let (index, record) ← requireRecord requestId
  let s ← get
  let activeSequences ← orReject (checkedSub s.activeSequences 1)
    (.arithmeticOverflow "forced active sequence decrement")
  let promisedKvBlocks ← orReject (checkedSub s.promisedKvBlocks record.promisedKvBlocks)
    (.arithmeticOverflow "forced promised KV block decrement")
  let sequence ← orReject record.sequence
    (.invalidPlan "sequence" "forced reclaim request has no KV sequence")
  modifyRecord index (withSequence none)
  let _ ← zoom Scheduler.pool (fun pool s => { s with pool := pool }) .pagedKv
    (KvBlockPool.reclaimSequence sequence.abandonForReclaim)
  modify fun s => { s with
    activeSequences := activeSequences
    promisedKvBlocks := promisedKvBlocks }
  completeRecord index record .executorFailure .failed completedAtNs

/-- Takes a waiting request off the queue. -/
def leaveWaiting (record : RequestRecord) : SchedulerM Unit := do
  let s ← get
  rejectIf (record.requestId ∉ s.waiting)
    (.invalidPlan "waiting queue" "waiting request is absent from the FCFS queue")
  let waitingPromptTokens ← orReject
    (checkedSub s.waitingPromptTokens record.prompt.length)
    (.arithmeticOverflow "waiting prompt token decrement")
  set { s with
    waiting := s.waiting.erase record.requestId
    waitingPromptTokens := waitingPromptTokens }

/-- Closes the sequence of an active request and returns its promise. -/
def leaveActive (index : Nat) (record : RequestRecord) (nowNs : Nat) :
    SchedulerM Unit := do
  let s ← get
  let activeSequences ← orReject (checkedSub s.activeSequences 1)
    (.arithmeticOverflow "active sequence decrement")
  let promisedKvBlocks ← orReject (checkedSub s.promisedKvBlocks record.promisedKvBlocks)
    (.arithmeticOverflow "promised KV block decrement")
  let sequence ← orReject record.sequence
    (.invalidPlan "sequence" "active request has no KV sequence")
  match ← attempt (onSequence index sequence SequenceState.close) with
  | .error original => do
      forceReclaimLiveRequest record.requestId nowNs
      throw original
  | .ok () =>
      modify fun s => { s with
        activeSequences := activeSequences
        promisedKvBlocks := promisedKvBlocks }

def finishLiveRequest (requestId : RequestId) (reason : RequestFinishReason)
    (nowNs : Nat) : SchedulerM Unit := do
  ensureCompletionCapacity 1
  let (index, record) ← requireRecord requestId
  rejectIf (validTransition record.state reason.state = false)
    (invalidTransition requestId record.state reason.state)
  if record.state = .waiting then
    leaveWaiting record
    completeRecord index record reason reason.state nowNs
  else
    leaveActive index record nowNs
    completeRecord index record reason reason.state nowNs

/-- Reclaims a request whose failure is reported to the caller. -/
def containLiveRequestFailure (requestId : RequestId) (nowNs : Nat)
    (original : SchedulerError) : SchedulerM SchedulerError := do
  let s ← get
  if s.recordIndex requestId = none then
    return original
  else
    match ← attempt (forceReclaimLiveRequest requestId nowNs) with
    | .ok () => return original
    | .error error => return error

inductive ReservationSettlement where
  | rollback
  | poison
  deriving DecidableEq, Repr

def settleReservation (requestId : RequestId) (reservation : SequenceReservation)
    (settlement : ReservationSettlement) : SchedulerM Unit := do
  let (index, record) ← requireRecord requestId
  let sequence ← orReject record.sequence
    (.invalidPlan "sequence" "reservation owner has no KV sequence")
  let action := match settlement with
    | .rollback => SequenceState.rollback reservation
    | .poison => SequenceState.poison reservation
  match ← attempt (onSequence index sequence action) with
  | .ok () => pure ()
  | .error original => do
      let s ← get
      forceReclaimLiveRequest requestId (s.lastNowNs.getD 0)
      throw original

/-- `create_sequence` on the scheduler's pool. -/
def createSequence (maximum : Nat) : SchedulerM SequenceState :=
  zoom (fun s => (s.pool, s.hostAnswers))
    (fun state s => { s with pool := state.1, hostAnswers := state.2 }) .pagedKv
    (KvBlockPool.createSequence maximum)

/-- Counts one more active sequence and its promise. -/
def promise (promisedKvBlocks : Nat) : SchedulerM Unit := do
  let s ← get
  let activeSequences ← orReject (checkedAdd usizeMax s.activeSequences 1)
    (.arithmeticOverflow "active sequence count")
  set { s with activeSequences := activeSequences }
  let s ← get
  let promised ← orReject (checkedAdd usizeMax s.promisedKvBlocks promisedKvBlocks)
    (.arithmeticOverflow "promised KV blocks")
  set { s with promisedKvBlocks := promised }

/-- The record of a request that starts with an empty sequence. -/
def admitted (sequence : SequenceState) (nowNs : Nat) (record : RequestRecord) :
    RequestRecord :=
  { record with state := .admitted, sequence := some sequence, readySinceNs := nowNs }

def admitRecord (record : RequestRecord) (maximumLogicalLength nowNs : Nat) :
    SchedulerM RequestRecord := do
  let sequence ← createSequence maximumLogicalLength
  rejectIf (validTransition record.state .admitted = false)
    (invalidTransition record.requestId record.state .admitted)
  promise record.promisedKvBlocks
  return admitted sequence nowNs record

/-- One round of `expire_waiting`; answers whether to look at the next one. -/
def expireFront (timeoutNs nowNs : Nat) : SchedulerM Bool := do
  let s ← get
  match s.waiting.head? with
  | none => return false
  | some requestId => do
      let (_, record) ← requireRecord requestId
      if nowNs - record.submittedAtNs < timeoutNs then
        return false
      else do
        finishLiveRequest requestId .admissionTimeout nowNs
        return true

def expireWaiting (nowNs : Nat) : SchedulerM Unit := do
  let s ← get
  match s.config.admissionTimeoutNs with
  | none => pure ()
  | some timeoutNs => repeatWhile s.waiting.length (expireFront timeoutNs nowNs)

/-- One round of `admit_waiting`; answers whether to look at the next one. -/
def admitFront (nowNs : Nat) : SchedulerM Bool := do
  let s ← get
  match s.waiting with
  | [] => return false
  | requestId :: rest => do
      let (index, record) ← requireRecord requestId
      if s.canAdmit record.promisedKvBlocks = false then
        return false
      else do
        let maximum ← fromExcept (maximumLogicalLength record.descriptor)
        let sequence ← createSequence maximum
        modify fun s => { s with waiting := rest }
        let s ← get
        let waitingPromptTokens ← orReject
          (checkedSub s.waitingPromptTokens record.prompt.length)
          (.arithmeticOverflow "waiting prompt token decrement")
        set { s with waitingPromptTokens := waitingPromptTokens }
        promise record.promisedKvBlocks
        rejectIf (validTransition record.state .admitted = false)
          (invalidTransition requestId record.state .admitted)
        modifyRecord index (admitted sequence nowNs)
        return true

def admitWaiting (nowNs : Nat) : SchedulerM Unit := do
  let s ← get
  repeatWhile s.waiting.length (admitFront nowNs)

/-- The page of a prompt that starts at `start`. -/
def promptPage (prompt : List TokenId) (start : Nat) : List TokenId :=
  (prompt.drop start).take kvBlockSize

/-- Prompt tokens that whole listed blocks may serve: the last one always runs. -/
def reusableTokens (prompt : List TokenId) : Nat :=
  (prompt.length - 1) / kvBlockSize * kvBlockSize

/-- The record after it took the listed block of its next page. -/
def adoptedPage (entry : EntryId) (record : RequestRecord) : RequestRecord :=
  { record with
    prefixTip := some entry
    prefillCursor := record.prefillCursor + kvBlockSize }

/-- The inner loop of `adopt_cached_prefixes`. -/
def adoptPages : Nat → Nat → SchedulerM Unit
  | 0, _ => pure ()
  | fuel + 1, index => do
      let s ← get
      match s.prefixCache, s.requests[index]? with
      | some cache, some record =>
          match record.sequence with
          | none => pure ()
          | some sequence =>
              if record.prefillCursor < reusableTokens record.prompt then do
                let tokens := promptPage record.prompt record.prefillCursor
                match ← fromExcept (cache.find record.prefixTip tokens) with
                | none => pure ()
                | some (entry, block) => do
                    onSequence index sequence (SequenceState.adoptSharedBlock block)
                    modifyRecord index (adoptedPage entry)
                    adoptPages fuel index
              else
                pure ()
      | _, _ => pure ()

def creditAdopted (adopted : Nat) (record : RequestRecord) : RequestRecord :=
  { record with cachedPromptTokens := record.cachedPromptTokens + adopted }

/-- Marks the path of a record's tip as recently used. -/
def touchTip (index : Nat) : SchedulerM Unit := do
  let s ← get
  match s.prefixCache, s.requests[index]? with
  | some cache, some record =>
      onCache cache (onIndex (PrefixCache.touchPath record.prefixTip))
  | _, _ => pure ()

def adoptCachedPrefix (index : Nat) : SchedulerM Unit := do
  let s ← get
  match s.requests[index]? with
  | none => pure ()
  | some record =>
      if record.state = .admitted ∧ record.prefixLinked then do
        adoptPages record.prompt.length index
        let s ← get
        let adopted :=
          ((s.requests[index]?).map RequestRecord.prefillCursor).getD 0 -
            record.prefillCursor
        runIf (adopted ≠ 0) do
          modifyRecord index (creditAdopted adopted)
          touchTip index
      else
        pure ()

/-- Gives requests that have not started the blocks of their prompt that the
cache lists. -/
def adoptCachedPrefixes : SchedulerM Unit := do
  let s ← get
  match s.prefixCache with
  | none => pure ()
  | some _ => forEach (List.range s.requests.length) adoptCachedPrefix

def unlinkPrefix (record : RequestRecord) : RequestRecord :=
  { record with prefixLinked := false }

def withTip (entry : EntryId) (record : RequestRecord) : RequestRecord :=
  { record with prefixTip := some entry }

/-- Makes room for one more listed block; answers whether there is any. -/
def makeRoom (cache : PrefixCache) : SchedulerM Bool :=
  if cache.hasRoom then pure true else onCache cache PrefixCache.evictOne

/-- Shares the next committed block of a record and lists it. -/
def listNextBlock (index : Nat) (record : RequestRecord) (sequence : SequenceState)
    (tokens : List TokenId) : SchedulerM Unit := do
  let block ← onSequence index sequence SequenceState.shareNextBlock
  let s ← get
  match s.prefixCache with
  | none => pure ()
  | some cache => do
      let entry ← onCache cache (onIndex (PrefixCache.insert record.prefixTip tokens block))
      modifyRecord index (withTip entry)

/-- The loop of `publish_prompt_blocks` over the next `count` full blocks;
answers how many of them it listed. -/
def publishPages : Nat → Nat → SchedulerM Nat
  | 0, _ => pure 0
  | count + 1, index => do
      let s ← get
      match s.prefixCache, s.requests[index]? with
      | some cache, some record =>
          match record.sequence with
          | none => pure 0
          | some sequence =>
              if record.prefixLinked = false then
                pure 0
              else do
                let tokens := promptPage record.prompt
                  (sequence.sharedBlockCount * kvBlockSize)
                match ← fromExcept (cache.find record.prefixTip tokens) with
                | some _ => do
                    modifyRecord index unlinkPrefix
                    return 0
                | none => do
                    if ← makeRoom cache then do
                      listNextBlock index record sequence tokens
                      let listed ← publishPages count index
                      return listed + 1
                    else do
                      modifyRecord index unlinkPrefix
                      return 0
      | _, _ => pure 0

/-- Lists the prompt blocks a committed prefill step has completed. -/
def publishPromptBlocks (index : Nat) : SchedulerM Unit := do
  let s ← get
  match s.prefixCache, s.requests[index]? with
  | some _, some record =>
      match record.sequence with
      | none => pure ()
      | some sequence => do
          let fullBlocks := record.prefillCursor / kvBlockSize
          let listed ← publishPages (fullBlocks - sequence.sharedBlockCount) index
          runIf (listed ≠ 0) (touchTip index)
  | _, _ => pure ()

/-- Unlists every block. Requests keep the blocks they hold. -/
def dropPrefixCacheEntries : SchedulerM Unit := do
  let s ← get
  match s.prefixCache with
  | none => pure ()
  | some cache => do
      onCache cache PrefixCache.clear
      modify fun s => { s with requests := s.requests.map unlinkPrefix }

end Riley.Scheduling
