import Riley.Scheduling.State

/-!
Which requests the next iteration works on and how many tokens each of them
gets: decode-first order, the aging override, the burst, coalescing and
plateau policies, and atomic prefill chunks.
-/

namespace Riley.Scheduling

open Outcome

structure ReadyRequest where
  requestId : RequestId
  readySinceNs : Nat
  remainingTokens : Nat
  plateauDeferred : Bool
  /-- A prompt some of whose tokens have already run. -/
  started : Bool
  deriving DecidableEq

structure Candidate where
  requestId : RequestId
  kind : WorkKind
  tokenCount : Nat
  deriving DecidableEq

def RequestRecord.remaining (record : RequestRecord) : Nat :=
  record.prompt.length - record.prefillCursor

def readyPrefill (record : RequestRecord) : Option ReadyRequest :=
  match record.state with
  | .admitted | .prefilling =>
      if record.remaining = 0 then none
      else some ⟨record.requestId, record.readySinceNs, record.remaining,
        record.plateauDeferred, record.state = .prefilling⟩
  | _ => none

def readyDecode (record : RequestRecord) : Option ReadyRequest :=
  match record.state with
  | .decoding => some ⟨record.requestId, record.readySinceNs, 1, false, true⟩
  | _ => none

/-- The order of `sort_unstable_by_key`; identifiers make its keys unique. -/
def readyBefore (a b : ReadyRequest) : Prop :=
  a.readySinceNs < b.readySinceNs ∨
    a.readySinceNs = b.readySinceNs ∧ a.requestId.value ≤ b.requestId.value

instance : DecidableRel readyBefore := fun a b =>
  inferInstanceAs (Decidable (a.readySinceNs < b.readySinceNs ∨
    a.readySinceNs = b.readySinceNs ∧ a.requestId.value ≤ b.requestId.value))

namespace Scheduler

def prefillReady (s : Scheduler) : List ReadyRequest :=
  (s.requests.filterMap readyPrefill).insertionSort readyBefore

def decodeReady (s : Scheduler) : List ReadyRequest :=
  (s.requests.filterMap readyDecode).insertionSort readyBefore

/-- The token budget of the iteration under the burst policy. -/
def openBudget (s : Scheduler) (prefillItems decode : List ReadyRequest) : Nat :=
  match s.prefillBurst with
  | some policy =>
      if policy.maxDecodeRows < decode.length ∨
          0 < policy.minPromptTokens ∧
            ¬ prefillItems.any fun item => policy.minPromptTokens ≤ item.remainingTokens then
        policy.steadyBudget
      else
        s.config.iterationTokenBudget
  | none => s.config.iterationTokenBudget

/-- The prompt that waited past the aging threshold, when decode work may be
overridden. -/
def agedRequest (s : Scheduler) (nowNs : Nat) (prefillItems decode : List ReadyRequest) :
    Option RequestId :=
  if decode ≠ [] ∧ s.agingOverrideLastIteration = false then
    (prefillItems.find? fun item =>
      s.config.agingThresholdNs ≤ nowNs - item.readySinceNs).map ReadyRequest.requestId
  else
    none

/-- The chunk that the aging override reserves before decode work. -/
def agedChunk (s : Scheduler) (budget : Nat) (item : ReadyRequest) : Nat :=
  let reservedForDecode := if 1 < budget then 1 else 0
  let usable :=
    if s.atomicPrefillChunks then budget else max (budget - reservedForDecode) 1
  min (min item.remainingTokens s.config.maxPrefillChunkTokens) usable

end Scheduler

/-- Decode work in order, one token each, while budget is left. -/
def takeDecode : Nat → List ReadyRequest → List Candidate
  | budget + 1, item :: rest => ⟨item.requestId, .decode, 1⟩ :: takeDecode budget rest
  | _, _ => []

def saturatingAdd (limit a b : Nat) : Nat := min (a + b) limit

namespace Scheduler

/-- Coalescing: new prompts are held back so that they start together. -/
def holdNewPrompts (s : Scheduler) (nowNs : Nat) (prefillItems decode : List ReadyRequest)
    (aged : Option RequestId) : Bool :=
  match s.prefillCoalescing with
  | some policy =>
      if aged = none ∧ policy.minDecodeRows ≤ decode.length then
        let waiting := prefillItems.filter fun item => !item.started
        let readyTokens :=
          waiting.foldl (fun sum item => saturatingAdd usizeMax sum item.remainingTokens) 0
        let longestWaitNs :=
          waiting.foldl (fun longest item => max longest (nowNs - item.readySinceNs)) 0
        decide (readyTokens < policy.minTokens ∧ longestWaitNs < policy.maxWaitNs)
      else
        false
  | none => false

/-- Prefill work in order, one chunk each, while budget is left. -/
def takePrefill (s : Scheduler) (aged : Option RequestId) (hold : Bool) :
    Nat → List ReadyRequest → List Candidate
  | _, [] => []
  | budget, item :: rest =>
      if budget = 0 then
        []
      else if some item.requestId = aged then
        takePrefill s aged hold budget rest
      else if hold ∧ ¬ item.started then
        takePrefill s aged hold budget rest
      else
        let desired := min item.remainingTokens s.config.maxPrefillChunkTokens
        if s.atomicPrefillChunks ∧ budget < desired then
          takePrefill s aged hold budget rest
        else
          let tokenCount := min desired budget
          ⟨item.requestId, .prefill, tokenCount⟩ ::
            takePrefill s aged hold (budget - tokenCount) rest

end Scheduler

def totalTokens (candidates : List Candidate) : Nat :=
  (candidates.map Candidate.tokenCount).sum

/-- Whether every request that would lose tokens may still be trimmed; the
selection is given last candidate first. -/
def mayTrim (prefillItems : List ReadyRequest) : Nat → List Candidate → Bool
  | _, [] => true
  | remaining, item :: rest =>
      if remaining = 0 then
        true
      else
        match prefillItems.find? (·.requestId = item.requestId) with
        | none => false
        | some ready =>
            if ready.plateauDeferred then false
            else mayTrim prefillItems (remaining - min item.tokenCount remaining) rest

/-- Takes `remaining` tokens off a selection given last candidate first;
answers what is left of it and which requests lost tokens. -/
def trim : Nat → List Candidate → List Candidate × List RequestId
  | _, [] => ([], [])
  | remaining, item :: rest =>
      if remaining = 0 then
        (item :: rest, [])
      else
        let trimmed := min item.tokenCount remaining
        if item.tokenCount - trimmed = 0 then
          let (left, deferred) := trim (remaining - trimmed) rest
          (left, item.requestId :: deferred)
        else
          ({ item with tokenCount := item.tokenCount - trimmed } :: rest, [item.requestId])

namespace Scheduler

/-- How far the selection runs past a plateau boundary, when that is worth
trimming. -/
def plateauOverflow (policy : PrefillPlateauPolicy) (decodeRows prefillStart : Nat)
    (selected : List Candidate) : Option Nat :=
  if decodeRows < policy.minDecodeRows then
    none
  else
    let total := totalTokens selected
    match policy.boundaries.reverse.find? (· < total) with
    | none => none
    | some boundary =>
        let overflow := total - boundary
        if policy.maxDeferredTokens < overflow ∨
            totalTokens (selected.drop prefillStart) < overflow then
          none
        else
          some overflow

/-- Trims the tail of the prefill selection when the iteration would end just
past a plateau boundary. -/
def deferPastPlateau (s : Scheduler) (prefillItems : List ReadyRequest)
    (decodeRows prefillStart : Nat) (selected : List Candidate) :
    HostM (List Candidate × List RequestId) := do
  match s.prefillPlateau.bind fun policy =>
      plateauOverflow policy decodeRows prefillStart selected with
  | none => return (selected, [])
  | some overflow =>
      if mayTrim prefillItems overflow selected.reverse then do
        tryReserveExact "plateau deferred requests"
        let (left, deferred) := trim overflow selected.reverse
        return (left.reverse, deferred)
      else
        return (selected, [])

/-- The aged prompt's candidate, ahead of all decode work. -/
def agedCandidate (s : Scheduler) (budget : Nat) (prefillItems : List ReadyRequest)
    (aged : Option RequestId) : HostM (List Candidate) :=
  match aged with
  | none => return []
  | some requestId => do
      let item ← orReject (prefillItems.find? (·.requestId = requestId))
        (.invalidPlan "aging candidate" "selected prefill request disappeared")
      return [⟨requestId, .prefill, s.agedChunk budget item⟩]

def selectCandidates (s : Scheduler) (nowNs : Nat) :
    HostM (List Candidate × Bool × List RequestId) := do
  tryReserveExact "prefill candidates"
  tryReserveExact "decode candidates"
  let prefillItems := s.prefillReady
  let decode := s.decodeReady
  tryReserveExact "iteration candidates"
  let budget := s.openBudget prefillItems decode
  let aged := s.agedRequest nowNs prefillItems decode
  let first ← s.agedCandidate budget prefillItems aged
  let afterAged := budget - totalTokens first
  let decoding := takeDecode afterAged decode
  let afterDecode := afterAged - decoding.length
  let hold := s.holdNewPrompts nowNs prefillItems decode aged
  let prefilling := s.takePrefill aged hold afterDecode prefillItems
  let selected := first ++ decoding ++ prefilling
  match aged with
  | some _ => return (selected, true, [])
  | none => do
      let (selected, deferred) ← s.deferPastPlateau prefillItems decode.length
        (first ++ decoding).length selected
      return (selected, false, deferred)

end Scheduler

end Riley.Scheduling
