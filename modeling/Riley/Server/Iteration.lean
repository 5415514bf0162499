import Riley.Constraint.Automaton
import Riley.Generation.State
import Riley.Sampling.Greedy
import Riley.Server.Domain

/-!
One sampled iteration of the backend. Every output slot gets a token, either the
device's choice or one sampled from the row of its logits; the grammar of the
request advances over it and the request accepts it. Which of the two it is, is
selected for the whole plan. The identity of the selection and the audit records
are left out, as is the scratch of log-probabilities.
-/

namespace Riley.Server

open Constraint (Grammar GrammarAutomaton GrammarCursor TokenIndex)
open Generation (GenerationState GenerationError GenerationM acceptToken preStep)
open Outcome Sampling
open Utf8 (Text)

/-- Where the tokens of an iteration are chosen. -/
inductive SamplingBackend
  | cpuNormative
  | gpuGreedy
  deriving DecidableEq, Repr

/-- Why an iteration is sampled on the host. -/
inductive GpuGreedyIneligibility
  | gpuGreedyNotConfigured
  | addressableVocabularyMismatch
  | nonZeroTemperature
  | repetitionPenalty
  | finishTokenMask
  | requestLogits
  deriving DecidableEq, Repr

structure WorkItem where
  requestId : Nat
  outputSlot : Option Nat
  deriving DecidableEq, Repr

structure IterationPlan where
  outputSlots : List Nat
  prefillItems : List WorkItem
  decodeItems : List WorkItem
  deriving DecidableEq, Repr

def IterationPlan.itemOf (plan : IterationPlan) (slot : Nat) : Option WorkItem :=
  (plan.prefillItems ++ plan.decodeItems).find? (·.outputSlot = some slot)

/-- The automaton that a request shares, by its place among all, and its cursor in it. -/
structure StructuredRequest where
  automaton : Nat
  cursor : GrammarCursor
  deriving DecidableEq, Repr

/-- The random stream and the sampling parameters are those of `state`, which knows the
latter by their check alone. -/
structure CudaRequest (K ρ τ : Type) where
  schedulerId : Nat
  state : GenerationState
  samplingParams : SamplingParams K
  rng : ρ
  tokenDecodeState : τ
  logprobsTop : Option Nat
  structured : Option StructuredRequest

structure SampledIterationToken where
  tokenId : Nat
  stop : Bool
  deriving DecidableEq, Repr

structure PendingToken (ℓ : Type) where
  schedulerId : Nat
  tokenId : Nat
  textDelta : Text
  logprob : Option (TokenLogprob ℓ)

/-- What an iteration changes of the backend. -/
structure CudaBackend (K ρ τ ℓ : Type) where
  automata : List ((g : Grammar) × GrammarAutomaton g)
  sampling : SamplingWorkspace K
  requests : List (CudaRequest K ρ τ)
  samples : List SampledIterationToken
  pendingTokens : List (PendingToken ℓ)

/-- What it only reads: the configuration, the tokenizer, the random stream and the
log-probabilities of a row, which are floating point. -/
structure CudaModel (K ρ τ ℓ : Type) where
  endian : Endian
  exp : K → K
  ln : K → K
  addressableTokens : Nat
  eos : List Nat
  tokenIndex : TokenIndex
  gpuGreedy : Bool
  decodeGraph : Bool
  greedyCandidateCount : Option Nat
  nextU32 : EStateM String ρ Nat
  decodeTokenBytes : Nat → τ → Except String (List UInt8 × τ)
  tokenText : Nat → List UInt8
  rawLogprobs : List UInt8 → Nat → Nat → Nat → ℓ × List (Nat × ℓ)

/-- What the device returned for the output slots. -/
structure DownloadedIteration where
  logits : Nat → Option (List UInt8)
  greedyToken : Nat → Option Nat

inductive IterationError (K : Type)
  | internal (text : String)
  | samplingFailed (error : SamplingError K)
  | randomnessFailed (error : GenerationError)
  | streamFailed (text : String)
  | decodingFailed (text : String)
  | acceptanceFailed (error : GenerationError)
  | panicked

variable {K ρ τ ℓ : Type}

abbrev IterationM (K ρ τ ℓ : Type) := EStateM (IterationError K) (CudaBackend K ρ τ ℓ)

namespace CudaBackend

def setRequest (backend : CudaBackend K ρ τ ℓ) (index : Nat) (request : CudaRequest K ρ τ) :
    CudaBackend K ρ τ ℓ :=
  { backend with requests := backend.requests.set index request }

/-- The request moves its cursor, and its automaton has grown. -/
def moveCursor (backend : CudaBackend K ρ τ ℓ) (index : Nat) (request : CudaRequest K ρ τ)
    (structured : StructuredRequest) (cursor : GrammarCursor)
    (automaton : (g : Grammar) × GrammarAutomaton g) : CudaBackend K ρ τ ℓ :=
  { backend with
    automata := backend.automata.set structured.automaton automaton
    requests := backend.requests.set index
      { request with structured := some { structured with cursor := cursor } } }

end CudaBackend

def requestIndexByScheduler (requests : List (CudaRequest K ρ τ)) (requestId : Nat) :
    Option Nat :=
  requests.findIdx? (·.schedulerId = requestId)

/-- The request of an output slot. -/
def requestOf (plan : IterationPlan) (slot : Nat) : IterationM K ρ τ ℓ Nat := do
  let backend ← get
  let item ← orReject (plan.itemOf slot) (.internal "output slot has no scheduler work item")
  orReject (requestIndexByScheduler backend.requests item.requestId)
    (.internal "iteration references unknown request")

def readRequest (index : Nat) : IterationM K ρ τ ℓ (CudaRequest K ρ τ) := do
  let backend ← get
  orReject backend.requests[index]? .panicked

/-- A call on the automaton of a request with its cursor; `none` stands for a panic. -/
def onAutomaton {α : Type} (index : Nat) (request : CudaRequest K ρ τ)
    (structured : StructuredRequest)
    (call : (g : Grammar) → GrammarAutomaton g → GrammarCursor →
      Option (α × GrammarCursor × GrammarAutomaton g)) : IterationM K ρ τ ℓ α := do
  let backend ← get
  match backend.automata[structured.automaton]? with
  | none => throw .panicked
  | some ⟨g, automaton⟩ =>
      match call g automaton structured.cursor with
      | none => throw .panicked
      | some (result, cursor, automaton) => do
          set (backend.moveCursor index request structured cursor ⟨g, automaton⟩)
          pure result

/-- Runs a call on the generation state of a request. -/
def onState {α : Type} (index : Nat) (lift : GenerationError → IterationError K)
    (call : GenerationM α) : IterationM K ρ τ ℓ α := do
  let request ← readRequest index
  match call request.state with
  | .ok result state => do
      modify (·.setRequest index { request with state := state })
      pure result
  | .error error state => do
      modify (·.setRequest index { request with state := state })
      throw (lift error)

section Sampling

variable [Field K] [LinearOrder K] (model : CudaModel K ρ τ ℓ) (plan : IterationPlan)
  (downloaded : DownloadedIteration)

def gpuGreedyIneligibility (gpuGreedyConfigured exactVocabulary : Bool)
    (temperature repetitionPenalty : Ieee K) (hasFinishTokenMask : Bool) :
    Option GpuGreedyIneligibility :=
  if !gpuGreedyConfigured then some .gpuGreedyNotConfigured
  else if !exactVocabulary then some .addressableVocabularyMismatch
  else if temperature ≠ .finite 0 then some .nonZeroTemperature
  else if repetitionPenalty ≠ .finite 1 then some .repetitionPenalty
  else if hasFinishTokenMask then some .finishTokenMask
  else none

/-- Why a request cannot take the device's choice. -/
def requestIneligibility (request : CudaRequest K ρ τ) : Option GpuGreedyIneligibility :=
  if model.decodeGraph && (request.structured.isSome || request.logprobsTop.isSome) then
    some .requestLogits
  else
    gpuGreedyIneligibility true true request.samplingParams.temperature
      request.samplingParams.repetitionPenalty (request.state.finishTokensMasked ≠ [])

/-- The loop over the output slots; the first request that cannot decides. -/
def ineligibilityFrom : List Nat → IterationM K ρ τ ℓ (Option GpuGreedyIneligibility)
  | [] => pure none
  | slot :: rest => do
      let index ← requestOf plan slot
      let request ← readRequest index
      match requestIneligibility model request with
      | some reason => pure (some reason)
      | none => ineligibilityFrom rest

/-- The backend of a plan, with the reason where it is the host. -/
def samplingSelectionForPlan :
    IterationM K ρ τ ℓ (SamplingBackend × Option GpuGreedyIneligibility) := do
  let backend ← get
  let exactVocabulary := model.addressableTokens = backend.sampling.vocabularySize ∨
    (!model.decodeGraph && model.greedyCandidateCount = some model.addressableTokens)
  let reason ←
    match gpuGreedyIneligibility model.gpuGreedy exactVocabulary (.finite (0 : K)) (.finite 1)
        false with
    | some reason => pure (some reason)
    | none => ineligibilityFrom model plan plan.outputSlots
  pure (if reason.isSome then .cpuNormative else .gpuGreedy, reason)

/-- Whether the grammar of a request admits the device's choice as it stands. -/
def admitsDeviceToken (index : Nat) (tokenId : Nat) : IterationM K ρ τ ℓ Bool := do
  let request ← readRequest index
  match request.structured with
  | none => pure true
  | some structured =>
      if request.state.finishTokensMasked = [] ∧ tokenId ∉ model.eos then
        onAutomaton index request structured fun _ automaton cursor =>
          automaton.allows cursor model.tokenIndex tokenId
      else pure false

/-- The choice of the device where it stands. -/
def deviceToken (backend : SamplingBackend) (index slot : Nat) :
    IterationM K ρ τ ℓ (Option Nat) :=
  match backend with
  | .cpuNormative => pure none
  | .gpuGreedy => do
      let tokenId ← orReject (downloaded.greedyToken slot)
        (.internal "greedy token routing failed")
      let admitted ← admitsDeviceToken model index tokenId
      pure (if admitted then some tokenId else none)

/-- The logits of a slot. A captured graph hands back no single rows. -/
def rowOf (backend : SamplingBackend) (slot : Nat) : IterationM K ρ τ ℓ (List UInt8) := do
  rejectIf (backend = .gpuGreedy ∧ model.decodeGraph = true)
    (.internal "batch executor is already closed")
  orReject (downloaded.logits slot) (.internal "logit routing failed")

/-- Clears the entries of the masked ids. -/
def maskFinishTokens : List Nat → List Bool → Except (IterationError K) (List Bool)
  | [], allowed => .ok allowed
  | id :: rest, allowed =>
      if id < allowed.length then maskFinishTokens rest (allowed.set id false)
      else .error (.internal "masked token ID is outside vocabulary")

/-- The tokens that the tokenizer knows. -/
def addressable (vocabularySize : Nat) : List Bool :=
  (List.range vocabularySize).map (· < model.addressableTokens)

/-- The tokens that a request may sample. -/
def allowedTokens (index : Nat) : IterationM K ρ τ ℓ (List Bool) := do
  let backend ← get
  let request ← readRequest index
  let allowed ← fromExcept (maskFinishTokens request.state.finishTokensMasked
    (addressable model backend.sampling.vocabularySize))
  match request.structured with
  | none => pure allowed
  | some structured =>
      onAutomaton index request structured fun _ automaton cursor =>
        automaton.constrain cursor model.tokenIndex model.eos allowed

/-- The full path of a row whose request is not greedy. -/
def sampleDistribution (index : Nat) (row : List UInt8) (constraints : TokenConstraints) :
    IterationM K ρ τ ℓ (SamplingResult K) := do
  let request ← readRequest index
  let distribution ← zoom CudaBackend.sampling
    (fun sampling backend => { backend with sampling := sampling }) .samplingFailed
    (processBf16Native model.endian model.exp model.ln row constraints
      request.state.historyTokenIds request.samplingParams)
  onState index .randomnessFailed preStep
  let request ← readRequest index
  match distribution.sample model.nextU32 request.rng with
  | .ok sample rng => do
      modify (·.setRequest index { request with rng := rng })
      pure sample
  | .error error rng => do
      modify (·.setRequest index { request with rng := rng })
      throw (.streamFailed error)

/-- A token sampled from a row. -/
def sampleRow (index : Nat) (row : List UInt8) : IterationM K ρ τ ℓ Nat := do
  let allowed ← allowedTokens model index
  let backend ← get
  let request ← readRequest index
  match greedyBf16Native model.endian backend.sampling.vocabularySize row (.allowedMask allowed)
      request.state.historyTokenIds request.samplingParams with
  | .error error => throw (.samplingFailed error)
  | .ok (some sample) => do
      onState index .randomnessFailed preStep
      pure sample.tokenId
  | .ok none => do
      let sample ← sampleDistribution model index row (.allowedMask allowed)
      pure sample.tokenId

def tokenProbability (tokenId : Nat) (logprob : ℓ) : TokenProbability ℓ :=
  ⟨model.tokenText tokenId, logprob⟩

/-- The log-probabilities that a request wants with a token. -/
def tokenLogprob (row : List UInt8) (tokenId top : Nat) : TokenLogprob ℓ :=
  let values := model.rawLogprobs row model.addressableTokens tokenId top
  { chosen := tokenProbability model tokenId values.1
    top := values.2.map fun entry => tokenProbability model entry.1 entry.2 }

/-- The token of a slot. A row is read only where something needs it. -/
def chooseToken (backend : SamplingBackend) (index slot : Nat) :
    IterationM K ρ τ ℓ (Nat × Option (TokenLogprob ℓ)) := do
  let device ← deviceToken model downloaded backend index slot
  let request ← readRequest index
  match device, request.logprobsTop with
  | some tokenId, none => pure (tokenId, none)
  | device, top => do
      let row ← rowOf model downloaded backend slot
      let tokenId ←
        match device with
        | some tokenId => pure tokenId
        | none => sampleRow model index row
      pure (tokenId, top.map (tokenLogprob model row tokenId))

/-- The grammar of a request advances over its token. -/
def advanceGrammar (index : Nat) (tokenId : Nat) : IterationM K ρ τ ℓ Unit := do
  let request ← readRequest index
  match request.structured with
  | none => pure ()
  | some structured => do
      let bytes ← orReject (model.tokenIndex.bytesOf tokenId) .panicked
      let advanced ← onAutomaton index request structured fun _ automaton cursor =>
        automaton.advance cursor bytes
      rejectIf (advanced = false) (.internal "sampled token left its grammar")

/-- Hidden end and stop tokens need no bytes. -/
def tokenNeedsDecoding (tokenId : Nat) : GenerationM Bool := do
  preStep
  let state ← get
  rejectIf (state.vocabularySize ≤ tokenId) (.tokenOutOfRange "generated_token_ids"
    state.generatedTokenIds.length tokenId state.vocabularySize)
  pure (!(state.stopConditionsEnabled && (state.request.eosTokenIds.contains tokenId ||
    state.request.stopTokenIds.contains tokenId)))

/-- The bytes of a token, or nothing where it is hidden. -/
def decodeToken (index : Nat) (tokenId : Nat) :
    IterationM K ρ τ ℓ (Option (List UInt8)) := do
  if ← onState index .acceptanceFailed (tokenNeedsDecoding tokenId) then do
    let request ← readRequest index
    let (bytes, state) ← fromExcept
      ((model.decodeTokenBytes tokenId request.tokenDecodeState).mapError .decodingFailed)
    modify (·.setRequest index { request with tokenDecodeState := state })
    pure (some bytes)
  else pure none

/-- The request accepts its token. -/
def publishToken (index : Nat) (tokenId : Nat) (logprob : Option (TokenLogprob ℓ)) :
    IterationM K ρ τ ℓ Unit := do
  let decoded ← decodeToken model index tokenId
  let generated ← onState index .acceptanceFailed (acceptToken tokenId decoded)
  let request ← readRequest index
  let stop := generated.finishReason ∈ [some .eos, some .stopToken, some .stopString]
  modify fun backend =>
    { backend with
      samples := backend.samples ++ [⟨tokenId, stop⟩]
      pendingTokens := backend.pendingTokens ++
        [⟨request.schedulerId, tokenId, generated.textDelta, logprob⟩] }

def sampleSlot (backend : SamplingBackend) (slot : Nat) : IterationM K ρ τ ℓ Unit := do
  let index ← requestOf plan slot
  let (tokenId, logprob) ← chooseToken model downloaded backend index slot
  advanceGrammar model index tokenId
  publishToken model index tokenId logprob

def sampleIteration (backend : SamplingBackend) : IterationM K ρ τ ℓ Unit := do
  modify fun backend => { backend with samples := [], pendingTokens := [] }
  forEach plan.outputSlots (sampleSlot model plan downloaded backend)

end Sampling

end Riley.Server
