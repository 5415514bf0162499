import Riley.Generation.StopState
import Riley.Library.Trace

/-!
State of one autoregressive generation request: its token history, its stop
decisions and the text it has made visible. The random stream is left out
apart from the check of its inputs, and so are log-probabilities; floating
point enters through the check of the sampling parameters.
-/

namespace Riley.Generation

open Outcome
open Utf8 (Text)

/-- Sampling parameters, known by their check against a vocabulary size. -/
structure SamplingParams where
  validate : Nat → Except SamplingError Unit

structure GenerationRequest where
  requestId : Bytes
  seed : Nat
  promptTokenIds : List Nat
  samplingParams : SamplingParams
  minNewTokens : Nat
  maxNewTokens : Nat
  eosTokenIds : List Nat
  stopTokenIds : List Nat
  stopStrings : List Text

def validateTokenIds (field : String) (tokenIds : List Nat) (vocabularySize : Nat) :
    Except GenerationError Unit :=
  match tokenIds.findIdx? (vocabularySize ≤ ·) with
  | none => .ok ()
  | some index =>
      .error (.tokenOutOfRange field index (tokenIds.getD index 0) vocabularySize)

def invalidIf (condition : Prop) [Decidable condition] (field reason : String) :
    Except GenerationError Unit :=
  if condition then .error (.invalidConfiguration field reason) else .ok ()

def GenerationRequest.validate (request : GenerationRequest) (vocabularySize : Nat) :
    Except GenerationError Unit := do
  (request.samplingParams.validate vocabularySize).mapError .sampling
  invalidIf (request.requestId = []) "request_id" "must not be empty"
  invalidIf (request.promptTokenIds = []) "prompt_token_ids" "must not be empty"
  invalidIf (request.maxNewTokens < request.minNewTokens)
    "min_new_tokens" "must not exceed max_new_tokens"
  invalidIf ([] ∈ request.stopStrings) "stop_strings" "must not contain an empty string"
  validateTokenIds "prompt_token_ids" request.promptTokenIds vocabularySize
  validateTokenIds "eos_token_ids" request.eosTokenIds vocabularySize
  validateTokenIds "stop_token_ids" request.stopTokenIds vocabularySize

structure GenerationState where
  request : GenerationRequest
  vocabularySize : Nat
  maximumDecodedTokenBytes : Nat
  generatedTokenIds : List Nat
  historyTokenIds : List Nat
  maskedFinishTokenIds : List Nat
  stopState : StopState
  finishReason : Option FinishReason
  failure : Option GenerationError

abbrev GenerationM := EStateM GenerationError GenerationState

def keepNew (tokenIds : List Nat) : List Nat → List Nat
  | [] => tokenIds
  | tokenId :: rest =>
      keepNew (if tokenId ∈ tokenIds then tokenIds else tokenIds ++ [tokenId]) rest

/-- The ids of the end and stop tokens, each once. -/
def collectMaskedFinishIds (request : GenerationRequest) : Except GenerationError (List Nat) :=
  match checkedAdd usizeMax request.eosTokenIds.length request.stopTokenIds.length with
  | none => .error (.arithmeticOverflow "masked finish token count")
  | some _ => .ok (keepNew [] (request.eosTokenIds ++ request.stopTokenIds))

/-- The random stream takes an identity of at most `u32::MAX` bytes. -/
def rngAccepts (requestId : Bytes) : Except GenerationError Unit :=
  if u32Max < requestId.length then .error (.rng requestId.length) else .ok ()

def orOverflow (value : Option Nat) (field : String) : Except GenerationError Nat :=
  match value with
  | some total => .ok total
  | none => .error (.arithmeticOverflow field)

def GenerationState.new (request : GenerationRequest)
    (vocabularySize maximumDecodedTokenBytes : Nat) : Except GenerationError GenerationState := do
  request.validate vocabularySize
  invalidIf (maximumDecodedTokenBytes = 0) "maximum_decoded_token_bytes" "must be non-zero"
  let _ ← orOverflow (checkedAdd usizeMax request.promptTokenIds.length request.maxNewTokens)
    "history token count"
  let maximumOutputBytes ←
    orOverflow (checkedMul usizeMax request.maxNewTokens maximumDecodedTokenBytes)
      "decoded output bytes"
  let maskedFinishTokenIds ← collectMaskedFinishIds request
  rngAccepts request.requestId
  pure
    { request := request
      vocabularySize := vocabularySize
      maximumDecodedTokenBytes := maximumDecodedTokenBytes
      generatedTokenIds := []
      historyTokenIds := request.promptTokenIds
      maskedFinishTokenIds := maskedFinishTokenIds
      stopState := StopState.new request.stopStrings maximumOutputBytes
      finishReason := if request.maxNewTokens = 0 then some .length else none
      failure := none }

namespace GenerationState

/-- Whether end tokens, stop tokens and stop strings end the request. -/
def stopConditionsEnabled (state : GenerationState) : Bool :=
  state.request.minNewTokens ≤ state.generatedTokenIds.length

def isEos (state : GenerationState) (tokenId : Nat) : Bool :=
  state.stopConditionsEnabled && state.request.eosTokenIds.contains tokenId

def isStopToken (state : GenerationState) (tokenId : Nat) : Bool :=
  state.stopConditionsEnabled && state.request.stopTokenIds.contains tokenId &&
    !state.isEos tokenId

/-- The ids to keep from being sampled while the gate is closed. -/
def finishTokensMasked (state : GenerationState) : List Nat :=
  if state.stopConditionsEnabled then [] else state.maskedFinishTokenIds

end GenerationState

def preStep : GenerationM Unit := do
  let state ← get
  match state.finishReason with
  | some reason => throw (.alreadyFinished reason)
  | none => pure ()

/-- The failure is kept and is final. -/
def fail {α : Type} (error : GenerationError) : GenerationM α := do
  modify fun state => { state with finishReason := some .error, failure := some error }
  throw error

/-- Runs an action of the stop state. Its failure fails the request. -/
def onStopState {α : Type} (action : StopM α) : GenerationM α := do
  match ← attempt (zoom GenerationState.stopState
      (fun stopState state => { state with stopState := stopState }) id action) with
  | .ok value => pure value
  | .error error => fail error

def validateGeneratedToken (tokenId : Nat) : GenerationM Unit := do
  let state ← get
  if tokenId < state.vocabularySize then
    pure ()
  else
    fail (.tokenOutOfRange "generated_token_ids" state.generatedTokenIds.length tokenId
      state.vocabularySize)

structure GeneratedToken where
  tokenId : Nat
  textDelta : Text
  finishReason : Option FinishReason
  deriving DecidableEq, Repr

/-- The bytes that a token adds to the output. -/
def visibleBytes (tokenId : Nat) (decodedBytes : Option Bytes) : GenerationM Bytes := do
  let state ← get
  if state.isEos tokenId || state.isStopToken tokenId then
    pure []
  else
    match decodedBytes with
    | none => fail (.decodedBytesRequired tokenId)
    | some bytes =>
        if state.maximumDecodedTokenBytes < bytes.length then
          fail (.decodedTokenTooLong tokenId bytes.length state.maximumDecodedTokenBytes)
        else
          pure bytes

/-- Ends the request at a hidden end or stop token. -/
def finishHidden (isEos : Bool) : GenerationM Unit := do
  onStopState do
    clearDelta
    finishPending
  modify fun state =>
    { state with finishReason := some (if isEos then .eos else .stopToken) }

def pushVisible (bytes : Bytes) : GenerationM Unit := do
  let state ← get
  let reachesLength := state.generatedTokenIds.length + 1 = state.request.maxNewTokens
  let matchedStop ← onStopState (push bytes state.stopConditionsEnabled reachesLength)
  if matchedStop then
    modify fun state => { state with finishReason := some .stopString }
  else
    runIf reachesLength (modify fun state => { state with finishReason := some .length })

def acceptToken (tokenId : Nat) (decodedBytes : Option Bytes) : GenerationM GeneratedToken := do
  preStep
  validateGeneratedToken tokenId
  let state ← get
  let bytes ← visibleBytes tokenId decodedBytes
  if state.isEos tokenId || state.isStopToken tokenId then
    finishHidden (state.isEos tokenId)
  else
    pushVisible bytes
  modify fun state => { state with
    generatedTokenIds := state.generatedTokenIds ++ [tokenId]
    historyTokenIds := state.historyTokenIds ++ [tokenId] }
  let state ← get
  pure
    { tokenId := tokenId
      textDelta := state.stopState.lastDelta
      finishReason := state.finishReason }

/-- Ends the request between two tokens and shows the text held back as a
possible stop string. -/
def cancel : GenerationM Text := do
  preStep
  onStopState do
    clearDelta
    finishPending
  modify fun state => { state with finishReason := some .cancelled }
  let state ← get
  pure state.stopState.lastDelta

def markFailed : GenerationM Bool := do
  let state ← get
  if state.finishReason = some .error then
    pure false
  else do
    modify fun state => { state with finishReason := some .error }
    pure true

/-- What one call takes in and gives out: the bytes of an accepted token and
the text released. -/
structure Exchange where
  token : Option Bytes
  delta : Text

/-- The bytes that an accepted token has added to the output. -/
def GenerationState.addedBytes (state : GenerationState) (tokenId : Nat)
    (decodedBytes : Option Bytes) : Bytes :=
  if state.isEos tokenId || state.isStopToken tokenId then [] else decodedBytes.getD []

/-- One call on a request. -/
inductive Step : GenerationState → List Exchange → GenerationState → Prop
  | accepted {state now : GenerationState} {tokenId : Nat} {decodedBytes : Option Bytes}
      {token : GeneratedToken} (h : acceptToken tokenId decodedBytes state = .ok token now) :
      Step state [⟨some (state.addedBytes tokenId decodedBytes), token.textDelta⟩] now
  | refused {state now : GenerationState} {tokenId : Nat} {decodedBytes : Option Bytes}
      {error : GenerationError} (h : acceptToken tokenId decodedBytes state = .error error now) :
      Step state [] now
  | cancelled {state now : GenerationState} {delta : Text} (h : cancel state = .ok delta now) :
      Step state [⟨none, delta⟩] now
  | kept {state now : GenerationState} {error : GenerationError}
      (h : cancel state = .error error now) : Step state [] now
  | failed {state now : GenerationState} {changed : Bool}
      (h : markFailed state = .ok changed now) : Step state [] now

/-- The token byte strings of a run. -/
def acceptedBytes (exchanges : List Exchange) : List Bytes := exchanges.filterMap (·.token)

/-- The text released by a run. -/
def releasedText (exchanges : List Exchange) : Text := exchanges.flatMap (·.delta)

end Riley.Generation
