import Riley.Library.Entries
import Riley.Server.Domain

/-!
The completions endpoint: what a response and the chunks of a stream hold, the
collector that checks committed tokens on both paths, and the encoder that turns
events into chunks. A frame is known by the value that it serializes, and an
operation that fails leaves what it works on as it was.
-/

namespace Riley.Server

open Utf8 (Text)

variable {F : Type}

section Errors

inductive ValidationErrorCode
  | invalidValue
  | unsupportedParameter
  | tooLarge
  | tooMany
  deriving DecidableEq, Repr

def ValidationErrorCode.asStr : ValidationErrorCode → String
  | .invalidValue => "invalid_value"
  | .unsupportedParameter => "unsupported_parameter"
  | .tooLarge => "request_too_large"
  | .tooMany => "too_many_values"

structure ValidationError where
  parameter : String
  code : ValidationErrorCode
  message : String
  deriving DecidableEq, Repr

inductive ApiError
  | invalidRequest (source : ValidationError)
  | backendInvalidRequest
  | overloaded
  | timeout
  | shuttingDown
  | cancelled
  | internal
  deriving DecidableEq, Repr

structure ErrorObject where
  message : String
  kind : String
  param : Option String
  code : String
  deriving DecidableEq, Repr

namespace ApiError

def response : ApiError → ErrorObject
  | invalidRequest source =>
      ⟨source.message, "invalid_request_error", some source.parameter, source.code.asStr⟩
  | backendInvalidRequest =>
      ⟨"the request is incompatible with the loaded model", "invalid_request_error", none,
        "invalid_request"⟩
  | overloaded =>
      ⟨"the server is at capacity; retry later", "server_error", none, "overloaded"⟩
  | timeout => ⟨"the request timed out", "server_error", none, "timeout"⟩
  | shuttingDown =>
      ⟨"the server is shutting down", "server_error", none, "server_shutting_down"⟩
  | cancelled => ⟨"the request was cancelled", "server_error", none, "request_cancelled"⟩
  | internal =>
      ⟨"the server encountered an internal error", "server_error", none, "internal_error"⟩

def fromClass : ServiceErrorClass → ApiError
  | .invalidRequest => backendInvalidRequest
  | .overloaded => overloaded
  | .timeout => timeout
  | .shuttingDown => shuttingDown
  | .cancelled => cancelled
  | .internal => internal

end ApiError

end Errors

section Bodies

inductive CompletionFinishReason
  | stop
  | length
  deriving DecidableEq, Repr

/-- A reason that must be shown as an error. -/
structure UnsupportedFinishReason where
  reason : FinishReason
  deriving DecidableEq, Repr

def CompletionFinishReason.tryFrom :
    FinishReason → Except UnsupportedFinishReason CompletionFinishReason
  | .stop => .ok stop
  | .length => .ok length
  | .cancelled => .error ⟨.cancelled⟩
  | .error => .error ⟨.error⟩

structure CompletionUsage where
  promptTokens : Nat
  completionTokens : Nat
  totalTokens : Nat
  /-- Present when the prefix cache served part of the prompt. -/
  cachedTokens : Option Nat
  deriving DecidableEq, Repr

def CompletionUsage.ofUsage (usage : TokenUsage) : CompletionUsage where
  promptTokens := usage.promptTokens
  completionTokens := usage.completionTokens
  totalTokens := usage.totalTokens
  cachedTokens := if usage.cachedPromptTokens ≠ 0 then some usage.cachedPromptTokens else none

structure ChatToken (F : Type) where
  token : Text
  logprob : F
  bytes : List UInt8
  deriving DecidableEq, Repr

structure LegacyLogprobs (F : Type) where
  tokens : List Text
  tokenLogprobs : List F
  topLogprobs : List (List (Text × F))
  textOffset : List Nat
  deriving DecidableEq, Repr

inductive LogprobsValue (F : Type)
  /-- Each token, with the most likely ones at its place. -/
  | chat (content : List (ChatToken F × List (ChatToken F)))
  | legacy (arrays : LegacyLogprobs F)
  deriving DecidableEq, Repr

structure CompletionChoice (F : Type) where
  text : Text
  index : Nat
  logprobs : Option (LogprobsValue F)
  finishReason : CompletionFinishReason
  tokenIds : Option (List Nat)
  promptTokenIds : Option (List Nat)
  deriving DecidableEq, Repr

structure CompletionResponse (F : Type) where
  id : Text
  object : String
  created : Nat
  model : Text
  choices : List (CompletionChoice F)
  usage : CompletionUsage
  deriving DecidableEq, Repr

def completionObject : String := "text_completion"

def CompletionResponse.new (metadata : RequestMetadata) (text : Text) (reason : FinishReason)
    (usage : TokenUsage) : Except UnsupportedFinishReason (CompletionResponse F) := do
  let finishReason ← CompletionFinishReason.tryFrom reason
  pure
    { id := metadata.requestId
      object := completionObject
      created := metadata.createdUnixSeconds
      model := metadata.modelId
      choices := [⟨text, 0, none, finishReason, none, none⟩]
      usage := .ofUsage usage }

structure CompletionChunkChoice (F : Type) where
  text : Text
  index : Nat
  logprobs : Option (LogprobsValue F)
  /-- Present in the finish chunk only. -/
  finishReason : Option CompletionFinishReason
  tokenIds : Option (List Nat)
  promptTokenIds : Option (List Nat)
  deriving DecidableEq, Repr

structure CompletionChunk (F : Type) where
  id : Text
  object : String
  created : Nat
  model : Text
  choices : List (CompletionChunkChoice F)
  usage : Option CompletionUsage
  deriving DecidableEq, Repr

namespace CompletionChunk

def new (metadata : RequestMetadata) (text : Text)
    (finishReason : Option CompletionFinishReason) : CompletionChunk F where
  id := metadata.requestId
  object := completionObject
  created := metadata.createdUnixSeconds
  model := metadata.modelId
  choices := [⟨text, 0, none, finishReason, none, none⟩]
  usage := none

def delta (metadata : RequestMetadata) (text : Text) : CompletionChunk F :=
  new metadata text none

def finish (metadata : RequestMetadata) (reason : CompletionFinishReason) : CompletionChunk F :=
  new metadata [] (some reason)

end CompletionChunk

end Bodies

section Logprobs

inductive LogprobShape
  /-- The arrays of the completions endpoint. -/
  | legacy
  /-- One entry for each token. -/
  | chat
  deriving DecidableEq, Repr

def tokenText (bytes : List UInt8) : Text := Utf8.fromUtf8Lossy bytes

def chatToken (token : TokenProbability F) : ChatToken F :=
  ⟨tokenText token.bytes, token.logprob, token.bytes⟩

/-- The characters before each token, from an offset on. -/
def textOffsets : Nat → List (TokenLogprob F) → List Nat
  | _, [] => []
  | offset, token :: rest =>
      offset :: textOffsets (offset + (tokenText token.chosen.bytes).length) rest

/-- The alternatives of a token, by their texts. -/
def topEntry (token : TokenLogprob F) : List (Text × F) :=
  Entries.collect (token.top.map fun entry => (tokenText entry.bytes, entry.logprob))

def legacyLogprobs (tokens : List (TokenLogprob F)) : LegacyLogprobs F where
  tokens := tokens.map fun token => tokenText token.chosen.bytes
  tokenLogprobs := tokens.map fun token => token.chosen.logprob
  topLogprobs := tokens.map topEntry
  textOffset := textOffsets 0 tokens

def logprobsValue (shape : LogprobShape) (tokens : List (TokenLogprob F)) : LogprobsValue F :=
  match shape with
  | .chat => .chat (tokens.map fun token => (chatToken token.chosen, token.top.map chatToken))
  | .legacy => .legacy (legacyLogprobs tokens)

end Logprobs

section Collector

structure CompletionTokenCollector (F : Type) where
  enabled : Bool
  exposeTokenIds : Bool
  logprobShape : Option LogprobShape
  logprobs : List (TokenLogprob F)
  maximumOutputTokens : Nat
  maximumPromptTokens : Nat
  promptTokenIds : Option (List Nat)
  tokenIds : List Nat
  deriving DecidableEq, Repr

inductive TokenObservationError
  | inconsistent
  deriving DecidableEq, Repr

namespace CompletionTokenCollector

def new (enabled : Bool) (maximumOutputTokens maximumPromptTokens : Nat) :
    CompletionTokenCollector F where
  enabled := enabled
  exposeTokenIds := enabled
  logprobShape := none
  logprobs := []
  maximumOutputTokens := maximumOutputTokens
  maximumPromptTokens := maximumPromptTokens
  promptTokenIds := none
  tokenIds := []

def withResponseOptions (collector : CompletionTokenCollector F) (exposeTokenIds : Bool)
    (logprobShape : Option LogprobShape) : CompletionTokenCollector F :=
  { collector with exposeTokenIds, logprobShape }

/-- The prompt comes with the first token, and only there. -/
def observePrompt (collector : CompletionTokenCollector F) :
    Option (List Nat) → Except TokenObservationError (CompletionTokenCollector F)
  | none => .ok collector
  | some prompt =>
      if prompt = [] ∨ collector.maximumPromptTokens < prompt.length ∨
          collector.promptTokenIds.isSome then .error .inconsistent
      else .ok { collector with promptTokenIds := some prompt }

def observe (collector : CompletionTokenCollector F) :
    GenerationEvent F → Except TokenObservationError (CompletionTokenCollector F)
  | .tokenDelta _ => if collector.enabled then .error .inconsistent else .ok collector
  | .committedToken _ tokenId generatedIndex promptTokenIds logprob =>
      if !collector.enabled ∨ generatedIndex ≠ collector.tokenIds.length ∨
          collector.maximumOutputTokens ≤ collector.tokenIds.length ∨
          collector.tokenIds.isEmpty ≠ promptTokenIds.isSome then .error .inconsistent
      else do
        let collector ← collector.observePrompt promptTokenIds
        pure
          { collector with
            tokenIds := collector.tokenIds ++ [tokenId]
            logprobs := collector.logprobs ++ logprob.toList }
  | .finished .. | .failed _ => .ok collector

def validateUsage (collector : CompletionTokenCollector F) (usage : TokenUsage) :
    Except TokenObservationError Unit :=
  if collector.enabled ∧ (collector.tokenIds.length ≠ usage.completionTokens ∨
      collector.promptTokenIds.all (·.length ≠ usage.promptTokens)) then .error .inconsistent
  else .ok ()

def attach (collector : CompletionTokenCollector F) (response : CompletionResponse F) :
    CompletionResponse F :=
  let withLogprobs (choice : CompletionChoice F) : CompletionChoice F :=
    match collector.logprobShape with
    | none => choice
    | some shape => { choice with logprobs := some (logprobsValue shape collector.logprobs) }
  let withTokenIds (choice : CompletionChoice F) : CompletionChoice F :=
    if collector.enabled && collector.exposeTokenIds then
      { choice with tokenIds := some collector.tokenIds, promptTokenIds := collector.promptTokenIds }
    else choice
  { response with choices := response.choices.modifyHead (withTokenIds ∘ withLogprobs) }

end CompletionTokenCollector

end Collector

section Encoder

inductive SseStreamPhase
  | open
  | finished
  | failed
  | done
  deriving DecidableEq, Repr

inductive SseEncodingError
  | invalidTransition (operation : String) (phase : SseStreamPhase)
  | unsupportedFinish (source : UnsupportedFinishReason)
  | tokenObservation (source : TokenObservationError)
  deriving DecidableEq, Repr

inductive SseFrame (F : Type)
  | chunk (value : CompletionChunk F)
  | error (value : ErrorObject)
  | done
  deriving DecidableEq, Repr

structure SseStreamEncoder (F : Type) where
  metadata : RequestMetadata
  phase : SseStreamPhase
  tokens : CompletionTokenCollector F
  includeUsage : Bool
  deriving DecidableEq, Repr

namespace SseStreamEncoder

def new (metadata : RequestMetadata) : SseStreamEncoder F where
  metadata := metadata
  phase := .open
  tokens := .new false 0 0
  includeUsage := false

def newWithOptions (metadata : RequestMetadata) (includeTokenIds includeUsage : Bool)
    (maximumOutputTokens maximumPromptTokens : Nat) : SseStreamEncoder F where
  metadata := metadata
  phase := .open
  tokens := .new includeTokenIds maximumOutputTokens maximumPromptTokens
  includeUsage := includeUsage

def withResponseOptions (encoder : SseStreamEncoder F) (exposeTokenIds : Bool)
    (logprobShape : Option LogprobShape) : SseStreamEncoder F :=
  { encoder with tokens := encoder.tokens.withResponseOptions exposeTokenIds logprobShape }

def requirePhase (encoder : SseStreamEncoder F) (operation : String)
    (required : SseStreamPhase) : Except SseEncodingError Unit :=
  if encoder.phase = required then .ok ()
  else .error (.invalidTransition operation encoder.phase)

def encodeDelta (encoder : SseStreamEncoder F) (text : Text) :
    Except SseEncodingError (SseFrame F) := do
  encoder.requirePhase "token delta" .open
  if encoder.tokens.enabled then .error (.tokenObservation .inconsistent)
  else .ok (.chunk (.delta encoder.metadata text))

def encodeFinishFrame (encoder : SseStreamEncoder F) (reason : FinishReason) :
    Except SseEncodingError (SseStreamEncoder F × SseFrame F) := do
  encoder.requirePhase "finish" .open
  let reason ← (CompletionFinishReason.tryFrom reason).mapError .unsupportedFinish
  .ok ({ encoder with phase := .finished }, .chunk (.finish encoder.metadata reason))

def encodeFinish (encoder : SseStreamEncoder F) (reason : FinishReason) :
    Except SseEncodingError (SseStreamEncoder F × SseFrame F) := do
  encoder.requirePhase "finish" .open
  if encoder.tokens.enabled || encoder.includeUsage then .error (.tokenObservation .inconsistent)
  else encoder.encodeFinishFrame reason

def encodeError (encoder : SseStreamEncoder F) (error : ApiError) :
    Except SseEncodingError (SseStreamEncoder F × SseFrame F) := do
  encoder.requirePhase "error" .open
  .ok ({ encoder with phase := .failed }, .error error.response)

/-- The chunk of a committed token, with what the request asked to see of it. -/
def committedChunk (encoder : SseStreamEncoder F) (text : Text) (tokenId : Nat)
    (promptTokenIds : Option (List Nat)) (logprob : Option (TokenLogprob F)) :
    CompletionChunk F :=
  let shown (choice : CompletionChunkChoice F) : CompletionChunkChoice F :=
    if encoder.tokens.exposeTokenIds then
      { choice with tokenIds := some [tokenId], promptTokenIds := promptTokenIds }
    else choice
  let weighed (choice : CompletionChunkChoice F) : CompletionChunkChoice F :=
    match encoder.tokens.logprobShape, logprob with
    | some shape, some logprob => { choice with logprobs := some (logprobsValue shape [logprob]) }
    | _, _ => choice
  let chunk := CompletionChunk.delta encoder.metadata text
  { chunk with choices := chunk.choices.modifyHead (weighed ∘ shown) }

/-- The chunk that carries the usage alone. -/
def usageChunk (encoder : SseStreamEncoder F) (usage : TokenUsage) : CompletionChunk F :=
  let chunk : CompletionChunk F := .new encoder.metadata [] none
  { chunk with choices := [], usage := some (.ofUsage usage) }

def encodeEvent (encoder : SseStreamEncoder F) (event : GenerationEvent F) :
    Except SseEncodingError (SseStreamEncoder F × List (SseFrame F)) := do
  encoder.requirePhase "generation event" .open
  let tokens ← (encoder.tokens.observe event).mapError .tokenObservation
  let encoder := { encoder with tokens }
  match event with
  | .tokenDelta text =>
      let frame ← encoder.encodeDelta text
      .ok (encoder, [frame])
  | .committedToken text tokenId _ promptTokenIds logprob =>
      .ok (encoder, [.chunk (encoder.committedChunk text tokenId promptTokenIds logprob)])
  | .finished .cancelled _ => do
      let (encoder, frame) ← encoder.encodeError .cancelled
      .ok (encoder, [frame])
  | .finished .error _ => do
      let (encoder, frame) ← encoder.encodeError .internal
      .ok (encoder, [frame])
  | .finished reason usage => do
      (encoder.tokens.validateUsage usage).mapError .tokenObservation
      let usageFrames :=
        if encoder.includeUsage then [.chunk (encoder.usageChunk usage)] else []
      let (encoder, frame) ← encoder.encodeFinishFrame reason
      .ok (encoder, frame :: usageFrames)
  | .failed errorClass => do
      let (encoder, frame) ← encoder.encodeError (.fromClass errorClass)
      .ok (encoder, [frame])

def encodeDone (encoder : SseStreamEncoder F) :
    Except SseEncodingError (SseStreamEncoder F × SseFrame F) :=
  if encoder.phase = .finished ∨ encoder.phase = .failed then
    .ok ({ encoder with phase := .done }, .done)
  else .error (.invalidTransition "done" encoder.phase)

/-- The frames of a sequence of events. -/
def encodeAll (encoder : SseStreamEncoder F) :
    List (GenerationEvent F) → Except SseEncodingError (SseStreamEncoder F × List (SseFrame F))
  | [] => .ok (encoder, [])
  | event :: rest => do
      let (encoder, frames) ← encoder.encodeEvent event
      let (encoder, more) ← encoder.encodeAll rest
      .ok (encoder, frames ++ more)

end SseStreamEncoder

end Encoder

end Riley.Server
