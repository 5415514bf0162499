import Riley.Library.Utf8

/-!
What the execution side and the HTTP side of the server say to one another: the
data of a request that its answers repeat, and the events of its generation.
`F` is a log probability as JSON shows it.
-/

namespace Riley.Server

open Utf8 (Text)

structure TokenProbability (F : Type) where
  /-- Decoded token bytes, which may split a character. -/
  bytes : List UInt8
  logprob : F
  deriving DecidableEq, Repr

structure TokenLogprob (F : Type) where
  chosen : TokenProbability F
  /-- The most likely tokens at this position, highest first. -/
  top : List (TokenProbability F)
  deriving DecidableEq, Repr

structure RequestMetadata where
  requestId : Text
  modelId : Text
  createdUnixSeconds : Nat
  deriving DecidableEq, Repr

/-- Token counts of a completed request. The total is the sum of the first two. -/
structure TokenUsage where
  promptTokens : Nat
  completionTokens : Nat
  cachedPromptTokens : Nat
  deriving DecidableEq, Repr

namespace TokenUsage

def totalTokens (usage : TokenUsage) : Nat := usage.promptTokens + usage.completionTokens

end TokenUsage

inductive FinishReason
  | stop
  | length
  | cancelled
  | error
  deriving DecidableEq, Repr

/-- The classes of failure that may reach a client. -/
inductive ServiceErrorClass
  | invalidRequest
  | overloaded
  | timeout
  | shuttingDown
  | cancelled
  | internal
  deriving DecidableEq, Repr

inductive GenerationEvent (F : Type)
  /-- Text that has become visible. -/
  | tokenDelta (text : Text)
  /-- A token that the scheduler has committed, and the text that came with it. -/
  | committedToken (text : Text) (tokenId generatedIndex : Nat)
      (promptTokenIds : Option (List Nat)) (logprob : Option (TokenLogprob F))
  | finished (reason : FinishReason) (usage : TokenUsage)
  | failed (errorClass : ServiceErrorClass)
  deriving DecidableEq, Repr

end Riley.Server
