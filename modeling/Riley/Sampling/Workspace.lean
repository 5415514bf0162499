import Mathlib.Order.WithBot
import Riley.Sampling.Logits

/-!
The sampler: constraints, one repetition penalty for each token of the history,
temperature, top-k, top-p, normalization and a categorical draw that goes through
the tokens by id. The buffers are those of the vocabulary and are used again for
each row; a logit is at the bottom where its token is masked.
-/

namespace Riley.Sampling

open Outcome

/-- The reusable buffers; the one that only raw log-probabilities use is left out. -/
structure SamplingWorkspace (K : Type) where
  processedLogits : List (WithBot K)
  probabilities : List K
  logProbabilities : List (WithBot K)
  candidateIds : List Nat
  historySeen : List Bool
  deriving DecidableEq

abbrev SamplingM (K : Type) := EStateM (SamplingError K) (SamplingWorkspace K)

structure ProcessedDistribution (K : Type) where
  processedLogits : List (WithBot K)
  probabilities : List K
  logProbabilities : List (WithBot K)
  greedy : Bool
  supportSize : Nat
  greedyToken : Option Nat
  deriving DecidableEq

structure SamplingResult (K : Type) where
  tokenId : Nat
  probability : K
  logProbability : WithBot K
  deriving DecidableEq

/-- `u32::try_from`, or else the greatest. -/
def u32OrMax (value : Nat) : Nat := min value u32Max

variable {K : Type} [Field K] [LinearOrder K]

namespace SamplingWorkspace

def new (vocabularySize : Nat) : Except (SamplingError K) (SamplingWorkspace K) := do
  errorIf (vocabularySize = 0) .emptyVocabulary
  errorIf (u32Max < vocabularySize - 1) (.vocabularyTooLarge vocabularySize)
  .ok
    { processedLogits := List.replicate vocabularySize ⊥
      probabilities := List.replicate vocabularySize 0
      logProbabilities := List.replicate vocabularySize ⊥
      candidateIds := List.replicate vocabularySize 0
      historySeen := List.replicate vocabularySize false }

def vocabularySize (workspace : SamplingWorkspace K) : Nat := workspace.processedLogits.length

/-- The candidate ids beyond the count of a row are those of an earlier row. -/
def cleared (workspace : SamplingWorkspace K) : SamplingWorkspace K :=
  { workspace with
    processedLogits := workspace.processedLogits.map fun _ => ⊥
    probabilities := workspace.probabilities.map fun _ => 0
    logProbabilities := workspace.logProbabilities.map fun _ => ⊥
    historySeen := workspace.historySeen.map fun _ => false }

def logit (workspace : SamplingWorkspace K) (tokenId : Nat) : WithBot K :=
  workspace.processedLogits.getD tokenId ⊥

/-- The logit of a candidate, which is finite. -/
def value (workspace : SamplingWorkspace K) (tokenId : Nat) : K :=
  (workspace.logit tokenId).unbotD 0

def setLogit (tokenId : Nat) (logit : WithBot K) (workspace : SamplingWorkspace K) :
    SamplingWorkspace K :=
  { workspace with processedLogits := workspace.processedLogits.set tokenId logit }

/-- Changes a logit that is finite. -/
def mapLogit (change : K → K) (tokenId : Nat) (workspace : SamplingWorkspace K) :
    SamplingWorkspace K :=
  workspace.setLogit tokenId ((workspace.logit tokenId).map change)

/-- Takes the allowed tokens of a row from a token on and counts the candidates. -/
def collect (constraints : TokenConstraints) :
    Nat → List UInt16 → Nat → SamplingWorkspace K → Nat × SamplingWorkspace K
  | _, [], count, workspace => (count, workspace)
  | tokenId, bits :: rest, count, workspace =>
      if constraints.allows tokenId then
        collect constraints (tokenId + 1) rest (count + 1)
          { workspace.setLogit tokenId (decodeFiniteBf16 K bits) with
            candidateIds := workspace.candidateIds.set count tokenId }
      else collect constraints (tokenId + 1) rest count workspace

def penalized (penalty logit : K) : K :=
  if 0 < logit then logit / penalty else if logit < 0 then logit * penalty else logit

def penalizeHistory (penalty : K) : List Nat → SamplingWorkspace K → SamplingWorkspace K
  | [], workspace => workspace
  | tokenId :: rest, workspace =>
      if workspace.historySeen.getD tokenId false then penalizeHistory penalty rest workspace
      else
        penalizeHistory penalty rest
          { workspace.mapLogit (penalized penalty) tokenId with
            historySeen := workspace.historySeen.set tokenId true }

def scale (factor : K) (workspace : SamplingWorkspace K) (tokenIds : List Nat) :
    SamplingWorkspace K :=
  tokenIds.foldl (fun workspace tokenId => workspace.mapLogit (· * factor) tokenId) workspace

/-- Masks the tokens of a list. -/
def withdraw (workspace : SamplingWorkspace K) (tokenIds : List Nat) : SamplingWorkspace K :=
  tokenIds.foldl (fun workspace tokenId => workspace.setLogit tokenId ⊥) workspace

/-- Greater logits first, and the lower id of equal ones. -/
def ranksBefore (workspace : SamplingWorkspace K) (left right : Nat) : Bool :=
  workspace.logit right < workspace.logit left ||
    workspace.logit right = workspace.logit left && left ≤ right

def sortCandidates (count : Nat) (workspace : SamplingWorkspace K) : SamplingWorkspace K :=
  { workspace with
    candidateIds := (workspace.candidateIds.take count).mergeSort workspace.ranksBefore ++
      workspace.candidateIds.drop count }

/-- How many weights are needed to reach a threshold; at least one is taken. -/
def retainedCount (threshold : K) : K → List K → Nat
  | _, [] => 0
  | cumulative, weight :: rest =>
      if threshold ≤ cumulative + weight then 1
      else 1 + retainedCount threshold (cumulative + weight) rest

/-- The weights of candidates against the greatest logit. -/
def weights (exp : K → K) (maximum : K) (workspace : SamplingWorkspace K) (tokenIds : List Nat) :
    List K :=
  tokenIds.map fun tokenId => exp (workspace.value tokenId - maximum)

def applyTopP (exp : K → K) (topP : K) (supportSize : Nat) (workspace : SamplingWorkspace K) :
    Nat × SamplingWorkspace K :=
  if 1 ≤ topP then (supportSize, workspace)
  else
    let candidates := workspace.candidateIds.take supportSize
    let weights := workspace.weights exp (workspace.value (candidates.headD 0)) candidates
    let retained := retainedCount (topP * weights.foldl (· + ·) 0) 0 weights
    (retained, workspace.withdraw (candidates.drop retained))

def normalize (exp ln : K → K) (supportSize : Nat) (workspace : SamplingWorkspace K) :
    SamplingWorkspace K :=
  let candidates := workspace.candidateIds.take supportSize
  let maximum := (candidates.foldl (fun maximum tokenId =>
    max maximum (workspace.logit tokenId)) ⊥).unbotD 0
  let logShiftedSum := ln ((workspace.weights exp maximum candidates).foldl (· + ·) 0)
  candidates.foldl
    (fun now tokenId =>
      let logProbability := workspace.value tokenId - maximum - logShiftedSum
      { now with
        logProbabilities := now.logProbabilities.set tokenId (logProbability : K)
        probabilities := now.probabilities.set tokenId (exp logProbability) })
    workspace

def distribution (greedy : Bool) (supportSize : Nat) (greedyToken : Option Nat)
    (workspace : SamplingWorkspace K) : ProcessedDistribution K where
  processedLogits := workspace.processedLogits
  probabilities := workspace.probabilities
  logProbabilities := workspace.logProbabilities
  greedy := greedy
  supportSize := supportSize
  greedyToken := greedyToken

/-- The better of the winner so far and a token. -/
def better (workspace : SamplingWorkspace K) (winner tokenId : Nat) : Nat :=
  if workspace.logit winner < workspace.logit tokenId ||
      workspace.logit tokenId = workspace.logit winner && tokenId < winner then tokenId
  else winner

def prepareGreedy (count : Nat) (workspace : SamplingWorkspace K) :
    ProcessedDistribution K × SamplingWorkspace K :=
  let candidates := workspace.candidateIds.take count
  let winner := candidates.tail.foldl workspace.better (candidates.headD 0)
  let workspace := workspace.withdraw (candidates.filter (· ≠ winner))
  let workspace :=
    { workspace with
      probabilities := workspace.probabilities.set winner 1
      logProbabilities := workspace.logProbabilities.set winner (0 : K) }
  (workspace.distribution true 1 (some (u32OrMax winner)), workspace)

/-- The distribution of the candidates at a positive temperature. -/
def prepareSampling (exp ln : K → K) (params : SamplingParams K) (count : Nat)
    (workspace : SamplingWorkspace K) : ProcessedDistribution K × SamplingWorkspace K :=
  let workspace :=
    workspace.scale (1 / params.temperature.checked) (workspace.candidateIds.take count)
  let workspace := workspace.sortCandidates count
  let supportSize := min (params.topK.getD count) count
  let workspace := workspace.withdraw ((workspace.candidateIds.take count).drop supportSize)
  let (supportSize, workspace) := params.topP.elim (supportSize, workspace) fun topP =>
    workspace.applyTopP exp topP.checked supportSize
  let workspace := workspace.normalize exp ln supportSize
  (workspace.distribution false supportSize none, workspace)

end SamplingWorkspace

open SamplingWorkspace

/-- Processes one row without drawing a random word. -/
def processBf16Native (endian : Endian) (exp ln : K → K) (row : List UInt8)
    (constraints : TokenConstraints) (history : List Nat) (params : SamplingParams K) :
    SamplingM K (ProcessedDistribution K) := do
  let workspace ← get
  fromExcept
    (validateInputs endian workspace.vocabularySize row constraints history params)
  modify cleared
  let count ← modifyGet (collect constraints 0 (rowBits endian row) 0)
  rejectIf (count = 0) .allMasked
  modify (penalizeHistory params.repetitionPenalty.checked history)
  if params.temperature = .finite 0 then
    modifyGet (prepareGreedy count)
  else
    modifyGet (prepareSampling exp ln params count)

/-- The token whose interval of the cumulative probability holds a number. -/
def drawFrom (uniform : K) : Nat → K → Nat → List K → Nat
  | _, _, lastSupported, [] => lastSupported
  | tokenId, cumulative, lastSupported, probability :: rest =>
      if 0 < probability then
        if uniform < cumulative + probability then u32OrMax tokenId
        else drawFrom uniform (tokenId + 1) (cumulative + probability) (u32OrMax tokenId) rest
      else drawFrom uniform (tokenId + 1) cumulative lastSupported rest

namespace ProcessedDistribution

def result (distribution : ProcessedDistribution K) (tokenId : Nat) : SamplingResult K where
  tokenId := tokenId
  probability := distribution.probabilities.getD tokenId 0
  logProbability := distribution.logProbabilities.getD tokenId ⊥

/-- Draws at most one word from the random stream of the request. -/
def sample {ε ρ : Type} (distribution : ProcessedDistribution K) (nextU32 : EStateM ε ρ Nat) :
    EStateM ε ρ (SamplingResult K) :=
  match distribution.greedyToken with
  | some tokenId => pure (distribution.result tokenId)
  | none => do
      let word ← nextU32
      pure (distribution.result
        (drawFrom (midpoint K word) 0 0 0 distribution.probabilities))

end ProcessedDistribution

end Riley.Sampling
