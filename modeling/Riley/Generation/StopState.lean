import Riley.Library.Outcome
import Riley.Library.Search
import Riley.Library.Utf8
import Riley.Machine

/-!
UTF-8 and stop-string state of one generation request. Decoded bytes that
could become a stop string, or that are not yet strict UTF-8, are withheld in
`pending`; only complete text reaches `text` and `lastDelta`.
-/

namespace Riley.Generation

open Outcome
open Search (Match)
open Utf8 (Text encode fromUtf8)

abbrev Bytes := List UInt8

inductive FinishReason
  | eos
  | stopToken
  | stopString
  | length
  | cancelled
  | error
  deriving DecidableEq, Repr

/-- Failures of the check of the sampling parameters. -/
inductive SamplingError
  | emptyVocabulary
  | vocabularyTooLarge (vocabularySize : Nat)
  | invalidTemperature
  | invalidTopK (value vocabularySize : Nat)
  | invalidTopP
  | invalidRepetitionPenalty
  deriving DecidableEq, Repr

/-- Host allocation always succeeds here, and the length of an invalid UTF-8
sequence is not reported. -/
inductive GenerationError
  | invalidConfiguration (field reason : String)
  | sampling (source : SamplingError)
  | rng (inputLength : Nat)
  | tokenOutOfRange (field : String) (index tokenId vocabularySize : Nat)
  | arithmeticOverflow (field : String)
  | decodedBytesRequired (tokenId : Nat)
  | decodedTokenTooLong (tokenId byteLen maximumByteLen : Nat)
  | invalidUtf8 (validUpTo : Nat)
  | outputCapacityExceeded (maximumBytes requestedBytes : Nat)
  | alreadyFinished (reason : FinishReason)
  deriving DecidableEq, Repr

structure StopState where
  stopStrings : List Bytes
  pending : Bytes
  text : Text
  lastDelta : Text
  maximumOutputBytes : Nat
  matchedStopStringIndex : Option Nat
  /-- Bytes before this offset of `pending` came while string stops were
  disabled and never count for a match. -/
  stopSearchStart : Nat
  deriving DecidableEq, Repr

abbrev StopM := EStateM GenerationError StopState

def StopState.new (stopStrings : List Text) (maximumOutputBytes : Nat) : StopState where
  stopStrings := stopStrings.map encode
  pending := []
  text := []
  lastDelta := []
  maximumOutputBytes := maximumOutputBytes
  matchedStopStringIndex := none
  stopSearchStart := 0

def windows (size : Nat) (bytes : Bytes) : List Bytes :=
  (List.range (bytes.length + 1 - size)).map fun start => (bytes.drop start).take size

/-- Later occurrences of the same pattern cannot complete earlier than its
first one. -/
def firstOccurrence (eligible pattern : Bytes) : Option Nat :=
  (windows pattern.length eligible).findIdx? (· = pattern)

def firstStopIn (eligible : Bytes) (stopSearchStart : Nat) :
    Nat → List Bytes → Option Match → Option Match
  | _, [], first => first
  | patternIndex, pattern :: rest, first =>
      firstStopIn eligible stopSearchStart (patternIndex + 1) rest <|
        match firstOccurrence eligible pattern with
        | none => first
        | some relativeStart =>
            let start := stopSearchStart + relativeStart
            let candidate : Match :=
              { start := start, stop := start + pattern.length, index := patternIndex }
            if first.all (candidate.before ·) then some candidate else first

def StopState.firstStopMatch (state : StopState) : Option Match :=
  if state.stopSearchStart ≤ state.pending.length then
    firstStopIn (state.pending.drop state.stopSearchStart) state.stopSearchStart 0
      state.stopStrings none
  else
    none

def longestIn (pending : Bytes) (eligibleLen : Nat) : List Bytes → Nat → Nat
  | [], longest => longest
  | pattern :: rest, longest =>
      let maximum := min eligibleLen (pattern.length - 1)
      let longer := (List.range' (longest + 1) (maximum - longest)).reverse.find? fun byteLen =>
        pending.drop (pending.length - byteLen) = pattern.take byteLen
      longestIn pending eligibleLen rest (longer.getD longest)

def StopState.longestStopPrefixSuffix (state : StopState) : Nat :=
  longestIn state.pending (state.pending.length - state.stopSearchStart) state.stopStrings 0

def clearDelta : StopM Unit := modify fun state => { state with lastDelta := [] }

def emitPrefix (byteLen : Nat) : StopM Unit :=
  runIf (byteLen ≠ 0) do
    let state ← get
    let decoded ← fromExcept ((fromUtf8 (state.pending.take byteLen)).mapError .invalidUtf8)
    modify fun state => { state with
      text := state.text ++ decoded
      lastDelta := state.lastDelta ++ decoded
      pending := state.pending.drop byteLen
      stopSearchStart := state.stopSearchStart - byteLen }

/-- How far the bytes are strict UTF-8. -/
def emitEnd (bytes : Bytes) : Nat :=
  match fromUtf8 bytes with
  | .ok _ => bytes.length
  | .error validUpTo => validUpTo

def emitValidPrefix : StopM Unit := do
  let state ← get
  emitPrefix (emitEnd state.pending)

def finishPending : StopM Unit := emitValidPrefix

/-- Bytes at and after a stop string are dropped. -/
def excludeStop (found : Match) : StopM Bool := do
  modify fun state => { state with pending := state.pending.take found.start }
  emitValidPrefix
  modify fun state => { state with matchedStopStringIndex := some found.index }
  pure true

def processPending (stopEnabled flushAtEnd : Bool) : StopM Bool := do
  let state ← get
  match if stopEnabled then state.firstStopMatch else none with
  | some found => excludeStop found
  | none =>
      if flushAtEnd then do
        finishPending
        pure false
      else do
        let overlap := if stopEnabled then state.longestStopPrefixSuffix else 0
        emitPrefix (emitEnd (state.pending.take (state.pending.length - overlap)))
        pure false

def push (decodedBytes : Bytes) (stopEnabled flushAtEnd : Bool) : StopM Bool := do
  clearDelta
  let state ← get
  let retainedBytes ← orReject
    ((checkedAdd usizeMax (encode state.text).length state.pending.length).bind
      (checkedAdd usizeMax · decodedBytes.length))
    (.arithmeticOverflow "decoded output bytes")
  rejectIf (state.maximumOutputBytes < retainedBytes)
    (.outputCapacityExceeded state.maximumOutputBytes retainedBytes)
  modify fun state => { state with pending := state.pending ++ decodedBytes }
  match ← attempt (processPending stopEnabled flushAtEnd) with
  | .ok matched => do
      -- A raw tail kept while the gate is closed never counts for a later match.
      runIf (stopEnabled = false) <|
        modify fun state => { state with stopSearchStart := state.pending.length }
      pure matched
  | .error error => do
      modify fun now => { now with
        pending := now.pending.take state.pending.length
        stopSearchStart := state.stopSearchStart }
      throw error

end Riley.Generation
