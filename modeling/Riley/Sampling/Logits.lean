import Mathlib
import Riley.Library.Outcome
import Riley.Machine

/-!
Input of the sampler: rows of BF16 logits, token constraints and parameters.
Arithmetic is exact, over an ordered field; a floating-point number is a member
of the field, an infinity or not a number.
-/

namespace Riley.Sampling

inductive Ieee (K : Type)
  | nan
  | infinite (negative : Bool)
  | finite (value : K)
  deriving DecidableEq, Repr

/-- Whether a number is finite and its value satisfies a condition. -/
def Ieee.finiteAnd {K : Type} (condition : K → Bool) : Ieee K → Bool
  | .finite value => condition value
  | _ => false

/-- The value of a number that was checked to be finite. -/
def Ieee.checked {K : Type} [Zero K] : Ieee K → K
  | .finite value => value
  | _ => 0

section Bf16

/-- The order of the bytes of a number in memory. -/
inductive Endian
  | little
  | big
  deriving DecidableEq, Repr

def fromNeBytes (endian : Endian) (first second : UInt8) : UInt16 :=
  match endian with
  | .little => UInt16.ofNat (first.toNat + 256 * second.toNat)
  | .big => UInt16.ofNat (256 * first.toNat + second.toNat)

/-- The logits of a row; a byte left over at the end belongs to none. -/
def rowBits (endian : Endian) : List UInt8 → List UInt16
  | first :: second :: rest => fromNeBytes endian first second :: rowBits endian rest
  | _ => []

def exponentField (bits : UInt16) : Nat := bits.toNat / 128 % 256

def mantissaField (bits : UInt16) : Nat := bits.toNat % 128

def isNegative (bits : UInt16) : Bool := 32768 ≤ bits.toNat

def isFiniteBf16 (bits : UInt16) : Bool := exponentField bits ≠ 255

/-- How many times `2 ^ -133`, the least positive number of the format. -/
def magnitude (bits : UInt16) : Nat :=
  if exponentField bits = 0 then mantissaField bits
  else (128 + mantissaField bits) * 2 ^ (exponentField bits - 1)

def signedMagnitude (bits : UInt16) : Int :=
  if isNegative bits then -(magnitude bits : Int) else magnitude bits

/-- The number that finite BF16 bits denote. -/
def decodeFiniteBf16 (K : Type) [Field K] (bits : UInt16) : K :=
  (signedMagnitude bits : K) / 2 ^ 133

end Bf16

/-- The middle of the interval that a random word stands for. -/
def midpoint (K : Type) [Field K] (word : Nat) : K := (word + 1 / 2) * (1 / 4294967296)

/-- Token mask applied before every other transform of the logits. -/
inductive TokenConstraints
  | allowAll
  | allowedMask (mask : List Bool)
  deriving DecidableEq, Repr

/-- Whether a token is eligible under a mask that has an entry for it. -/
def TokenConstraints.allows (constraints : TokenConstraints) (tokenId : Nat) : Bool :=
  match constraints with
  | .allowAll => true
  | .allowedMask mask => mask.getD tokenId false

structure SamplingParams (K : Type) where
  temperature : Ieee K
  topK : Option Nat
  topP : Option (Ieee K)
  repetitionPenalty : Ieee K
  deriving DecidableEq, Repr

/-- Host allocation always succeeds here. -/
inductive SamplingError (K : Type)
  | emptyVocabulary
  | vocabularyTooLarge (vocabularySize : Nat)
  | logitsLength (expectedBytes actualBytes : Nat)
  | constraintLength (expectedTokens actualTokens : Nat)
  | nonFiniteLogit (tokenId : Nat) (bf16Bits : UInt16)
  | historyTokenOutOfRange (tokenId vocabularySize : Nat)
  | invalidTemperature (value : Ieee K)
  | invalidTopK (value vocabularySize : Nat)
  | invalidTopP (value : Ieee K)
  | invalidRepetitionPenalty (value : Ieee K)
  | allMasked
  deriving DecidableEq, Repr

section Checks

variable {K : Type} [Field K] [LinearOrder K]

def errorIf (condition : Prop) [Decidable condition] (error : SamplingError K) :
    Except (SamplingError K) Unit :=
  if condition then .error error else .ok ()

def checkTopK (vocabularySize : Nat) : Option Nat → Except (SamplingError K) Unit
  | none => .ok ()
  | some topK =>
      errorIf (topK = 0 ∨ vocabularySize < topK) (.invalidTopK topK vocabularySize)

def checkTopP : Option (Ieee K) → Except (SamplingError K) Unit
  | none => .ok ()
  | some topP =>
      errorIf (topP.finiteAnd (fun value => 0 < value && value ≤ 1) = false) (.invalidTopP topP)

def SamplingParams.validate (params : SamplingParams K) (vocabularySize : Nat) :
    Except (SamplingError K) Unit := do
  errorIf (vocabularySize = 0) .emptyVocabulary
  errorIf (u32Max < vocabularySize - 1) (.vocabularyTooLarge vocabularySize)
  errorIf (params.temperature.finiteAnd (0 ≤ ·) = false) (.invalidTemperature params.temperature)
  checkTopK vocabularySize params.topK
  checkTopP params.topP
  errorIf (params.repetitionPenalty.finiteAnd (0 < ·) = false)
    (.invalidRepetitionPenalty params.repetitionPenalty)

def rowBytes (vocabularySize : Nat) : Except (SamplingError K) Nat :=
  match checkedMul usizeMax vocabularySize 2 with
  | none => .error (.vocabularyTooLarge vocabularySize)
  | some expectedBytes => .ok expectedBytes

def checkMask (vocabularySize : Nat) : TokenConstraints → Except (SamplingError K) Unit
  | .allowAll => .ok ()
  | .allowedMask mask =>
      errorIf (mask.length ≠ vocabularySize) (.constraintLength vocabularySize mask.length)

/-- The first token of the history that is not in the vocabulary is reported. -/
def checkHistory (vocabularySize : Nat) (history : List Nat) : Except (SamplingError K) Unit :=
  match history.find? (vocabularySize ≤ ·) with
  | none => .ok ()
  | some tokenId => .error (.historyTokenOutOfRange tokenId vocabularySize)

/-- The checks that both ways through the sampler begin with. -/
def checkShapes (vocabularySize : Nat) (row : List UInt8) (constraints : TokenConstraints)
    (history : List Nat) (params : SamplingParams K) : Except (SamplingError K) Unit := do
  params.validate vocabularySize
  let expectedBytes ← rowBytes vocabularySize
  errorIf (row.length ≠ expectedBytes) (.logitsLength expectedBytes row.length)
  checkMask vocabularySize constraints
  checkHistory vocabularySize history

/-- The first logit that is not finite is reported. -/
def checkFinite (logits : List UInt16) : Except (SamplingError K) Unit :=
  match logits.findIdx? (isFiniteBf16 · = false) with
  | none => .ok ()
  | some tokenId => .error (.nonFiniteLogit tokenId (logits.getD tokenId 0))

def validateInputs (endian : Endian) (vocabularySize : Nat) (row : List UInt8)
    (constraints : TokenConstraints) (history : List Nat) (params : SamplingParams K) :
    Except (SamplingError K) Unit := do
  checkShapes vocabularySize row constraints history params
  checkFinite (rowBits endian row)

end Checks

end Riley.Sampling
