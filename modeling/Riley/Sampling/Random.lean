import Mathlib
import Riley.Library.Numerals
import Riley.Library.Utf8
import Riley.Machine

/-!
The random stream of a request: a counter of blocks, each of four words, under a key
and a nonce that are read off a digest. The position can be written to a snapshot and
read back. Hashing is a parameter.
-/

namespace Riley.Sampling

open Utf8 (Text)

section Errors

/-- The input whose length was refused. -/
inductive RngInput
  | stream
  | domain
  | forkLabel
  deriving DecidableEq, Repr

inductive RngError
  | inputTooLong (input : RngInput) (byteLen : Nat)
  /-- All words of the stream have been drawn. -/
  | exhausted
  | unsupportedAlgorithmId (algorithmId : Text)
  | invalidDerivationDigestHex
  | invalidBlockDecimal (block : Text)
  | wordOffsetOutOfRange (wordOffset : Nat)
  | inconsistentExhaustedState (block wordOffset : Nat)
  deriving DecidableEq, Repr

end Errors

abbrev DerivationDigest := Vector UInt8 32

def philoxAlgorithmId : Text := "riley.philox4x32-10.v1".toList

section Philox

abbrev PhiloxKey := UInt32 × UInt32
abbrev PhiloxBlock := Vector UInt32 4

/-- The high and the low half of a product. -/
def mulHiLo (lhs rhs : UInt32) : UInt32 × UInt32 :=
  let product := lhs.toUInt64 * rhs.toUInt64
  ((product >>> 32).toUInt32, product.toUInt32)

def philoxRound (counter : PhiloxBlock) (key : PhiloxKey) : PhiloxBlock :=
  let (hi0, lo0) := mulHiLo 0xd2511f53 counter[0]
  let (hi1, lo1) := mulHiLo 0xcd9e8d57 counter[2]
  #v[hi1 ^^^ counter[1] ^^^ key.1, lo1, hi0 ^^^ counter[3] ^^^ key.2, lo0]

def philoxRounds : Nat → PhiloxBlock → PhiloxKey → PhiloxBlock
  | 0, counter, _ => counter
  | rounds + 1, counter, key =>
      philoxRounds rounds (philoxRound counter key) (key.1 + 0x9e3779b9, key.2 + 0xbb67ae85)

def philox4x32_10 (counter : PhiloxBlock) (key : PhiloxKey) : PhiloxBlock :=
  philoxRounds 10 counter key

/-- The little-endian word at a place of the digest. -/
def digestWord (digest : DerivationDigest) (start : Nat) (h : start + 3 < 32) : UInt32 :=
  UInt32.ofNat (digest[start].toNat + digest[start + 1].toNat * 2 ^ 8 +
    digest[start + 2].toNat * 2 ^ 16 + digest[start + 3].toNat * 2 ^ 24)

def digestKey (digest : DerivationDigest) : PhiloxKey :=
  (digestWord digest 0 (by decide), digestWord digest 4 (by decide))

def digestNonce (digest : DerivationDigest) : UInt32 × UInt32 :=
  (digestWord digest 8 (by decide), digestWord digest 12 (by decide))

def blockCounter (block : Nat) (nonce : UInt32 × UInt32) : PhiloxBlock :=
  #v[UInt32.ofNat (block % 2 ^ 32), UInt32.ofNat (block / 2 ^ 32), nonce.1, nonce.2]

end Philox

section Derivation

variable (sha256 : List UInt8 → DerivationDigest)

/-- The bytes of a number, the lowest first. -/
def leBytes : Nat → Nat → List UInt8
  | 0, _ => []
  | count + 1, value => UInt8.ofNat (value % 256) :: leBytes count (value / 256)

def tagBytes (name : String) : List UInt8 :=
  Utf8.encode ("riley.philox4x32-10.v1/" ++ name).toList ++ [0]

def deriveSeed (masterSeed : Nat) : DerivationDigest :=
  sha256 (tagBytes "seed" ++ leBytes 8 masterSeed)

def deriveChild (tag : List UInt8) (parentDigest : DerivationDigest) (value : List UInt8)
    (input : RngInput) : Except RngError DerivationDigest :=
  if u32Max < value.length then .error (.inputTooLong input value.length)
  else .ok (sha256 (tag ++ parentDigest.toList ++ leBytes 4 value.length ++ value))

end Derivation

section Fields

def lowerHex (digit : Nat) : Char :=
  if digit < 10 then Char.ofNat (0x30 + digit) else Char.ofNat (0x61 + (digit - 10))

/-- The two digits of a byte. -/
def byteHex (byte : UInt8) : Text := [lowerHex (byte.toNat / 16), lowerHex (byte.toNat % 16)]

def digestHex (digest : DerivationDigest) : Text := digest.toList.flatMap byteHex

def isLowerHex (c : Char) : Bool := '0' ≤ c && c ≤ '9' || 'a' ≤ c && c ≤ 'f'

def hexNibble (c : Char) : Nat := if c ≤ '9' then c.toNat - 0x30 else c.toNat - 0x61 + 10

/-- The bytes of digits, two for each. -/
def readHex : Text → List UInt8
  | high :: low :: rest => UInt8.ofNat (16 * hexNibble high + hexNibble low) :: readHex rest
  | _ => []

theorem length_readHex : ∀ value : Text, (readHex value).length = value.length / 2
  | [] => rfl
  | [_] => by simp [readHex]
  | _ :: _ :: rest => by
      rw [readHex, List.length_cons, length_readHex rest, List.length_cons, List.length_cons]
      omega

/-- Every character that passes is a single byte, so that lengths in bytes are lengths. -/
def parseDigestHex (value : Text) : Except RngError DerivationDigest :=
  if h : value.length = 64 ∧ value.all isLowerHex then
    .ok ⟨(readHex value).toArray, by
      rw [List.size_toArray, length_readHex, h.1]⟩
  else .error .invalidDerivationDigestHex

def parseBlockDecimal (value : Text) : Except RngError { block : Nat // block ≤ u64Max } :=
  if h : value ≠ [] ∧ (value.length = 1 ∨ value.head? ≠ some '0') ∧ value.all Char.isDigit ∧
      Numerals.value value ≤ u64Max then .ok ⟨Numerals.value value, h.2.2.2⟩
  else .error (.invalidBlockDecimal value)

end Fields

/-- The position of the next word, in writing. -/
@[ext] structure RngSnapshot where
  algorithmId : Text
  derivationDigestHex : Text
  block : Text
  wordOffset : Nat
  exhausted : Bool
  deriving DecidableEq, Repr

/-- A stream at a position: key and nonce are those of the digest, and a stream is
exhausted at its last word only. -/
@[ext] structure Philox4x32Rng where
  derivationDigest : DerivationDigest
  key : PhiloxKey
  nonce : UInt32 × UInt32
  block : Nat
  wordOffset : Fin 4
  exhausted : Bool
  block_le : block ≤ u64Max
  key_eq : key = digestKey derivationDigest
  nonce_eq : nonce = digestNonce derivationDigest
  exhausted_end : exhausted = true → block = u64Max ∧ wordOffset = 3

namespace Philox4x32Rng

def fromValidatedState (derivationDigest : DerivationDigest) (block : Nat) (wordOffset : Fin 4)
    (exhausted : Bool) (hblock : block ≤ u64Max)
    (hexhausted : exhausted = true → block = u64Max ∧ wordOffset = 3) : Philox4x32Rng where
  derivationDigest := derivationDigest
  key := digestKey derivationDigest
  nonce := digestNonce derivationDigest
  block := block
  wordOffset := wordOffset
  exhausted := exhausted
  block_le := hblock
  key_eq := rfl
  nonce_eq := rfl
  exhausted_end := hexhausted

/-- The stream of a digest, from its first word on. -/
def start (derivationDigest : DerivationDigest) : Philox4x32Rng :=
  fromValidatedState derivationDigest 0 0 false (Nat.zero_le _) nofun

def new (sha256 : List UInt8 → DerivationDigest) (masterSeed : Nat) (stream domain : List UInt8) :
    Except RngError Philox4x32Rng := do
  let seedDigest := deriveSeed sha256 masterSeed
  let streamDigest ← deriveChild sha256 (tagBytes "stream") seedDigest stream .stream
  let derivationDigest ← deriveChild sha256 (tagBytes "domain") streamDigest domain .domain
  .ok (start derivationDigest)

def fromSnapshot (snapshot : RngSnapshot) : Except RngError Philox4x32Rng :=
  if snapshot.algorithmId ≠ philoxAlgorithmId then
    .error (.unsupportedAlgorithmId snapshot.algorithmId)
  else do
    let derivationDigest ← parseDigestHex snapshot.derivationDigestHex
    let block ← parseBlockDecimal snapshot.block
    if hword : snapshot.wordOffset > 3 then
      .error (.wordOffsetOutOfRange snapshot.wordOffset)
    else if hexhausted : snapshot.exhausted ∧ (block.val ≠ u64Max ∨ snapshot.wordOffset ≠ 3) then
      .error (.inconsistentExhaustedState block snapshot.wordOffset)
    else
      .ok (fromValidatedState derivationDigest block ⟨snapshot.wordOffset, by omega⟩
        snapshot.exhausted block.property (by
          intro h
          rw [not_and, not_or, not_ne_iff, not_ne_iff] at hexhausted
          obtain ⟨hmax, hthree⟩ := hexhausted h
          exact ⟨hmax, Fin.ext hthree⟩))

def snapshot (rng : Philox4x32Rng) : RngSnapshot where
  algorithmId := philoxAlgorithmId
  derivationDigestHex := digestHex rng.derivationDigest
  block := Nat.toDigits 10 rng.block
  wordOffset := rng.wordOffset
  exhausted := rng.exhausted

def restore (snapshot : RngSnapshot) : EStateM RngError Philox4x32Rng Unit := fun rng =>
  match fromSnapshot snapshot with
  | .ok restored => .ok () restored
  | .error error => .error error rng

def fork (sha256 : List UInt8 → DerivationDigest) (rng : Philox4x32Rng) (label : List UInt8) :
    Except RngError Philox4x32Rng := do
  let childDigest ← deriveChild sha256 (tagBytes "fork") rng.derivationDigest label .forkLabel
  .ok (start childDigest)

/-- The position behind the next word, of which there is one. -/
def advance (rng : Philox4x32Rng) (h : rng.exhausted = false) : Philox4x32Rng :=
  if hword : rng.wordOffset < 3 then
    { rng with wordOffset := rng.wordOffset + 1, exhausted_end := by simp [h] }
  else if hblock : rng.block = u64Max then
    { rng with
      exhausted := true
      exhausted_end := fun _ => ⟨hblock, by omega⟩ }
  else
    { rng with
      block := rng.block + 1
      wordOffset := 0
      block_le := Nat.lt_of_le_of_ne rng.block_le hblock
      exhausted_end := by simp [h] }

def nextU32 : EStateM RngError Philox4x32Rng UInt32 := fun rng =>
  if h : rng.exhausted then .error .exhausted rng
  else
    let words := philox4x32_10 (blockCounter rng.block rng.nonce) rng.key
    .ok (words.get rng.wordOffset) (rng.advance (Bool.eq_false_iff.mpr h))

def draws (rng : Philox4x32Rng) : Nat :=
  if rng.exhausted then (u64Max + 1) * 4 else rng.block * 4 + rng.wordOffset

/-- How many words a stream has. -/
def streamLength : Nat := 2 ^ 66

/-- The word of that number in the stream of a digest. -/
def streamWord (digest : DerivationDigest) (position : Nat) : UInt32 :=
  (philox4x32_10 (blockCounter (position / 4) (digestNonce digest)) (digestKey digest)).get
    (Fin.ofNat 4 position)

end Philox4x32Rng

end Riley.Sampling
