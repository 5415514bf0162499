import Riley.Tokenizer.Load
import Riley.Tokenizer.Pieces

/-!
Encoding a text to token ids, and decoding token ids into a buffer of the caller.
-/

namespace Riley.Tokenizer

open Utf8 (Text)

structure EncodeOptions where
  addSpecialTokens : Bool := true

structure DecodeOptions where
  skipSpecialTokens : Bool := false

/-- A buffer with its first bytes replaced. -/
def overwrite (destination bytes : Bytes) : Bytes := bytes ++ destination.drop bytes.length

/-- The bytes that a token of the byte alphabet stands for. -/
def readByteLevel : Text → Except ModelError Bytes
  | [] => .ok []
  | character :: rest =>
      match byteDecoder character with
      | none =>
          .error (.invalidQuoting "validated ByteLevel token contains unmapped character" [character])
      | some byte => do
          let bytes ← readByteLevel rest
          .ok (byte :: bytes)

/-- The number of bytes written, and the buffer with them. -/
def DecodedToken.writeInto (destination : Bytes) : DecodedToken → Except ModelError (Nat × Bytes)
  | .byteLevel token => do
      let bytes ← readByteLevel token
      .ok (token.length, overwrite destination bytes)
  | .raw bytes => .ok (bytes.length, overwrite destination bytes)

def ensureDecodeDestination (required actual : Nat) : Except ModelError Unit :=
  if actual < required then .error (.limitExceeded "token decode destination" actual required)
  else .ok ()

namespace SmolLm2Tokenizer

variable (unicode : Unicode) (tokenizer : SmolLm2Tokenizer)

def tokenForId (id : Nat) : Option Text := tokenizer.vocabById[id]?

section Encode

/-- A text as the profile normalizes it. -/
def normalized (input : Text) : Text :=
  if tokenizer.profile = .qwen2 then unicode.nfc input else input

def pieces (input : Text) : List Text :=
  match tokenizer.profile with
  | .smolLm2 => (unicode.splitIndividualDecimalDigits input).flatMap unicode.gpt2Pieces
  | .qwen2 => unicode.qwen2Pieces input
  | .llama3 => unicode.llama3Pieces input

/-- The ids of symbols, which must be tokens. -/
def idsOf : List Text → Except ModelError (List Nat)
  | [] => .ok []
  | symbol :: rest =>
      match tokenizer.vocab.get symbol with
      | none => .error (.invalidQuoting "BPE produced token absent from vocabulary:" symbol)
      | some id => do
          let ids ← idsOf rest
          .ok (id :: ids)

def bpe (mapped : Text) : Except ModelError (List Nat) :=
  tokenizer.idsOf (bpeSymbols tokenizer.mergeRanks mapped)

def encodePieces : List Text → Except ModelError (List Nat)
  | [] => .ok []
  | piece :: rest => do
      let mapped := spell (Utf8.encode piece)
      let whole := if tokenizer.profile = .llama3 then tokenizer.vocab.get mapped else none
      let ids ← match whole with
        | some id => .ok [id]
        | none => tokenizer.bpe mapped
      let more ← encodePieces rest
      .ok (ids ++ more)

def encodePlain (input : Text) : Except ModelError (List Nat) :=
  tokenizer.encodePieces (tokenizer.pieces unicode (tokenizer.normalized unicode input))

def encodeFrom : Nat → Text → Except ModelError (List Nat)
  | 0, _ => .ok []
  | _ + 1, [] => .ok []
  | fuel + 1, input =>
      match tokenizer.addedTrie.nextMatch input with
      | none => tokenizer.encodePlain unicode input
      | some (start, length, id) => do
          let plain ← tokenizer.encodePlain unicode (input.take start)
          match Utf8.dropBytes length (input.drop start) with
          | none => .error .cutCharacter
          | some rest =>
              let more ← encodeFrom fuel rest
              .ok (plain ++ id :: more)

/-- The token put before the input when special tokens are requested. -/
def opening (options : EncodeOptions) : List Nat :=
  if options.addSpecialTokens then tokenizer.bosTokenId.toList else []

def encode (input : Text) (options : EncodeOptions) : Except ModelError (List Nat) := do
  let ids ← tokenizer.encodeFrom unicode input.length input
  .ok (tokenizer.opening options ++ ids)

end Encode

section Decode

/-- Nothing for a special token that is skipped. -/
def decodedToken (id : Nat) (options : DecodeOptions) : Except ModelError (Option DecodedToken) :=
  match tokenizer.tokenForId id with
  | none => .error (.invalidTokenId id)
  | some token =>
      if id ∈ tokenizer.specialIds ∧ options.skipSpecialTokens then .ok none
      else if tokenizer.profile.addedTokensAreRaw ∧ id ∈ tokenizer.addedIds then
        .ok (some (.raw (Utf8.encode token)))
      else .ok (some (.classify token))

def decodedBytesLenFrom (options : DecodeOptions) (byteLen : Nat) :
    List Nat → Except ModelError Nat
  | [] => .ok byteLen
  | id :: rest => do
      let decoded ← tokenizer.decodedToken id options
      match checkedAdd usizeMax byteLen (decoded.elim 0 DecodedToken.byteLen) with
      | none => .error (.numericOverflow "decoded token bytes")
      | some byteLen => decodedBytesLenFrom options byteLen rest

def decodedBytesLen (ids : List Nat) (options : DecodeOptions) : Except ModelError Nat :=
  tokenizer.decodedBytesLenFrom options 0 ids

/-- Leaves the buffer as it is where a token is skipped. -/
def decodeTokenBytesInto (id : Nat) (options : DecodeOptions) (destination : Bytes) :
    Except ModelError (Nat × Bytes) := do
  let decoded ← tokenizer.decodedToken id options
  match decoded with
  | none => .ok (0, destination)
  | some decoded => do
      ensureDecodeDestination decoded.byteLen destination.length
      decoded.writeInto destination

def decodeBytesFrom (options : DecodeOptions) (written : Nat) (destination : Bytes) :
    List Nat → Except ModelError (Nat × Bytes)
  | [] => .ok (written, destination)
  | id :: rest => do
      let (count, tail) ← tokenizer.decodeTokenBytesInto id options (destination.drop written)
      decodeBytesFrom options (written + count) (destination.take written ++ tail) rest

/-- The number of bytes written, and the buffer with them. -/
def decodeBytes (ids : List Nat) (options : DecodeOptions) (destination : Bytes) :
    Except ModelError (Nat × Bytes) := do
  let required ← tokenizer.decodedBytesLen ids options
  ensureDecodeDestination required destination.length
  tokenizer.decodeBytesFrom options 0 destination ids

end Decode

end SmolLm2Tokenizer

end Riley.Tokenizer
