import Riley.Tokenizer.Codec

/-!
The tokenizer of the Mistral profile: spaces are written with a character of their
own, a character that is no token is written by one token for each of its bytes, and
the decoder joins such tokens again. Its merge engine, trie and validators are shared.
-/

namespace Riley.Tokenizer

open Utf8 (Text)

/-- The character that spaces are written with. -/
def metaspace : Char := '▁'

/-- What is left of an artifact when its closed pipeline is checked. -/
structure RawMistralTokenizer where
  vocab : Vocab
  merges : List RawMerge
  addedTokens : List RawAddedToken

structure MistralTokenizer where
  vocab : Vocab
  vocabById : List Text
  mergeRanks : MergeRanks
  specialIds : List Nat
  addedTrie : AddedTrie
  /-- The ids of the fallback tokens, in the order of their bytes. -/
  fallbackIds : List Nat
  decoded : List Bytes
  /-- The byte of a fallback token, for every id. -/
  fallbackBytes : List (Option UInt8)
  maximumDecodedBytes : Nat
  bos : Nat

/-- A digit as the format `02X` writes it. -/
def upperHex (digit : Nat) : Char :=
  if digit < 10 then Char.ofNat (0x30 + digit) else Char.ofNat (0x41 + (digit - 10))

/-- The spelling of the fallback token of a byte. -/
def fallbackToken (byte : UInt8) : Text :=
  ['<', '0', 'x', upperHex (byte.toNat / 16), upperHex (byte.toNat % 16), '>']

/-- The Unicode replacement character, in UTF-8. -/
def replacementBytes : Bytes := Utf8.encode ['\uFFFD']

section Characters

def replaceSpaces (input : Text) : Text :=
  input.map fun character => if character = ' ' then metaspace else character

def restoreSpaces (token : Text) : Text :=
  token.map fun character => if character = metaspace then ' ' else character

/-- How many bytes a character with that lead byte has. -/
def leadWidth (byte : UInt8) : Option Nat :=
  if byte ≤ 0x7F then some 1
  else if 0xC2 ≤ byte ∧ byte ≤ 0xDF then some 2
  else if 0xE0 ≤ byte ∧ byte ≤ 0xEF then some 3
  else if 0xF0 ≤ byte ∧ byte ≤ 0xF4 then some 4
  else none

/-- The loop of `valid_utf8_bytes`, with the bytes of a character that are seen. -/
def validUtf8BytesFrom (pending : Bytes) (width : Nat) : Bytes → Bool
  | [] => pending.isEmpty
  | byte :: rest =>
      match if pending = [] then leadWidth byte else some width with
      | none => false
      | some width =>
          if width = 1 then validUtf8BytesFrom [] width rest
          else if (pending ++ [byte]).length = width then
            match Utf8.fromUtf8 (pending ++ [byte]) with
            | .ok _ => validUtf8BytesFrom [] width rest
            | .error _ => false
          else validUtf8BytesFrom (pending ++ [byte]) width rest

def validUtf8Bytes (bytes : Bytes) : Bool := validUtf8BytesFrom [] 0 bytes

end Characters

namespace MistralTokenizer

section Load

/-- The id of the fallback token of each byte, none of which may be special. -/
def readFallbackIds (vocab : Vocab) (specialIds : List Nat) :
    List UInt8 → Except ModelError (List Nat)
  | [] => .ok []
  | byte :: rest =>
      match (vocab.get (fallbackToken byte)).filter fun id => !specialIds.contains id with
      | none => .error (.invalid "Mistral requires all 256 non-special byte fallback tokens")
      | some id => do
          let ids ← readFallbackIds vocab specialIds rest
          .ok (id :: ids)

def checkSpecials (vocab : Vocab) (specialIds : List Nat) : Except ModelError Unit :=
  if vocab.get ['<', 's', '>'] ≠ some 1 ∨ 1 ∉ specialIds ∨
      vocab.get ['<', 'u', 'n', 'k', '>'] ≠ some 0 ∨ 0 ∉ specialIds ∨
      vocab.get ['<', '/', 's', '>'] ≠ some 2 ∨ 2 ∉ specialIds then
    .error (.invalid "Mistral BOS/EOS/UNK must be declared special tokens 1/2/0")
  else .ok ()

/-- The byte at the id of each fallback token. -/
def placeFallbackBytes (fallbackIds : List Nat) (count : Nat) : List (Option UInt8) :=
  (everyByte.zip fallbackIds).foldl (fun bytes (byte, id) => bytes.set id (some byte))
    (List.replicate count none)

def decodedTokens (vocabById : List Text) (fallbackBytes : List (Option UInt8)) : List Bytes :=
  vocabById.mapIdx fun id token =>
    match (fallbackBytes[id]?).join with
    | some byte => [byte]
    | none => Utf8.encode (restoreSpaces token)

def load (raw : RawMistralTokenizer) (limits : LoadLimits) : Except ModelError MistralTokenizer := do
  enforceCountLimit "tokenizer vocabulary" limits.vocabularyEntries raw.vocab.entries.length
  enforceCountLimit "tokenizer merges" limits.merges raw.merges.length
  enforceCountLimit "tokenizer added tokens" limits.addedTokens raw.addedTokens.length
  let byId ← validateVocab raw.vocab
  let (validated, byId) ← validateAddedTokens raw.addedTokens raw.vocab byId .smolLm2
  checkSpecials raw.vocab validated.specialIds
  let fallbackIds ← readFallbackIds raw.vocab validated.specialIds everyByte
  let mergeRanks ← validateMerges raw.merges raw.vocab
  let fallbackBytes := placeFallbackBytes fallbackIds byId.length
  let decoded := decodedTokens byId fallbackBytes
  .ok { vocab := raw.vocab
        vocabById := byId
        mergeRanks
        specialIds := validated.specialIds
        addedTrie := validated.trie
        fallbackIds, decoded, fallbackBytes
        maximumDecodedBytes := max ((decoded.map List.length).foldl max 0) 3
        bos := 1 }

end Load

variable (tokenizer : MistralTokenizer)

def isSpecialId (id : Nat) : Bool := tokenizer.specialIds.contains id

section Encode

/-- The token at the id of the fallback token of a byte. -/
def fallbackText (byte : UInt8) : Text :=
  ((tokenizer.fallbackIds[byte.toNat]?).bind fun id => tokenizer.vocabById[id]?).getD []

/-- The nodes of a character: a token, or a fallback token for each of its bytes. -/
def characterTexts (character : Char) : List Text :=
  if (tokenizer.vocab.get [character]).isSome then [[character]]
  else (String.utf8EncodeChar character).map tokenizer.fallbackText

/-- The texts that merging starts from. -/
def startTexts (input : Text) (originalOffset : Nat) : List Text :=
  let mapped := replaceSpaces input
  let opening := if originalOffset = 0 ∧ mapped.head? ≠ some metaspace then [[metaspace]] else []
  opening ++ mapped.flatMap tokenizer.characterTexts

def idsOf : List Text → Except ModelError (List Nat)
  | [] => .ok []
  | text :: rest =>
      match tokenizer.vocab.get text with
      | none => .error (.invalid "merged Mistral token is absent from vocabulary")
      | some id => do
          let ids ← idsOf rest
          .ok (id :: ids)

def encodePlain (input : Text) (originalOffset : Nat) : Except ModelError (List Nat) :=
  if input = [] then .ok []
  else
    let nodes := mergeBpeNodes ((tokenizer.startTexts input originalOffset).map BpeNode.new)
      tokenizer.mergeRanks
    tokenizer.idsOf ((nodes.filter BpeNode.alive).map BpeNode.text)

/-- The loop of `encode`, with what is left of the input and where it begins. -/
def encodeFrom : Nat → Nat → Text → Except ModelError (List Nat)
  | 0, _, _ => .ok []
  | _ + 1, _, [] => .ok []
  | fuel + 1, cursor, input =>
      match tokenizer.addedTrie.nextMatch input with
      | none => tokenizer.encodePlain input cursor
      | some (start, length, id) => do
          let plain ← tokenizer.encodePlain (input.take start) cursor
          match Utf8.dropBytes length (input.drop start) with
          | none => .error .cutCharacter
          | some rest =>
              let cursor := cursor + (Utf8.encode (input.take start)).length + length
              let more ← encodeFrom fuel cursor rest
              .ok (plain ++ id :: more)

def encode (input : Text) (options : EncodeOptions) : Except ModelError (List Nat) := do
  let ids ← tokenizer.encodeFrom input.length 0 input
  .ok ((if options.addSpecialTokens then [tokenizer.bos] else []) ++ ids)

end Encode

section Decode

def tokenBytes (id : Nat) (options : DecodeOptions) : Except ModelError Bytes :=
  match tokenizer.decoded[id]? with
  | none => .error (.invalidTokenId id)
  | some bytes => .ok (if options.skipSpecialTokens && tokenizer.isSpecialId id then [] else bytes)

def checkIds (options : DecodeOptions) : List Nat → Except ModelError Unit
  | [] => .ok ()
  | id :: rest => do
      let _ ← tokenizer.tokenBytes id options
      checkIds options rest

def visible (ids : List Nat) (options : DecodeOptions) : List Nat :=
  ids.filter fun id => !(options.skipSpecialTokens && tokenizer.isSpecialId id)

def fallbackByte (id : Nat) : Option UInt8 := (tokenizer.fallbackBytes[id]?).join

/-- What the loop of `visit_decoded` emits. A run of fallback tokens is one string:
where it is not valid, each of its bytes is replaced. -/
def chunks : Nat → List Nat → List Bytes
  | 0, _ => []
  | _ + 1, [] => []
  | fuel + 1, id :: rest =>
      match tokenizer.fallbackByte id with
      | none => (tokenizer.decoded[id]?).getD [] :: chunks fuel rest
      | some _ =>
          let run := (id :: rest).takeWhile fun id => (tokenizer.fallbackByte id).isSome
          let bytes := run.filterMap tokenizer.fallbackByte
          let valid := validUtf8Bytes bytes
          let behind := rest.dropWhile fun id => (tokenizer.fallbackByte id).isSome
          bytes.map (fun byte => if valid then [byte] else replacementBytes) ++ chunks fuel behind

/-- Takes a space off the first bytes that are emitted. -/
def emit : List Bytes → List Bytes
  | [] => []
  | [] :: rest => [] :: emit rest
  | (byte :: bytes) :: rest => (if byte = 0x20 then bytes else byte :: bytes) :: rest

def visitDecoded (ids : List Nat) (options : DecodeOptions) : Except ModelError (List Bytes) := do
  tokenizer.checkIds options ids
  let visible := tokenizer.visible ids options
  .ok (emit (tokenizer.chunks visible.length visible))

def countBytes (count : Nat) : List Bytes → Except ModelError Nat
  | [] => .ok count
  | bytes :: rest =>
      match checkedAdd usizeMax count bytes.length with
      | none => .error (.invalid "decoded byte count overflow")
      | some count => countBytes count rest

def decodedBytesLen (ids : List Nat) (options : DecodeOptions) : Except ModelError Nat := do
  let emitted ← tokenizer.visitDecoded ids options
  countBytes 0 emitted

/-- The number of bytes written, and the buffer with them. -/
def decodeBytes (ids : List Nat) (options : DecodeOptions) (destination : Bytes) :
    Except ModelError (Nat × Bytes) := do
  let count ← tokenizer.decodedBytesLen ids options
  ensureDecodeDestination count destination.length
  let emitted ← tokenizer.visitDecoded ids options
  .ok (emitted.flatten.length, overwrite destination emitted.flatten)

def decode (ids : List Nat) (options : DecodeOptions) : Except ModelError Text := do
  let count ← tokenizer.decodedBytesLen ids options
  let (_, bytes) ← tokenizer.decodeBytes ids options (List.replicate count 0)
  match Utf8.fromUtf8 bytes with
  | .error _ => .error (.invalid "Mistral decoder produced invalid UTF-8")
  | .ok text => .ok text

end Decode

end MistralTokenizer

end Riley.Tokenizer
