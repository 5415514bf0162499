import Riley.Machine
import Riley.Tokenizer.AddedTrie
import Riley.Tokenizer.Bpe

/-!
Loading a tokenizer artifact. The artifact is known by the data that is left when
its JSON is read and its format checks have passed: they admit one pipeline for
every profile and leave no other choice. A map is a list of entries, with the
entry of a key before those it replaced.
-/

namespace Riley.Tokenizer

open Utf8 (Text)

inductive ModelError
  | invalid (reason : String)
  /-- The reason quotes a text in its debug form. -/
  | invalidQuoting (reason : String) (quoted : Text)
  | limitExceeded (resource : String) (limit actual : Nat)
  | numericOverflow (field : String)
  | invalidTokenId (id : Nat)
  /-- No error of the source: it would panic where a slice cuts a character. -/
  | cutCharacter
  deriving DecidableEq, Repr

structure LoadLimits where
  vocabularyEntries : Nat
  merges : Nat
  addedTokens : Nat

inductive TokenizerProfile
  | smolLm2
  | qwen2
  | llama3
  deriving DecidableEq, Repr

def TokenizerProfile.addedTokensAreRaw : TokenizerProfile → Bool
  | .smolLm2 => false
  | .qwen2 | .llama3 => true

/-- A vocabulary, in the order of its tokens. -/
structure Vocab where
  entries : List (Text × Nat)
  nodup : (entries.map Prod.fst).Nodup

def Vocab.get (vocab : Vocab) (token : Text) : Option Nat := vocab.entries.lookup token

structure RawAddedToken where
  id : Nat
  content : Text
  singleWord : Bool
  lstrip : Bool
  rstrip : Bool
  normalized : Bool
  special : Bool

inductive RawMerge
  | text (text : Text)
  | pair (left right : Text)

/-- `bosTemplate` is what `llama3_bos_template` reads from the post-processor. -/
structure RawTokenizer where
  vocab : Vocab
  merges : List RawMerge
  addedTokens : List RawAddedToken
  bosTemplate : Option (Text × Nat)

inductive DecodedToken
  | byteLevel (token : Text)
  | raw (bytes : Bytes)
  deriving DecidableEq, Repr

namespace DecodedToken

def classify (token : Text) : DecodedToken :=
  if Spelled token then .byteLevel token else .raw (Utf8.encode token)

def byteLen : DecodedToken → Nat
  | .byteLevel token => token.length
  | .raw bytes => bytes.length

end DecodedToken

structure SmolLm2Tokenizer where
  vocab : Vocab
  vocabById : List Text
  mergeRanks : MergeRanks
  specialIds : List Nat
  addedIds : List Nat
  addedTrie : AddedTrie
  maximumDecodedTokenBytes : Nat
  profile : TokenizerProfile
  bosTokenId : Option Nat

def maxAddedTokenBytes : Nat := 4096
def maxTotalAddedTokenBytes : Nat := 1024 * 1024

def enforceCountLimit (resource : String) (limit actual : Nat) : Except ModelError Unit :=
  if limit < actual then .error (.limitExceeded resource limit actual) else .ok ()

section Vocabulary

/-- Puts every token at its id. -/
def placeTokens : List (Option Text) → List (Text × Nat) → Except ModelError (List (Option Text))
  | byId, [] => .ok byId
  | byId, (token, id) :: rest =>
      if token = [] then .error (.invalid "vocabulary tokens must not be empty")
      else
        match byId[id]? with
        | none => .error (.invalid s!"vocabulary IDs must be dense; found {id}")
        | some (some _) => .error (.invalid s!"duplicate vocabulary ID {id}")
        | some none => placeTokens (byId.set id (some token)) rest

def collectTokens (id : Nat) : List (Option Text) → Except ModelError (List Text)
  | [] => .ok []
  | none :: _ => .error (.invalid s!"missing vocabulary ID {id}")
  | some token :: rest => do
      let tokens ← collectTokens (id + 1) rest
      .ok (token :: tokens)

/-- The tokens by their ids. -/
def validateVocab (vocab : Vocab) : Except ModelError (List Text) :=
  if vocab.entries = [] then .error (.invalid "vocabulary must not be empty")
  else do
    let byId ← placeTokens (List.replicate vocab.entries.length none) vocab.entries
    collectTokens 0 byId

/-- Every token that is not special is written in the byte alphabet. -/
def validateByteAlphabet (specialIds : List Nat) :
    List (Text × Nat) → Except ModelError Unit
  | [] => .ok ()
  | (token, id) :: rest =>
      if id ∉ specialIds ∧ ¬ Spelled token then
        .error (.invalid
          s!"non-special token ID {id} contains a character outside the ByteLevel alphabet")
      else validateByteAlphabet specialIds rest

end Vocabulary

section Added

structure ValidatedAddedTokens where
  specialIds : List Nat
  addedIds : List Nat
  contents : List Text
  trie : AddedTrie
  extensions : List (Nat × Text)
  deriving DecidableEq, Repr

/-- The entry of a key in a map in the order of its keys. -/
def insertByKey (index : Nat) (content : Text) : List (Nat × Text) → List (Nat × Text)
  | [] => [(index, content)]
  | first :: rest =>
      if index < first.1 then (index, content) :: first :: rest
      else if index = first.1 then (index, content) :: rest
      else first :: insertByKey index content rest

def checkAddedBytes (totalBytes : Nat) : List RawAddedToken → Except ModelError Nat
  | [] => .ok totalBytes
  | token :: rest =>
      let length := (Utf8.encode token.content).length
      let id := token.id
      if token.content = [] ∨ maxAddedTokenBytes < length then
        .error (.invalid s!"added token {id} has invalid byte length")
      else
        match checkedAdd usizeMax totalBytes length with
        | none => .error (.numericOverflow "tokenizer added-token bytes")
        | some totalBytes => checkAddedBytes totalBytes rest

/-- Where an added token belongs: in the base vocabulary, or behind it. -/
def placeAddedToken (vocab : Vocab) (byId : List Text) (profile : TokenizerProfile)
    (token : RawAddedToken) (extensions : List (Nat × Text)) :
    Except ModelError (List (Nat × Text)) :=
  let id := token.id
  match byId[id]? with
  | some known =>
      if known ≠ token.content ∨ vocab.get token.content ≠ some id then
        .error (.invalid s!"added token {id} conflicts with the base vocabulary")
      else .ok extensions
  | none =>
      if profile = .smolLm2 then
        .error (.invalid s!"added token {id} must match the base vocabulary")
      else if (vocab.get token.content).isSome then
        .error (.invalid s!"added token {id} duplicates base-vocabulary content")
      else .ok (insertByKey id token.content extensions)

def addToken (vocab : Vocab) (byId : List Text) (profile : TokenizerProfile)
    (added : ValidatedAddedTokens) (token : RawAddedToken) :
    Except ModelError ValidatedAddedTokens :=
  let id := token.id
  if token.singleWord || token.lstrip || token.rstrip || token.normalized then
    .error (.invalid s!"added token {id} uses unsupported matching semantics")
  else if profile = .smolLm2 && !token.special then
    .error (.invalid s!"SmolLM2 added token {id} must be special")
  else if id ∈ added.addedIds ∨ added.contents.contains token.content then
    .error (.invalid "duplicate added-token ID or content")
  else do
    let extensions ← placeAddedToken vocab byId profile token added.extensions
    match added.trie.insert (Utf8.encode token.content) id with
    | none => .error (.invalid "duplicate added token trie entry")
    | some trie =>
        .ok { specialIds := if token.special then id :: added.specialIds else added.specialIds
              addedIds := id :: added.addedIds
              contents := token.content :: added.contents
              trie, extensions }

def addTokens (vocab : Vocab) (byId : List Text) (profile : TokenizerProfile) :
    ValidatedAddedTokens → List RawAddedToken → Except ModelError ValidatedAddedTokens
  | added, [] => .ok added
  | added, token :: rest => do
      let added ← addToken vocab byId profile added token
      addTokens vocab byId profile added rest

/-- Puts the added tokens behind the base vocabulary, which must leave no gap. -/
def extendVocabulary : List Text → List (Nat × Text) → Except ModelError (List Text)
  | byId, [] => .ok byId
  | byId, (index, content) :: rest =>
      if index ≠ byId.length then
        let expected := byId.length
        .error (.invalid
          s!"addressable added-token IDs must be dense; expected {expected}, found {index}")
      else extendVocabulary (byId ++ [content]) rest

/-- The added tokens, and all tokens by their ids. -/
def validateAddedTokens (added : List RawAddedToken) (vocab : Vocab) (byId : List Text)
    (profile : TokenizerProfile) : Except ModelError (ValidatedAddedTokens × List Text) := do
  let totalBytes ← checkAddedBytes 0 added
  enforceCountLimit "tokenizer added-token bytes" maxTotalAddedTokenBytes totalBytes
  let validated ← addTokens vocab byId profile ⟨[], [], [], ⟨[]⟩, []⟩ added
  let byId ← extendVocabulary byId validated.extensions
  .ok (validated, byId)

end Added

section Merges

def parseMergeText (text : Text) : Except ModelError (Text × Text) :=
  match text.splitOn ' ' with
  | [left, right] =>
      if left = [] ∨ right = [] then .error (.invalidQuoting "invalid textual BPE merge" text)
      else .ok (left, right)
  | _ => .error (.invalidQuoting "invalid textual BPE merge" text)

def readMerge : RawMerge → Except ModelError (Text × Text)
  | .pair left right => .ok (left, right)
  | .text text => parseMergeText text

def addMerges (vocab : Vocab) (rank : Nat) : MergeRanks → List RawMerge →
    Except ModelError MergeRanks
  | ranks, [] => .ok ranks
  | ranks, merge :: rest => do
      let (left, right) ← readMerge merge
      if left = [] ∨ right = [] then
        .error (.invalid s!"merge rank {rank} contains an empty symbol")
      else if vocab.get left = none ∨ vocab.get right = none ∨
          vocab.get (left ++ right) = none then
        .error (.invalid s!"merge rank {rank} references a token absent from vocabulary")
      else if (ranks.lookup (left, right)).isSome then
        .error (.invalid s!"duplicate merge pair at rank {rank}")
      else addMerges vocab (rank + 1) (((left, right), rank) :: ranks) rest

def validateMerges (merges : List RawMerge) (vocab : Vocab) : Except ModelError MergeRanks :=
  addMerges vocab 0 [] merges

end Merges

/-- The token of the template must be the special added token that it names. -/
def checkBosTemplate (byId : List Text) (specialIds : List Nat) :
    Option (Text × Nat) → Except ModelError (Option Nat)
  | none => .ok none
  | some (content, id) =>
      if byId[id]? = some content ∧ id ∈ specialIds then .ok (some id)
      else .error (.invalid
        "Llama 3 post_processor template names a token that is not that special added token")

namespace SmolLm2Tokenizer

/-- The most bytes that one token decodes to. -/
def maximumBytes (profile : TokenizerProfile) (addedIds : List Nat) (byId : List Text) : Nat :=
  (byId.mapIdx fun id token =>
    if profile.addedTokensAreRaw ∧ id ∈ addedIds then (Utf8.encode token).length
    else (DecodedToken.classify token).byteLen).foldl max 0

def load (raw : RawTokenizer) (limits : LoadLimits) (profile : TokenizerProfile) :
    Except ModelError SmolLm2Tokenizer := do
  enforceCountLimit "tokenizer vocabulary" limits.vocabularyEntries raw.vocab.entries.length
  enforceCountLimit "tokenizer merges" limits.merges raw.merges.length
  enforceCountLimit "tokenizer added tokens" limits.addedTokens raw.addedTokens.length
  let bosTemplate := if profile = .llama3 then raw.bosTemplate else none
  let byId ← validateVocab raw.vocab
  let (validated, byId) ← validateAddedTokens raw.addedTokens raw.vocab byId profile
  validateByteAlphabet validated.specialIds raw.vocab.entries
  let mergeRanks ← validateMerges raw.merges raw.vocab
  let bosTokenId ← checkBosTemplate byId validated.specialIds bosTemplate
  .ok { vocab := raw.vocab
        vocabById := byId
        mergeRanks
        specialIds := validated.specialIds
        addedIds := validated.addedIds
        addedTrie := validated.trie
        maximumDecodedTokenBytes := maximumBytes profile validated.addedIds byId
        profile, bosTokenId }

/-- The first id in order; the special ids of the source are in order. -/
def setBosTokenContent (tokenizer : SmolLm2Tokenizer) (content : Text) : Except ModelError SmolLm2Tokenizer :=
  if tokenizer.bosTokenId.isSome then
    .error (.invalid "begin-of-sequence token is already set by the post_processor template")
  else
    match tokenizer.specialIds.find? fun id => tokenizer.vocabById[id]? = some content with
    | none => .error (.invalid "bos_token is not a special added token")
    | some id => .ok { tokenizer with bosTokenId := some id }

/-- The tokenizers that the loader builds. -/
inductive Built (limits : LoadLimits) (profile : TokenizerProfile) : SmolLm2Tokenizer → Prop
  | loaded {raw : RawTokenizer} {tokenizer : SmolLm2Tokenizer}
      (h : load raw limits profile = .ok tokenizer) : Built limits profile tokenizer
  | withBos {tokenizer tokenizer' : SmolLm2Tokenizer} {content : Text}
      (hbuilt : Built limits profile tokenizer)
      (h : tokenizer.setBosTokenContent content = .ok tokenizer') :
      Built limits profile tokenizer'

end SmolLm2Tokenizer

end Riley.Tokenizer
