import Mathlib
import Riley.Library.Offsets
import Riley.Structured.Schema
import Riley.Tensor.Layout

/-!
One shard of a checkpoint: a length, a JSON header of that length and the bytes of the
tensors that the header describes. A subtraction or an index that would panic is an error of
its own.
-/

namespace Riley.Checkpoint

open Offsets (slice)
open Server (Json)
open Structured (asArray asObject asU64 isControl)
open Tensor (DType Shape TensorError)
open Utf8 (Text)

inductive ArtifactKind
  | config
  | tokenizer
  | safetensors
  | shardIndex
  | manifest
  deriving DecidableEq, Repr

inductive ModelError
  | invalidJson (artifact : ArtifactKind) (reason : String)
  | limitExceeded (resource : String) (limit : Nat) (actual : Option Nat)
  | numericOverflow (field : String)
  | invalidArtifact (artifact reason : String)
  | missingTensors (names : List String)
  | extraTensors (names : List String)
  | duplicateTensor (name : String)
  | tensorDTypeMismatch (name : String) (expected actual : DType)
  | tensorShapeMismatch (name : String) (expected actual : List Nat)
  | tiedWeightMismatch
  /-- No error of the source: it would panic. -/
  | panicked
  deriving DecidableEq, Repr

abbrev ModelResult := Except ModelError

structure LoadLimits where
  safetensorsHeaderBytes : Nat
  tensors : Nat
  tensorRank : Nat
  shardBytes : Nat
  shardBytes_le : shardBytes ≤ u64Max

/-- What the source takes from its libraries: the strict JSON reader, whose objects have no
key twice, the reason why a value is no tensor entry, and the debug form of a text. -/
structure Libraries where
  fromSlice : List UInt8 → Except String Json
  fromSlice_unique : ∀ {input : List UInt8} {entries : List (Text × Json)},
    fromSlice input = .ok (.object entries) → (entries.map Prod.fst).Nodup
  rawTensorError : Json → String
  debug : String → String

def PREFIX_BYTES : Nat := 8

structure ParsedTensor where
  dtype : DType
  shape : Shape
  byteRange : Nat × Nat
  deriving DecidableEq

structure RawTensor where
  dtype : Text
  shape : List Nat
  dataOffsets : Nat × Nat
  deriving DecidableEq, Repr

structure ParsedShard where
  /-- In the order of their names. -/
  tensors : List (String × ParsedTensor)
  bytes : List UInt8

/-- The value of a checked operation, or the error of the source where it has none. -/
def orError {α : Type} (value : Option α) (error : ModelError) : ModelResult α :=
  match value with
  | some value => .ok value
  | none => .error error

def invalid (displayName reason : String) : ModelError := .invalidArtifact displayName reason

/-- The entries of a map in the order of their names. -/
def inNameOrder {β : Type} (entries : List (String × β)) : List (String × β) :=
  entries.mergeSort fun left right => decide (left.1 ≤ right.1)

section Header

def enforceU64Limit (resource : String) (limit actual : Nat) : ModelResult Unit :=
  if limit < actual then .error (.limitExceeded resource limit (some actual)) else .ok ()

/-- The last place where the condition holds. -/
def rposition {α : Type} (condition : α → Bool) (items : List α) : Option Nat :=
  (items.reverse.findIdx? condition).map (items.length - 1 - ·)

/-- Whether something other than spaces follows the last brace of a header. -/
def endsAmiss (header : List UInt8) : ModelResult Bool :=
  match rposition (· ≠ 0x20) header with
  | none => .ok true
  | some index => do
      let last ← orError header[index]? .panicked
      .ok (last ≠ 0x7d)

def parseHeader (libraries : Libraries) (displayName : String) (bytes : List UInt8)
    (limits : LoadLimits) : ModelResult (List (Text × Json) × Nat) := do
  enforceU64Limit "safetensors shard" limits.shardBytes bytes.length
  let lengthPrefix ← orError (slice bytes 0 PREFIX_BYTES)
    (invalid displayName "missing 8-byte header-length prefix")
  let headerLen := Nat.ofDigits 256 (lengthPrefix.map UInt8.toNat)
  if limits.safetensorsHeaderBytes < headerLen then
    .error (.limitExceeded "safetensors header" limits.safetensorsHeaderBytes (some headerLen))
  else
    let dataStart ← orError (checkedAdd usizeMax PREFIX_BYTES headerLen)
      (.numericOverflow s!"{displayName} data offset")
    let header ← orError (slice bytes PREFIX_BYTES dataStart)
      (invalid displayName "header length exceeds shard length")
    if header.head? ≠ some 0x7b then
      .error (invalid displayName "JSON header must begin with '\x7b'")
    else
      if ← endsAmiss header then
        .error (invalid displayName
          "JSON header may only use ASCII spaces as trailing padding")
      else
        match libraries.fromSlice header with
        | .ok (.object object) => .ok (object, dataStart)
        | .ok _ => .error (invalid displayName "JSON header must be an object")
        | .error reason => .error (.invalidJson .safetensors reason)

end Header

section Tensors

def RawTensor.fromFields (dtype shape dataOffsets : Json) : Option RawTensor := do
  let dtype ← dtype.asStr
  let shape ← (← asArray shape).mapM asU64
  match ← (← asArray dataOffsets).mapM asU64 with
  | [start, stop] => some ⟨dtype, shape, (start, stop)⟩
  | _ => none

/-- A tensor entry by its fields, which are named or in order. -/
def RawTensor.fromValue : Json → Option RawTensor
  | .array [dtype, shape, dataOffsets] => fromFields dtype shape dataOffsets
  | .object entries =>
      if entries.all fun entry => entry.1 = "dtype".toList ∨ entry.1 = "shape".toList ∨
          entry.1 = "data_offsets".toList then do
        fromFields (← Entries.get "dtype".toList entries) (← Entries.get "shape".toList entries)
          (← Entries.get "data_offsets".toList entries)
      else none
  | _ => none

def dtypeOf (dtype : Text) : Option DType :=
  if dtype = "F16".toList then some .f16
  else if dtype = "BF16".toList then some .bf16
  else none

def checkedAbsoluteRange (libraries : Libraries) (displayName name : String)
    (dataStart start stop : Nat) : ModelResult (Nat × Nat) := do
  let absoluteStart ← orError (checkedAdd usizeMax dataStart start)
    (.numericOverflow s!"{displayName} tensor {libraries.debug name} absolute start")
  let absoluteEnd ← orError (checkedAdd usizeMax dataStart stop)
    (.numericOverflow s!"{displayName} tensor {libraries.debug name} absolute end")
  .ok (absoluteStart, absoluteEnd)

/-- A number of 64 bits always is a size. -/
def parseTensor (libraries : Libraries) (displayName name : String) (value : Json)
    (dataStart dataLen : Nat) (limits : LoadLimits) : ModelResult ParsedTensor := do
  let quoted := libraries.debug name
  let raw ← orError (RawTensor.fromValue value)
    (invalid displayName s!"tensor {quoted} has invalid metadata: {libraries.rawTensorError value}")
  let dtype ← orError (dtypeOf raw.dtype)
    (invalid displayName
      s!"tensor {quoted} has unsupported dtype {libraries.debug (String.ofList raw.dtype)}")
  if limits.tensorRank < raw.shape.length then
    .error (.limitExceeded "safetensors tensor rank" limits.tensorRank (some raw.shape.length))
  else
    let shape ← orError (Shape.new raw.shape).toOption
      (.numericOverflow s!"{displayName} tensor {quoted} element count")
    let expectedLen ← orError (checkedMul usizeMax shape.elementCount dtype.sizeBytes)
      (.numericOverflow s!"{displayName} tensor {quoted} byte length")
    let start := raw.dataOffsets.1
    let stop := raw.dataOffsets.2
    let actualLen ← orError (checkedSub stop start)
      (invalid displayName s!"tensor {quoted} has descending data offsets {start}..{stop}")
    if actualLen ≠ expectedLen then
      .error (invalid displayName
        s!"tensor {quoted} byte length is {actualLen}, expected {expectedLen}")
    else if dataLen < stop then
      .error (invalid displayName
        s!"tensor {quoted} data range {start}..{stop} exceeds data length {dataLen}")
    else
      let byteRange ← checkedAbsoluteRange libraries displayName name dataStart start stop
      .ok ⟨dtype, shape, byteRange⟩

def METADATA : Text := "__metadata__".toList

def validMetadataFields (libraries : Libraries) (displayName : String) :
    List (Text × Json) → ModelResult Unit
  | [] => .ok ()
  | (key, value) :: rest =>
      if value.asStr.isSome then validMetadataFields libraries displayName rest
      else .error (invalid displayName
        s!"__metadata__ value for {libraries.debug (String.ofList key)} must be a string")

def validateMetadata (libraries : Libraries) (displayName : String) (value : Json) :
    ModelResult Unit := do
  let metadata ← orError (asObject value)
    (invalid displayName "__metadata__ must be a string-to-string object")
  validMetadataFields libraries displayName metadata

def validateOptionalMetadata (libraries : Libraries) (displayName : String)
    (metadata : Option Json) : ModelResult Unit :=
  match metadata with
  | some value => validateMetadata libraries displayName value
  | none => .ok ()

/-- The entries of a header but for its metadata, one after another. -/
def parseTensors (libraries : Libraries) (displayName : String) (dataStart : Nat)
    (bytes : List UInt8) (limits : LoadLimits) :
    List (Text × Json) → ModelResult (List (String × ParsedTensor))
  | [] => .ok []
  | (name, value) :: rest =>
      if name = METADATA then parseTensors libraries displayName dataStart bytes limits rest
      else if name = [] ∨ 1024 < (Utf8.encode name).length ∨ name.any isControl then
        .error (invalid displayName "tensor name must be bounded, non-empty, and printable")
      else do
        let dataLen ← orError (checkedSub bytes.length dataStart) .panicked
        let tensor ← parseTensor libraries displayName (String.ofList name) value dataStart
          dataLen limits
        let tensors ← parseTensors libraries displayName dataStart bytes limits rest
        .ok ((String.ofList name, tensor) :: tensors)

end Tensors

section Coverage

def coverageLe (left right : String × ParsedTensor) : Bool :=
  decide (toLex (left.2.byteRange.1, toLex (left.2.byteRange.2, left.1)) ≤
    toLex (right.2.byteRange.1, toLex (right.2.byteRange.2, right.1)))

/-- The place behind tensors that begin where the one before ends. -/
def sweep (libraries : Libraries) (displayName : String) (dataStart : Nat) :
    Nat → List (String × ParsedTensor) → ModelResult Nat
  | cursor, [] => .ok cursor
  | cursor, (name, tensor) :: rest =>
      if tensor.byteRange.1 ≠ cursor then do
        let kind := if tensor.byteRange.1 < cursor then "overlaps" else "leaves a gap after"
        let offset ← orError (checkedSub cursor dataStart) .panicked
        .error (invalid displayName
          s!"tensor {libraries.debug name} {kind} data offset {offset}")
      else sweep libraries displayName dataStart tensor.byteRange.2 rest

def validateCoverage (libraries : Libraries) (displayName : String)
    (tensors : List (String × ParsedTensor)) (dataStart shardLen : Nat) : ModelResult Unit := do
  let cursor ← sweep libraries displayName dataStart dataStart (tensors.mergeSort coverageLe)
  if cursor ≠ shardLen then do
    let covered ← orError (checkedSub cursor dataStart) .panicked
    let dataBytes ← orError (checkedSub shardLen dataStart) .panicked
    .error (invalid displayName s!"tensor ranges cover {covered} of {dataBytes} data bytes")
  else .ok ()

end Coverage

def ParsedShard.fromBytes (libraries : Libraries) (displayName : String) (bytes : List UInt8)
    (limits : LoadLimits) : ModelResult ParsedShard := do
  let (object, dataStart) ← parseHeader libraries displayName bytes limits
  let metadata := Entries.get METADATA object
  let tensorCount ← orError (checkedSub object.length (if metadata.isSome then 1 else 0))
    (.numericOverflow s!"{displayName} tensor count")
  if limits.tensors < tensorCount then
    .error (.limitExceeded "safetensors tensors" limits.tensors (some tensorCount))
  else
    validateOptionalMetadata libraries displayName metadata
    let tensors ← parseTensors libraries displayName dataStart bytes limits object
    let tensors := inNameOrder tensors
    validateCoverage libraries displayName tensors dataStart bytes.length
    .ok ⟨tensors, bytes⟩

namespace ParsedShard

def tensor (shard : ParsedShard) (name : String) : Option ParsedTensor :=
  shard.tensors.lookup name

def tensorBytes (shard : ParsedShard) (name : String) : Option (List UInt8) := do
  let tensor ← shard.tensor name
  slice shard.bytes tensor.byteRange.1 tensor.byteRange.2

end ParsedShard

end Riley.Checkpoint
