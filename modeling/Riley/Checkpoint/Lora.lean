import Riley.Library.Cells
import Riley.Library.Offsets
import Riley.Structured.Schema

/-!
Merging the matrices of a LoRA adapter into the weights of a checkpoint. The floating-point
operations stay opaque. An index or a slice out of range, and a count below zero, are errors
of their own.
-/

namespace Riley.Lora

open Cells (cell setCell)
open Offsets (slice)
open Server (Json)
open Structured (asArray asObject asU64)
open Utf8 (Text)

local instance lawfulText : LawfulBEq Text := inferInstance

inductive LoraError
  | invalid (message : String)
  /-- A text that the JSON library cannot read. -/
  | json
  /-- Preparing or verifying the merged checkpoint failed. -/
  | unfinished (message : String)
  /-- No error of the source: it would panic at an index or a slice, or go without the
  memory it asks for. -/
  | panicked
  /-- No error of the source: a count would fall below zero. -/
  | underflow
  deriving DecidableEq, Repr

/-- What the source takes from its JSON library. A header is a map, in the order of its
names. -/
structure JsonReader where
  fromSlice : List UInt8 → Option Json
  header : List UInt8 → Option (List (Text × Json))
  header_unique : ∀ {input : List UInt8} {entries : List (Text × Json)},
    header input = some entries → (entries.map Prod.fst).Nodup

/-- The operations on numbers of 32 bits, and the conversions from and to 16 bits. -/
structure Arithmetic (F : Type) where
  zero : F
  add : F → F → F
  mul : F → F → F
  fromLeBytes : UInt8 → UInt8 → UInt8 → UInt8 → F
  bf16ToF32 : UInt16 → F
  f32ToBf16 : F → UInt16
  /-- The scale times alpha over the rank, or over its square root. -/
  scaling : F → Text → Nat → Bool → F

def isizeMax : Nat := 9223372036854775807

def SAFETENSORS_HEADER_PREFIX : Nat := 8

def orError {α : Type} (value : Option α) (error : LoraError) : Except LoraError α :=
  match value with
  | some value => .ok value
  | none => .error error

section Files

structure TensorEntry where
  dtype : Text
  shape : List Nat
  start : Nat
  stop : Nat
  deriving DecidableEq, Repr

/-- An item of an array; anything else has none. -/
def item (index : Nat) : Json → Option Json
  | .array items => items[index]?
  | _ => none

def dataOffset (value : Json) (dataStart fileLen index : Nat) : Except LoraError Nat :=
  orError
    (do
      let offset ← asU64 (← item index (← value.get "data_offsets".toList))
      let offset ← checkedAdd usizeMax offset dataStart
      if offset ≤ fileLen then some offset else none)
    (.invalid "safetensors tensor offset is invalid")

def tensorEntry (value : Json) (dataStart fileLen : Nat) : Except LoraError TensorEntry := do
  let dtype := ((value.get "dtype".toList).bind Json.asStr).getD []
  let shape ← orError ((value.get "shape".toList).bind asArray)
    (.invalid "safetensors tensor has no shape")
  let start ← dataOffset value dataStart fileLen 0
  let stop ← dataOffset value dataStart fileLen 1
  .ok ⟨dtype, shape.filterMap asU64, start, stop⟩

def tensorEntriesFrom (dataStart fileLen : Nat) :
    List (Text × Json) → Except LoraError (List (Text × TensorEntry))
  | [] => .ok []
  | (name, value) :: rest =>
      if name = "__metadata__".toList then tensorEntriesFrom dataStart fileLen rest
      else do
        let entry ← tensorEntry value dataStart fileLen
        let entries ← tensorEntriesFrom dataStart fileLen rest
        .ok ((name, entry) :: entries)

def tensorEntries (reader : JsonReader) (file : List UInt8) :
    Except LoraError (List (Text × TensorEntry)) := do
  let lengthPrefix ← orError (slice file 0 SAFETENSORS_HEADER_PREFIX)
    (.invalid "safetensors file is truncated")
  let headerLen := Nat.ofDigits 256 (lengthPrefix.map UInt8.toNat)
  let dataStart ← orError
    (do
      let stop ← checkedAdd usizeMax SAFETENSORS_HEADER_PREFIX headerLen
      if stop ≤ file.length then some stop else none)
    (.invalid "safetensors header exceeds the file")
  let text ← orError (slice file SAFETENSORS_HEADER_PREFIX dataStart) .panicked
  let header ← orError (reader.header text) .json
  tensorEntriesFrom dataStart file.length header

end Files

section Numbers

variable {F : Type} (ops : Arithmetic F)

/-- The numbers of 32 bits in a byte string; what is left over is dropped. -/
def floats : List UInt8 → List F
  | first :: second :: third :: fourth :: rest =>
      ops.fromLeBytes first second third fourth :: floats rest
  | _ => []

/-- The numbers of 16 bits in a byte string. -/
def halves : List UInt8 → List F
  | first :: second :: rest => ops.bf16ToF32 (Cells.join first second) :: halves rest
  | _ => []

def toF32 (bytes : List UInt8) (dtype : Text) : Except LoraError (List F) :=
  if dtype = "F32".toList then .ok (floats ops bytes)
  else if dtype = "BF16".toList then .ok (halves ops bytes)
  else .error (.invalid "LoRA tensors must be F32 or BF16")

/-- The first terms of a row of `B @ A`. -/
def deltaRow (a b : List F) (columns rank row : Nat) : Nat → Option (List F)
  | 0 => some (List.replicate columns ops.zero)
  | k + 1 => do
      let delta ← deltaRow a b columns rank row k
      let left ← b[row * rank + k]?
      let right ← slice a (k * columns) ((k + 1) * columns)
      some (List.zipWith (fun cell value => ops.add cell (ops.mul left value)) delta right)

/-- A weight with what is added to it. -/
def mergedCell (scaling value : F) (base : UInt16) : UInt16 :=
  ops.f32ToBf16 (ops.add (ops.bf16ToF32 base) (ops.mul value scaling))

/-- The first cells of a row, merged. -/
def mergeCells (scaling : F) (start : Nat) (delta : List F) (weight : List UInt8) :
    Nat → Option (List UInt8)
  | 0 => some weight
  | column + 1 => do
      let weight ← mergeCells scaling start delta weight column
      let value ← delta[column]?
      let base ← cell weight (start + column * 2)
      some (setCell weight (start + column * 2) (mergedCell ops scaling value base))

/-- The first rows, merged. -/
def mergeRows (scaling : F) (a b : List F) (columns rank : Nat) (weight : List UInt8) :
    Nat → Option (List UInt8)
  | 0 => some weight
  | row + 1 => do
      let weight ← mergeRows scaling a b columns rank weight row
      let delta ← deltaRow ops a b columns rank row rank
      mergeCells ops scaling (row * columns * 2) delta weight delta.length

/-- Whether a vector of that many bytes is to be had: an empty one is, one beyond `isize` is
not, and any other one is if the allocator grants it. -/
def granted (allocates : Nat → Bool) (bytes : Nat) : Bool :=
  decide (bytes = 0) || decide (bytes ≤ isizeMax) && allocates bytes

/-- `weight += scaling * B @ A`. The row that is added is allocated first, whatever the rows. -/
def mergeInto (allocates : Nat → Bool) (weight : List UInt8) (rows columns : Nat) (a b : List F)
    (rank : Nat) (scaling : F) : Option (List UInt8) :=
  if granted allocates (columns * 4) then mergeRows ops scaling a b columns rank weight rows
  else none

end Numbers

section Adapters

def flag (config : Json) (key : String) : Bool :=
  match config.get key.toList with
  | some (.bool value) => value
  | _ => false

/-- Alpha and the rank of an adapter that can be merged. -/
def scalingTerms (config : Json) : Except LoraError (Text × Nat) :=
  if (config.get "peft_type".toList).bind Json.asStr ≠ some "LORA".toList then
    .error (.invalid "adapter peft_type must be LORA")
  else do
    let rank ← orError
      (do
        let rank ← asU64 (← config.get "r".toList)
        if 0 < rank then some rank else none)
      (.invalid "adapter r must be a positive integer")
    let alpha ← orError
      (match config.get "lora_alpha".toList with
        | some (.number digits) => some digits
        | _ => none)
      (.invalid "adapter lora_alpha is missing")
    if flag config "fan_in_fan_out" then
      .error (.invalid "fan_in_fan_out adapters are not supported")
    else if flag config "use_dora" then .error (.invalid "DoRA adapters are not supported")
    else if ((config.get "bias".toList).bind Json.asStr).any (· ≠ "none".toList) then
      .error (.invalid "adapters with trained biases are not supported")
    else if ["rank_pattern", "alpha_pattern"].any fun key =>
        ((config.get key.toList).bind asObject).any (!·.isEmpty) then
      .error (.invalid "per-module rank or alpha is not supported")
    else if ((config.get "modules_to_save".toList).bind asArray).any (!·.isEmpty) then
      .error (.invalid "modules_to_save is not supported")
    else .ok (alpha, rank)

/-- The scaling factor and the rank of an adapter. -/
def scalingFactor {F : Type} (ops : Arithmetic F) (config : Json) (scale : F) :
    Except LoraError (F × Nat) := do
  let (alpha, rank) ← scalingTerms config
  .ok (ops.scaling scale alpha rank (flag config "use_rslora"), rank)

def adapterTarget (key : Text) : Except LoraError (Text × Bool) := do
  let module ← orError (key.dropPrefix? "base_model.model.".toList)
    (.invalid "adapter tensor name has no base_model.model. prefix")
  match module.dropSuffix? ".lora_A.weight".toList with
  | some target => .ok (target ++ ".weight".toList, true)
  | none =>
      match module.dropSuffix? ".lora_B.weight".toList with
      | some target => .ok (target ++ ".weight".toList, false)
      | none => .error (.invalid "adapter holds a tensor other than lora_A and lora_B weights")

/-- The factors of a target, as far as they came in. -/
structure Factors where
  a : Option TensorEntry
  b : Option TensorEntry
  deriving DecidableEq, Repr

abbrev Pairs := List (Text × Factors)

/-- A factor of a target is written over the one that was there. -/
def addFactor (pairs : Pairs) (target : Text) (isA : Bool) (entry : TensorEntry) : Pairs :=
  let factors := (Entries.get target pairs).getD ⟨none, none⟩
  Entries.insert target
    (if isA then { factors with a := some entry } else { factors with b := some entry }) pairs

def adapterPairs : Pairs → List (Text × TensorEntry) → Except LoraError Pairs
  | pairs, [] => .ok pairs
  | pairs, (key, entry) :: rest => do
      let (target, isA) ← adapterTarget key
      adapterPairs (addFactor pairs target isA entry) rest

end Adapters

section Merging

structure CheckpointFile where
  path : Text
  bytes : List UInt8
  deriving DecidableEq, Repr

/-- A file as it is written, and whether a weight in it was changed. -/
structure MergedFile where
  path : Text
  bytes : List UInt8
  changed : Bool
  deriving DecidableEq, Repr

/-- The extension of a path; a name that is nothing else has none. -/
def isSafetensors (path : Text) : Bool :=
  match path.dropSuffix? ".safetensors".toList with
  | some stem => stem.getLast?.any (· ≠ '/')
  | none => false

/-- What a merge has read: the adapter with its factors, its rank and its scaling. -/
structure Adapter (F : Type) where
  file : List UInt8
  pairs : Pairs
  rank : Nat
  scaling : F
  deriving DecidableEq

/-- The bytes between two places of a file, replaced by as many. -/
def putSlice (file : List UInt8) (start : Nat) (part : List UInt8) : List UInt8 :=
  file.take start ++ part ++ file.drop (start + part.length)

variable {F : Type} (ops : Arithmetic F) (allocates : Nat → Bool) (adapter : Adapter F)

/-- The merge of one pair into the weight that it is for. -/
def mergePair (a b weight : TensorEntry) (file : List UInt8) : Except LoraError (List UInt8) :=
  match weight.shape with
  | [rows, columns] =>
      if weight.dtype ≠ "BF16".toList then .error (.invalid "LoRA merge needs a BF16 base")
      else if a.shape ≠ [adapter.rank, columns] ∨ b.shape ≠ [rows, adapter.rank] then
        .error (.invalid "adapter shapes do not match the base weight")
      else do
        let aBytes ← orError (slice adapter.file a.start a.stop) .panicked
        let aValues ← toF32 ops aBytes a.dtype
        let bBytes ← orError (slice adapter.file b.start b.stop) .panicked
        let bValues ← toF32 ops bBytes b.dtype
        let weightBytes ← orError (slice file weight.start weight.stop) .panicked
        let merged ← orError
          (mergeInto ops allocates weightBytes rows columns aValues bValues adapter.rank
            adapter.scaling)
          .panicked
        .ok (putSlice file weight.start merged)
  | _ => .error (.invalid "a LoRA target must be a matrix")

/-- What is left of a file's weights to visit: the file so far, whether it changed, and how
many targets remain. -/
structure Progress where
  file : List UInt8
  changed : Bool
  remaining : Nat

def mergeEntry (name : Text) (weight : TensorEntry) (progress : Progress) :
    Except LoraError Progress :=
  match Entries.get name adapter.pairs with
  | none => .ok progress
  | some ⟨some a, some b⟩ => do
      let file ← mergePair ops allocates adapter a b weight progress.file
      let remaining ← orError (checkedSub progress.remaining 1) .underflow
      .ok ⟨file, true, remaining⟩
  | some _ => .error (.invalid "an adapter target lacks lora_A or lora_B")

def mergeEntries : List (Text × TensorEntry) → Progress → Except LoraError Progress
  | [], progress => .ok progress
  | (name, weight) :: rest, progress => do
      mergeEntries rest (← mergeEntry ops allocates adapter name weight progress)

/-- One file of the base, and how many targets remain after it. -/
def mergeFile (reader : JsonReader) (file : CheckpointFile) (remaining : Nat) :
    Except LoraError (MergedFile × Nat) :=
  if isSafetensors file.path then do
    let entries ← tensorEntries reader file.bytes
    let progress ← mergeEntries ops allocates adapter entries ⟨file.bytes, false, remaining⟩
    .ok (⟨file.path, progress.file, progress.changed⟩, progress.remaining)
  else .ok (⟨file.path, file.bytes, false⟩, remaining)

def mergeFiles (reader : JsonReader) :
    List CheckpointFile → Nat → Except LoraError (List MergedFile × Nat)
  | [], remaining => .ok ([], remaining)
  | file :: rest, remaining => do
      let (merged, remaining) ← mergeFile ops allocates adapter reader file remaining
      let (others, remaining) ← mergeFiles reader rest remaining
      .ok (merged :: others, remaining)

end Merging

section Commands

/-- An adapter as it lies on disk, and the files of a base, which can all be read. -/
structure MergeInput where
  config : List UInt8
  adapter : List UInt8
  files : List CheckpointFile

variable {F : Type} (ops : Arithmetic F) (allocates : Nat → Bool) (reader : JsonReader)

def readAdapter (input : MergeInput) (scale : F) : Except LoraError (Adapter F) := do
  let config ← orError (reader.fromSlice input.config) .json
  let (scaling, rank) ← scalingFactor ops config scale
  let entries ← tensorEntries reader input.adapter
  let pairs ← adapterPairs [] entries
  if pairs = [] then .error (.invalid "adapter holds no tensors")
  else .ok ⟨input.adapter, pairs, rank, scaling⟩

/-- The loop over the files of the base, and the check that no target is left. -/
def mergeLoop (adapter : Adapter F) (files : List CheckpointFile) :
    Except LoraError (List MergedFile) := do
  let (merged, remaining) ← mergeFiles ops allocates adapter reader files adapter.pairs.length
  if remaining ≠ 0 then .error (.invalid "an adapter target is missing from the base")
  else .ok merged

/-- The merged files are then bound to a manifest and verified, which succeeds or not. -/
def mergeLora (finish : MergeInput → F → List MergedFile → Except String Unit)
    (input : MergeInput) (scale : F) : Except LoraError Unit := do
  let adapter ← readAdapter ops reader input scale
  let merged ← mergeLoop ops allocates reader adapter input.files
  match finish input scale merged with
  | .ok () => .ok ()
  | .error message => .error (.unfinished message)

end Commands

end Riley.Lora
