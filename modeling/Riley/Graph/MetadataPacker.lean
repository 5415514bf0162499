import Mathlib
import Riley.Graph.MetadataLayout
import Riley.Library.LittleEndian

/-!
Writing the metadata of a pure-decode graph into a slab of the caller: the lengths of the
destination and of every source are checked, then the slab is cleared and the regions are
written. `hostMax` is the largest length on the host.
-/

namespace Riley.PureDecodeGraphMetadata

section Binding

structure PaddingPlan where
  active : Nat
  bucket : Nat
  padding : Nat
  deriving DecidableEq, Repr

inductive BindingError
  | layoutPaddingBucketMismatch (layoutBucket paddingBucket : Nat)
  deriving DecidableEq, Repr

/-- A layout and a padding plan for its bucket. -/
structure Binding where
  layout : Layout
  padding : PaddingPlan

def Binding.tryNew (layout : Layout) (padding : PaddingPlan) : Except BindingError Binding :=
  if layout.bucketRows ≠ padding.bucket then
    .error (.layoutPaddingBucketMismatch layout.bucketRows padding.bucket)
  else .ok ⟨layout, padding⟩

end Binding

structure FieldSources where
  header : List UInt8
  tokenIds : List UInt32
  positionIds : List UInt32
  rowSequenceSlots : List UInt32
  sequenceBlockOffsets : List UInt32
  physicalBlockIds : List UInt32
  validTokens : List UInt16
  outputTokenIndices : List UInt32
  controlStatus : List UInt8
  deriving DecidableEq, Repr

inductive PackError
  | layoutLengthNotAddressable (value : Nat)
  | destinationTooSmall (required available : Nat)
  | fieldByteLengthMismatch (field : Field) (expected actual : Nat)
  | sourceByteLengthOverflow (field : Field)
  | fieldByteLengthMisaligned (field : Field) (byteLen : Nat)
  /-- No error of the source: it would panic where a slice or a copy does not fit. -/
  | panicked
  deriving DecidableEq, Repr

structure ValidatedPackLayout where
  slabLen : Nat
  bounds : Fin FIELD_COUNT → Nat × Nat

def ValidatedPackLayout.boundsOf (validated : ValidatedPackLayout) (field : Field) : Nat × Nat :=
  validated.bounds (fieldIndex field)

section Validation

/-- A number that must fit a type with that largest value. -/
def tryFrom (largest value : Nat) (error : PackError) : Except PackError Nat :=
  if value ≤ largest then .ok value else .error error

def checkedRegionBounds (hostMax : Nat) (layout : Layout) (field : Field) (slabLen : Nat) :
    Except PackError (Nat × Nat) := do
  let region := layout.region field
  let offset ← tryFrom hostMax region.offset (.layoutLengthNotAddressable region.offset)
  let byteLen ← tryFrom hostMax region.byteLen (.layoutLengthNotAddressable region.byteLen)
  match checkedAdd hostMax offset byteLen with
  | none => .error (.layoutLengthNotAddressable layout.totalBytes)
  | some stop =>
      if slabLen < stop then .error (.layoutLengthNotAddressable layout.totalBytes)
      else .ok (offset, stop)

/-- The loop of `validate_pack_layout`. -/
def boundsFrom (hostMax : Nat) (layout : Layout) (slabLen : Nat)
    (bounds : Fin FIELD_COUNT → Nat × Nat) :
    List Field → Except PackError (Fin FIELD_COUNT → Nat × Nat)
  | [] => .ok bounds
  | field :: rest => do
      let found ← checkedRegionBounds hostMax layout field slabLen
      boundsFrom hostMax layout slabLen
        (fun index => if index = fieldIndex field then found else bounds index) rest

def validatePackLayout (hostMax : Nat) (layout : Layout) (destination : List UInt8) :
    Except PackError ValidatedPackLayout := do
  let slabLen ← tryFrom hostMax layout.totalBytes (.layoutLengthNotAddressable layout.totalBytes)
  if destination.length < slabLen then
    .error (.destinationTooSmall layout.totalBytes destination.length)
  else do
    let bounds ← boundsFrom hostMax layout slabLen (fun _ => (0, 0)) Field.all
    .ok ⟨slabLen, bounds⟩

def validateFieldLength (hostMax : Nat) (layout : Layout) (field : Field)
    (actual elementBytes : Nat) : Except PackError Unit := do
  let byteLen := (layout.region field).byteLen
  let elementBytes64 ← tryFrom u64Max elementBytes (.sourceByteLengthOverflow field)
  if byteLen % elementBytes64 ≠ 0 then .error (.fieldByteLengthMisaligned field byteLen)
  else
    match checkedMul hostMax actual elementBytes with
    | none => .error (.sourceByteLengthOverflow field)
    | some actual => do
        let actual ← tryFrom u64Max actual (.sourceByteLengthOverflow field)
        if actual ≠ byteLen then .error (.fieldByteLengthMismatch field byteLen actual)
        else .ok ()

def validateSource (hostMax : Nat) (layout : Layout) (source : FieldSources) :
    Except PackError Unit := do
  validateFieldLength hostMax layout .header source.header.length 1
  validateFieldLength hostMax layout .tokenIds source.tokenIds.length U32_BYTES
  validateFieldLength hostMax layout .positionIds source.positionIds.length U32_BYTES
  validateFieldLength hostMax layout .rowSequenceSlots source.rowSequenceSlots.length U32_BYTES
  validateFieldLength hostMax layout .sequenceBlockOffsets source.sequenceBlockOffsets.length
    U32_BYTES
  validateFieldLength hostMax layout .physicalBlockIds source.physicalBlockIds.length U32_BYTES
  validateFieldLength hostMax layout .validTokens source.validTokens.length U16_BYTES
  validateFieldLength hostMax layout .outputTokenIndices source.outputTokenIndices.length U32_BYTES
  validateFieldLength hostMax layout .controlStatus source.controlStatus.length 1

end Validation

section Writing

/-- Writes over a slice, if it is one. -/
def onSlice (destination : List UInt8) (bounds : Nat × Nat)
    (write : List UInt8 → Except PackError (List UInt8)) : Except PackError (List UInt8) :=
  let (start, stop) := bounds
  if start ≤ stop ∧ stop ≤ destination.length then do
    let written ← write ((destination.drop start).take (stop - start))
    .ok (destination.take start ++ written ++ destination.drop stop)
  else .error .panicked

def writeBytes (destination : List UInt8) (bounds : Nat × Nat) (values : List UInt8) :
    Except PackError (List UInt8) :=
  onSlice destination bounds fun bytes =>
    if bytes.length = values.length then .ok values else .error .panicked

/-- The chunks of a slice, each written over by the next value as long as there is one. -/
def writeChunks {α : Type} (width : Nat) (toLeBytes : α → List UInt8) :
    List UInt8 → List α → List UInt8
  | bytes, [] => bytes
  | bytes, value :: rest =>
      if bytes.length < width then bytes
      else toLeBytes value ++ writeChunks width toLeBytes (bytes.drop width) rest

def u32ToLeBytes (value : UInt32) : List UInt8 := LittleEndian.toBytes U32_BYTES value.toNat

def u16ToLeBytes (value : UInt16) : List UInt8 := LittleEndian.toBytes U16_BYTES value.toNat

def writeU32s (destination : List UInt8) (bounds : Nat × Nat) (values : List UInt32) :
    Except PackError (List UInt8) :=
  onSlice destination bounds fun bytes => .ok (writeChunks U32_BYTES u32ToLeBytes bytes values)

def writeU16s (destination : List UInt8) (bounds : Nat × Nat) (values : List UInt16) :
    Except PackError (List UInt8) :=
  onSlice destination bounds fun bytes => .ok (writeChunks U16_BYTES u16ToLeBytes bytes values)

def writeFields (validated : ValidatedPackLayout) (source : FieldSources) (slab : List UInt8) :
    Except PackError (List UInt8) := do
  let slab ← writeBytes slab (validated.boundsOf .header) source.header
  let slab ← writeU32s slab (validated.boundsOf .tokenIds) source.tokenIds
  let slab ← writeU32s slab (validated.boundsOf .positionIds) source.positionIds
  let slab ← writeU32s slab (validated.boundsOf .rowSequenceSlots) source.rowSequenceSlots
  let slab ← writeU32s slab (validated.boundsOf .sequenceBlockOffsets) source.sequenceBlockOffsets
  let slab ← writeU32s slab (validated.boundsOf .physicalBlockIds) source.physicalBlockIds
  let slab ← writeU16s slab (validated.boundsOf .validTokens) source.validTokens
  let slab ← writeU32s slab (validated.boundsOf .outputTokenIndices) source.outputTokenIndices
  writeBytes slab (validated.boundsOf .controlStatus) source.controlStatus

/-- The outcome, and the destination afterwards. What a panic would leave of it is not told. -/
def packPureDecodeGraphMetadataLe (hostMax : Nat) (binding : Binding) (source : FieldSources)
    (destination : List UInt8) : Except PackError Unit × List UInt8 :=
  let layout := binding.layout
  match validatePackLayout hostMax layout destination with
  | .error error => (.error error, destination)
  | .ok validated =>
      match validateSource hostMax layout source with
      | .error error => (.error error, destination)
      | .ok () =>
          let written := onSlice destination (0, validated.slabLen) fun slab =>
            writeFields validated source (slab.map fun _ => 0)
          match written with
          | .error error => (.error error, destination)
          | .ok written => (.ok (), written)

end Writing

end Riley.PureDecodeGraphMetadata
