import Riley.Machine

/-!
The fixed layout of the metadata of a pure-decode graph: nine regions of one slab, in the order
of the fields, at offsets that follow from the bucket and the capacities alone. The digest of a
layout is left out, as nothing that is modelled reads it.
-/

namespace Riley.PureDecodeGraphMetadata

def U16_BYTES : Nat := 2
def U32_BYTES : Nat := 4
def BASE_ALIGNMENT : Nat := U32_BYTES
def FIELD_COUNT : Nat := 9
def PURE_DECODE_GRAPH_BUCKETS : List Nat := [1, 2, 4, 8, 16, 32]

inductive Field
  | header
  | tokenIds
  | positionIds
  | rowSequenceSlots
  | sequenceBlockOffsets
  | physicalBlockIds
  | validTokens
  | outputTokenIndices
  | controlStatus
  deriving DecidableEq, Repr

namespace Field

def all : List Field :=
  [header, tokenIds, positionIds, rowSequenceSlots, sequenceBlockOffsets, physicalBlockIds,
    validTokens, outputTokenIndices, controlStatus]

def index : Field → Fin FIELD_COUNT
  | header => ⟨0, by decide⟩
  | tokenIds => ⟨1, by decide⟩
  | positionIds => ⟨2, by decide⟩
  | rowSequenceSlots => ⟨3, by decide⟩
  | sequenceBlockOffsets => ⟨4, by decide⟩
  | physicalBlockIds => ⟨5, by decide⟩
  | validTokens => ⟨6, by decide⟩
  | outputTokenIndices => ⟨7, by decide⟩
  | controlStatus => ⟨8, by decide⟩

end Field

/-- The index of a field in the table of the packer. -/
def fieldIndex : Field → Fin FIELD_COUNT
  | .header => ⟨0, by decide⟩
  | .tokenIds => ⟨1, by decide⟩
  | .positionIds => ⟨2, by decide⟩
  | .rowSequenceSlots => ⟨3, by decide⟩
  | .sequenceBlockOffsets => ⟨4, by decide⟩
  | .physicalBlockIds => ⟨5, by decide⟩
  | .validTokens => ⟨6, by decide⟩
  | .outputTokenIndices => ⟨7, by decide⟩
  | .controlStatus => ⟨8, by decide⟩

structure LayoutSpec where
  bucketRows : Nat
  blockEntryCapacity : Nat
  headerBytes : Nat
  controlStatusBytes : Nat
  deriving DecidableEq, Repr

structure Region where
  offset : Nat
  byteLen : Nat
  alignment : Nat
  deriving DecidableEq, Repr

def Region.zero : Region := ⟨0, 0, 1⟩

inductive LayoutError
  | unsupportedBucket (bucketRows : Nat)
  | blockEntryCapacityTooSmall (bucketRows blockEntryCapacity : Nat)
  | zeroSizedOpaqueRegion (field : Field)
  | arithmeticOverflow (field : Field)
  deriving DecidableEq, Repr

/-- The regions are an array by the index of their fields. -/
structure Layout where
  bucketRows : Nat
  blockEntryCapacity : Nat
  regions : Fin FIELD_COUNT → Region
  totalBytes : Nat

def Layout.region (layout : Layout) (field : Field) : Region := layout.regions field.index

section Geometry

/-- A value that must not be missing, or the overflow of a field. -/
def orOverflow (value : Option Nat) (field : Field) : Except LayoutError Nat :=
  match value with
  | some value => .ok value
  | none => .error (.arithmeticOverflow field)

def validateColdSpec (spec : LayoutSpec) : Except LayoutError Nat :=
  if !PURE_DECODE_GRAPH_BUCKETS.contains spec.bucketRows then
    .error (.unsupportedBucket spec.bucketRows)
  else if spec.blockEntryCapacity < spec.bucketRows then
    .error (.blockEntryCapacityTooSmall spec.bucketRows spec.blockEntryCapacity)
  else if spec.headerBytes = 0 then .error (.zeroSizedOpaqueRegion .header)
  else if spec.controlStatusBytes = 0 then .error (.zeroSizedOpaqueRegion .controlStatus)
  else .ok spec.bucketRows

def checkedByteLen (elementCount elementBytes : Nat) (field : Field) : Except LayoutError Nat :=
  orOverflow (checkedMul u64Max elementCount elementBytes) field

abbrev FieldSpec := Field × Nat × Nat

/-- The fields with the lengths and the alignments of their regions. -/
def fixedFieldSpecs (spec : LayoutSpec) (bucketRows : Nat) :
    Except LayoutError (List FieldSpec) := do
  let sequenceBlockOffsetCount ←
    orOverflow (checkedAdd u64Max bucketRows 1) .sequenceBlockOffsets
  let tokenBytes ← checkedByteLen bucketRows U32_BYTES .tokenIds
  let positionBytes ← checkedByteLen bucketRows U32_BYTES .positionIds
  let rowSequenceSlotBytes ← checkedByteLen bucketRows U32_BYTES .rowSequenceSlots
  let sequenceBlockOffsetBytes ←
    checkedByteLen sequenceBlockOffsetCount U32_BYTES .sequenceBlockOffsets
  let physicalBlockIdBytes ← checkedByteLen spec.blockEntryCapacity U32_BYTES .physicalBlockIds
  let validTokenBytes ← checkedByteLen spec.blockEntryCapacity U16_BYTES .validTokens
  let outputTokenIndexBytes ← checkedByteLen bucketRows U32_BYTES .outputTokenIndices
  .ok [(.header, spec.headerBytes, U32_BYTES),
    (.tokenIds, tokenBytes, U32_BYTES),
    (.positionIds, positionBytes, U32_BYTES),
    (.rowSequenceSlots, rowSequenceSlotBytes, U32_BYTES),
    (.sequenceBlockOffsets, sequenceBlockOffsetBytes, U32_BYTES),
    (.physicalBlockIds, physicalBlockIdBytes, U32_BYTES),
    (.validTokens, validTokenBytes, U16_BYTES),
    (.outputTokenIndices, outputTokenIndexBytes, U32_BYTES),
    (.controlStatus, spec.controlStatusBytes, U32_BYTES)]

def alignUp (value alignment : Nat) (field : Field) : Except LayoutError Nat :=
  let remainder := value % alignment
  if remainder = 0 then .ok value
  else orOverflow (checkedAdd u64Max value (alignment - remainder)) field

/-- The region of a field, and the cursor behind it. -/
def pushRegion (cursor byteLen alignment : Nat) (field : Field) :
    Except LayoutError (Region × Nat) := do
  let offset ← alignUp cursor alignment field
  let cursor ← orOverflow (checkedAdd u64Max offset byteLen) field
  .ok (⟨offset, byteLen, alignment⟩, cursor)

/-- The loop of `fixed_regions`. -/
def fixedRegionsFrom (regions : Fin FIELD_COUNT → Region) (cursor : Nat) :
    List FieldSpec → Except LayoutError ((Fin FIELD_COUNT → Region) × Nat)
  | [] => .ok (regions, cursor)
  | (field, byteLen, alignment) :: rest => do
      let (region, cursor) ← pushRegion cursor byteLen alignment field
      fixedRegionsFrom (fun index => if index = field.index then region else regions index) cursor
        rest

def fixedRegions (fields : List FieldSpec) :
    Except LayoutError ((Fin FIELD_COUNT → Region) × Nat) := do
  let (regions, cursor) ← fixedRegionsFrom (fun _ => .zero) 0 fields
  let totalBytes ← alignUp cursor BASE_ALIGNMENT .controlStatus
  .ok (regions, totalBytes)

def Layout.tryNew (spec : LayoutSpec) : Except LayoutError Layout := do
  let bucketRows ← validateColdSpec spec
  let fields ← fixedFieldSpecs spec bucketRows
  let (regions, totalBytes) ← fixedRegions fields
  .ok ⟨spec.bucketRows, spec.blockEntryCapacity, regions, totalBytes⟩

end Geometry

end Riley.PureDecodeGraphMetadata
