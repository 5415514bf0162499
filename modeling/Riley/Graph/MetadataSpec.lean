import Riley.Graph.MetadataPacker
import Riley.Graph.MetadataRegions

/-!
A source whose lengths are those of the regions is packed into a slab that is long enough, and is
read back from it; no other packing changes anything.
-/

namespace Riley.PureDecodeGraphMetadata

open Outcome
open Regions (splice spliceAll)

namespace FieldSources

/-- How many values the source of a field has. -/
def count (source : FieldSources) : Field → Nat
  | .header => source.header.length
  | .tokenIds => source.tokenIds.length
  | .positionIds => source.positionIds.length
  | .rowSequenceSlots => source.rowSequenceSlots.length
  | .sequenceBlockOffsets => source.sequenceBlockOffsets.length
  | .physicalBlockIds => source.physicalBlockIds.length
  | .validTokens => source.validTokens.length
  | .outputTokenIndices => source.outputTokenIndices.length
  | .controlStatus => source.controlStatus.length

/-- The source of a field, little-endian. -/
def bytes (source : FieldSources) : Field → List UInt8
  | .header => source.header
  | .tokenIds => source.tokenIds.flatMap u32ToLeBytes
  | .positionIds => source.positionIds.flatMap u32ToLeBytes
  | .rowSequenceSlots => source.rowSequenceSlots.flatMap u32ToLeBytes
  | .sequenceBlockOffsets => source.sequenceBlockOffsets.flatMap u32ToLeBytes
  | .physicalBlockIds => source.physicalBlockIds.flatMap u32ToLeBytes
  | .validTokens => source.validTokens.flatMap u16ToLeBytes
  | .outputTokenIndices => source.outputTokenIndices.flatMap u32ToLeBytes
  | .controlStatus => source.controlStatus

end FieldSources

section Decoding

/-- The numbers of a region, one behind the other. -/
def decodeU32s (bytes : List UInt8) : List UInt32 :=
  (LittleEndian.readAll U32_BYTES (bytes.length / U32_BYTES) bytes).map UInt32.ofNat

def decodeU16s (bytes : List UInt8) : List UInt16 :=
  (LittleEndian.readAll U16_BYTES (bytes.length / U16_BYTES) bytes).map UInt16.ofNat

def Layout.bytesOf (layout : Layout) (slab : List UInt8) (field : Field) : Option (List UInt8) :=
  Offsets.slice slab (layout.region field).offset (layout.region field).stop

/-- The fields as they are read from their regions. -/
def Layout.unpack (layout : Layout) (slab : List UInt8) : Option FieldSources := do
  let header ← layout.bytesOf slab .header
  let tokenIds ← layout.bytesOf slab .tokenIds
  let positionIds ← layout.bytesOf slab .positionIds
  let rowSequenceSlots ← layout.bytesOf slab .rowSequenceSlots
  let sequenceBlockOffsets ← layout.bytesOf slab .sequenceBlockOffsets
  let physicalBlockIds ← layout.bytesOf slab .physicalBlockIds
  let validTokens ← layout.bytesOf slab .validTokens
  let outputTokenIndices ← layout.bytesOf slab .outputTokenIndices
  let controlStatus ← layout.bytesOf slab .controlStatus
  some ⟨header, decodeU32s tokenIds, decodeU32s positionIds, decodeU32s rowSequenceSlots,
    decodeU32s sequenceBlockOffsets, decodeU32s physicalBlockIds, decodeU16s validTokens,
    decodeU32s outputTokenIndices, controlStatus⟩

theorem length_u32ToLeBytes (values : List UInt32) :
    (values.flatMap u32ToLeBytes).length = values.length * U32_BYTES :=
  LittleEndian.length_flatMap_toBytes U32_BYTES UInt32.toNat values

theorem length_u16ToLeBytes (values : List UInt16) :
    (values.flatMap u16ToLeBytes).length = values.length * U16_BYTES :=
  LittleEndian.length_flatMap_toBytes U16_BYTES UInt16.toNat values

theorem decodeU32s_flatMap (values : List UInt32) :
    decodeU32s (values.flatMap u32ToLeBytes) = values := by
  have hread := LittleEndian.readAll_flatMap U32_BYTES UInt32.toNat values (by decide)
    fun word _ => word.toNat_lt
  have hinverse : UInt32.ofNat ∘ UInt32.toNat = id := funext fun word => UInt32.ofNat_toNat
  refine (congrArg (List.map UInt32.ofNat) hread).trans ?_
  simp [hinverse]

theorem decodeU16s_flatMap (values : List UInt16) :
    decodeU16s (values.flatMap u16ToLeBytes) = values := by
  have hread := LittleEndian.readAll_flatMap U16_BYTES UInt16.toNat values (by decide)
    fun word _ => word.toNat_lt
  have hinverse : UInt16.ofNat ∘ UInt16.toNat = id := funext fun word => UInt16.ofNat_toNat
  refine (congrArg (List.map UInt16.ofNat) hread).trans ?_
  simp [hinverse]

theorem length_bytes (source : FieldSources) (field : Field) :
    (source.bytes field).length = source.count field * field.elementBytes := by
  cases field with
  | header => exact (Nat.mul_one _).symm
  | controlStatus => exact (Nat.mul_one _).symm
  | validTokens => exact length_u16ToLeBytes _
  | tokenIds => exact length_u32ToLeBytes _
  | positionIds => exact length_u32ToLeBytes _
  | rowSequenceSlots => exact length_u32ToLeBytes _
  | sequenceBlockOffsets => exact length_u32ToLeBytes _
  | physicalBlockIds => exact length_u32ToLeBytes _
  | outputTokenIndices => exact length_u32ToLeBytes _

/-- A slab whose regions hold the bytes of a source is read back as the source. -/
theorem unpack_eq_some {layout : Layout} {slab : List UInt8} {source : FieldSources}
    (h : ∀ field, layout.bytesOf slab field = some (source.bytes field)) :
    layout.unpack slab = some source := by
  simp [Layout.unpack, h, FieldSources.bytes, decodeU32s_flatMap, decodeU16s_flatMap]

end Decoding

section Packing

variable {spec : LayoutSpec} {layout : Layout} {source : FieldSources} {hostMax : Nat}
  {destination slab : List UInt8} {field : Field}

/-- The table of the packer is that of the layout. -/
theorem fieldIndex_eq (field : Field) : fieldIndex field = field.index := by
  cases field <;> rfl

theorem tryFrom_eq_ok {largest value result : Nat} {error : PackError} :
    tryFrom largest value error = .ok result ↔ value ≤ largest ∧ result = value := by
  unfold tryFrom
  split
  · next hle => simp [hle, eq_comm]
  · next hlt => simp [hlt]

theorem checkedRegionBounds_eq_ok (h : LaidOut spec layout) (hhost : layout.totalBytes ≤ hostMax)
    (field : Field) :
    checkedRegionBounds hostMax layout field layout.totalBytes =
      .ok ((layout.region field).offset, (layout.region field).stop) := by
  have hinside := h.inside field
  rw [Region.stop] at hinside
  have hoffset : (layout.region field).offset ≤ hostMax := by omega
  have hlength : (layout.region field).byteLen ≤ hostMax := by omega
  have hadd : checkedAdd hostMax (layout.region field).offset (layout.region field).byteLen =
      some (layout.region field).stop := checkedAdd_eq_some.mpr ⟨rfl, by omega⟩
  unfold checkedRegionBounds
  refine except_bind_eq_ok.mpr ⟨_, tryFrom_eq_ok.mpr ⟨hoffset, rfl⟩, ?_⟩
  refine except_bind_eq_ok.mpr ⟨_, tryFrom_eq_ok.mpr ⟨hlength, rfl⟩, ?_⟩
  rw [hadd]
  exact if_neg (Nat.not_lt.mpr hinside)

theorem boundsFrom_eq_ok (h : LaidOut spec layout) (hhost : layout.totalBytes ≤ hostMax)
    (bounds : Fin FIELD_COUNT → Nat × Nat) (fields : List Field) :
    ∃ result, boundsFrom hostMax layout layout.totalBytes bounds fields = .ok result ∧
      ∀ field, result field.index = if field ∈ fields
        then ((layout.region field).offset, (layout.region field).stop)
        else bounds field.index := by
  induction fields generalizing bounds with
  | nil => exact ⟨bounds, rfl, fun field => (if_neg List.not_mem_nil).symm⟩
  | cons first rest ih =>
      obtain ⟨result, hresult, hbounds⟩ := ih fun index => if index = fieldIndex first then
        ((layout.region first).offset, (layout.region first).stop) else bounds index
      refine ⟨result, except_bind_eq_ok.mpr ⟨_, checkedRegionBounds_eq_ok h hhost first, hresult⟩,
        ?_⟩
      intro field
      rw [hbounds, fieldIndex_eq]
      by_cases hmem : field ∈ rest
      · simp [hmem]
      · by_cases heq : field = first
        · simp [heq]
        · have hindex : field.index ≠ first.index := fun hsame => heq (Field.index_injective hsame)
          simp [hmem, heq, hindex]

theorem le_of_validatePackLayout {validated : ValidatedPackLayout}
    (h : validatePackLayout hostMax layout destination = .ok validated) :
    layout.totalBytes ≤ destination.length := by
  obtain ⟨slabLen, hslab, hok⟩ := except_bind_eq_ok.mp h
  obtain ⟨_, rfl⟩ := tryFrom_eq_ok.mp hslab
  split at hok
  · cases hok
  · next hge => exact Nat.not_lt.mp hge

/-- A destination that is long enough is not rejected, and the bounds are those of the regions. -/
theorem validatePackLayout_of_le (h : LaidOut spec layout) (hhost : destination.length ≤ hostMax)
    (hle : layout.totalBytes ≤ destination.length) :
    ∃ validated, validatePackLayout hostMax layout destination = .ok validated ∧
      validated.slabLen = layout.totalBytes ∧
      ∀ field, validated.boundsOf field =
        ((layout.region field).offset, (layout.region field).stop) := by
  have htotal := Nat.le_trans hle hhost
  obtain ⟨result, hresult, hbounds⟩ := boundsFrom_eq_ok h htotal (fun _ => (0, 0)) Field.all
  refine ⟨⟨layout.totalBytes, result⟩, ?_, rfl, ?_⟩
  · refine except_bind_eq_ok.mpr ⟨_, tryFrom_eq_ok.mpr ⟨htotal, rfl⟩, ?_⟩
    rw [if_neg (Nat.not_lt.mpr hle)]
    exact except_bind_eq_ok.mpr ⟨result, hresult, rfl⟩
  · intro field
    have hfield := hbounds field
    rw [if_pos field.mem_all, ← fieldIndex_eq] at hfield
    exact hfield

theorem validateFieldLength_eq_ok (h : LaidOut spec layout) (hhost : layout.totalBytes ≤ hostMax) :
    validateFieldLength hostMax layout field (source.count field) field.elementBytes = .ok () ↔
      (source.bytes field).length = (layout.region field).byteLen := by
  have hinside := h.inside field
  have hfits := h.fits
  rw [Region.stop] at hinside
  have hwidth : field.elementBytes ≤ u64Max := by
    cases field <;> decide
  have hmod : (layout.region field).byteLen % field.elementBytes = 0 := by
    rw [h.byteLen]
    exact Nat.mul_mod_left _ _
  rw [length_bytes]
  unfold validateFieldLength
  constructor
  · intro hok
    obtain ⟨width, hwidth, hok⟩ := except_bind_eq_ok.mp hok
    split at hok
    · cases hok
    · split at hok
      · cases hok
      next actual hmul =>
      obtain ⟨rfl, _⟩ := checkedMul_eq_some.mp hmul
      obtain ⟨_, hactual, hok⟩ := except_bind_eq_ok.mp hok
      obtain ⟨_, rfl⟩ := tryFrom_eq_ok.mp hactual
      split at hok
      · cases hok
      · next heq => exact Decidable.not_not.mp heq
  · intro hlength
    have hmul : checkedMul hostMax (source.count field) field.elementBytes =
        some (layout.region field).byteLen := checkedMul_eq_some.mpr ⟨hlength, by omega⟩
    refine except_bind_eq_ok.mpr ⟨_, tryFrom_eq_ok.mpr ⟨hwidth, rfl⟩, ?_⟩
    rw [if_neg (not_not.mpr hmod), hmul]
    refine except_bind_eq_ok.mpr ⟨_, tryFrom_eq_ok.mpr ⟨by omega, rfl⟩, ?_⟩
    exact if_neg (not_not.mpr rfl)

theorem validateSource_eq_ok :
    validateSource hostMax layout source = .ok () ↔ ∀ field,
      validateFieldLength hostMax layout field (source.count field) field.elementBytes = .ok () := by
  unfold validateSource
  constructor
  · intro hok field
    obtain ⟨_, hheader, hok⟩ := except_bind_eq_ok.mp hok
    obtain ⟨_, htoken, hok⟩ := except_bind_eq_ok.mp hok
    obtain ⟨_, hposition, hok⟩ := except_bind_eq_ok.mp hok
    obtain ⟨_, hslot, hok⟩ := except_bind_eq_ok.mp hok
    obtain ⟨_, hoffset, hok⟩ := except_bind_eq_ok.mp hok
    obtain ⟨_, hblock, hok⟩ := except_bind_eq_ok.mp hok
    obtain ⟨_, hvalid, hok⟩ := except_bind_eq_ok.mp hok
    obtain ⟨_, houtput, hcontrol⟩ := except_bind_eq_ok.mp hok
    cases field <;> assumption
  · intro hall
    exact except_bind_eq_ok.mpr ⟨_, hall .header, except_bind_eq_ok.mpr ⟨_, hall .tokenIds,
      except_bind_eq_ok.mpr ⟨_, hall .positionIds, except_bind_eq_ok.mpr ⟨_, hall .rowSequenceSlots,
      except_bind_eq_ok.mpr ⟨_, hall .sequenceBlockOffsets, except_bind_eq_ok.mpr
      ⟨_, hall .physicalBlockIds, except_bind_eq_ok.mpr ⟨_, hall .validTokens,
      except_bind_eq_ok.mpr ⟨_, hall .outputTokenIndices, hall .controlStatus⟩⟩⟩⟩⟩⟩⟩⟩

theorem onSlice_eq_ok {start stop : Nat} {part : List UInt8}
    {write : List UInt8 → Except PackError (List UInt8)}
    (hwrite : ∀ bytes, bytes.length = part.length → write bytes = .ok part)
    (hstop : stop = start + part.length) (hle : stop ≤ destination.length) :
    onSlice destination (start, stop) write = .ok (splice destination start part) := by
  subst hstop
  have hlength : ((destination.drop start).take (start + part.length - start)).length =
      part.length := by
    rw [List.length_take, List.length_drop]
    omega
  refine (if_pos ⟨Nat.le_add_right _ _, hle⟩).trans ?_
  exact except_bind_eq_ok.mpr ⟨part, hwrite _ hlength, rfl⟩

/-- As many chunks as there are values are written over whole. -/
theorem writeChunks_eq {α : Type} {width : Nat} {toLeBytes : α → List UInt8}
    {bytes : List UInt8} {values : List α} (h : bytes.length = values.length * width) :
    writeChunks width toLeBytes bytes values = values.flatMap toLeBytes := by
  induction values generalizing bytes with
  | nil =>
      rw [List.length_nil, Nat.zero_mul] at h
      exact List.eq_nil_of_length_eq_zero h
  | cons value rest ih =>
      rw [List.length_cons, Nat.succ_mul] at h
      have hrest : (bytes.drop width).length = rest.length * width := by
        rw [List.length_drop]
        omega
      rw [writeChunks, if_neg (by omega), ih hrest, List.flatMap_cons]

theorem writeBytes_eq_ok {start stop : Nat} {values : List UInt8}
    (hstop : stop = start + values.length) (hle : stop ≤ destination.length) :
    writeBytes destination (start, stop) values = .ok (splice destination start values) :=
  onSlice_eq_ok (fun _ hbytes => if_pos hbytes) hstop hle

theorem writeU32s_eq_ok {start stop : Nat} {values : List UInt32}
    (hstop : stop = start + (values.flatMap u32ToLeBytes).length)
    (hle : stop ≤ destination.length) :
    writeU32s destination (start, stop) values =
      .ok (splice destination start (values.flatMap u32ToLeBytes)) := by
  refine onSlice_eq_ok (fun bytes hbytes => ?_) hstop hle
  rw [writeChunks_eq (hbytes.trans (length_u32ToLeBytes values))]

theorem writeU16s_eq_ok {start stop : Nat} {values : List UInt16}
    (hstop : stop = start + (values.flatMap u16ToLeBytes).length)
    (hle : stop ≤ destination.length) :
    writeU16s destination (start, stop) values =
      .ok (splice destination start (values.flatMap u16ToLeBytes)) := by
  refine onSlice_eq_ok (fun bytes hbytes => ?_) hstop hle
  rw [writeChunks_eq (hbytes.trans (length_u16ToLeBytes values))]

/-- The writer of a field. -/
def writeField (validated : ValidatedPackLayout) (source : FieldSources) (slab : List UInt8)
    (field : Field) : Except PackError (List UInt8) :=
  match field with
  | .header => writeBytes slab (validated.boundsOf .header) source.header
  | .tokenIds => writeU32s slab (validated.boundsOf .tokenIds) source.tokenIds
  | .positionIds => writeU32s slab (validated.boundsOf .positionIds) source.positionIds
  | .rowSequenceSlots =>
      writeU32s slab (validated.boundsOf .rowSequenceSlots) source.rowSequenceSlots
  | .sequenceBlockOffsets =>
      writeU32s slab (validated.boundsOf .sequenceBlockOffsets) source.sequenceBlockOffsets
  | .physicalBlockIds =>
      writeU32s slab (validated.boundsOf .physicalBlockIds) source.physicalBlockIds
  | .validTokens => writeU16s slab (validated.boundsOf .validTokens) source.validTokens
  | .outputTokenIndices =>
      writeU32s slab (validated.boundsOf .outputTokenIndices) source.outputTokenIndices
  | .controlStatus => writeBytes slab (validated.boundsOf .controlStatus) source.controlStatus

theorem writeFields_eq_foldlM (validated : ValidatedPackLayout) (source : FieldSources)
    (slab : List UInt8) :
    writeFields validated source slab = Field.all.foldlM (writeField validated source) slab := by
  simp [writeFields, Field.all, writeField]

/-- What is written of a source, and where. -/
def Layout.write (layout : Layout) (source : FieldSources) (field : Field) : Nat × List UInt8 :=
  ((layout.region field).offset, source.bytes field)

theorem writeField_eq_ok {validated : ValidatedPackLayout}
    (hbounds : validated.boundsOf field = ((layout.region field).offset, (layout.region field).stop))
    (hlength : (source.bytes field).length = (layout.region field).byteLen)
    (hle : (layout.region field).stop ≤ slab.length) :
    writeField validated source slab field =
      .ok (splice slab (layout.region field).offset (source.bytes field)) := by
  have hstop : (layout.region field).stop =
      (layout.region field).offset + (source.bytes field).length := by
    rw [hlength, Region.stop]
  cases field with
  | header =>
      rw [writeField, hbounds]
      exact writeBytes_eq_ok hstop hle
  | controlStatus =>
      rw [writeField, hbounds]
      exact writeBytes_eq_ok hstop hle
  | validTokens =>
      rw [writeField, hbounds]
      exact writeU16s_eq_ok hstop hle
  | tokenIds =>
      rw [writeField, hbounds]
      exact writeU32s_eq_ok hstop hle
  | positionIds =>
      rw [writeField, hbounds]
      exact writeU32s_eq_ok hstop hle
  | rowSequenceSlots =>
      rw [writeField, hbounds]
      exact writeU32s_eq_ok hstop hle
  | sequenceBlockOffsets =>
      rw [writeField, hbounds]
      exact writeU32s_eq_ok hstop hle
  | physicalBlockIds =>
      rw [writeField, hbounds]
      exact writeU32s_eq_ok hstop hle
  | outputTokenIndices =>
      rw [writeField, hbounds]
      exact writeU32s_eq_ok hstop hle

/-- The fields are written over the slab one after the other. -/
theorem foldlM_writeField {validated : ValidatedPackLayout}
    (hbounds : ∀ field, validated.boundsOf field =
      ((layout.region field).offset, (layout.region field).stop))
    (hlength : ∀ field, (source.bytes field).length = (layout.region field).byteLen)
    (hle : ∀ field, (layout.region field).stop ≤ slab.length) (fields : List Field) :
    fields.foldlM (writeField validated source) slab =
      .ok (spliceAll slab (fields.map (layout.write source))) := by
  induction fields generalizing slab with
  | nil => rfl
  | cons field rest ih =>
      have hspliced : (splice slab (layout.region field).offset (source.bytes field)).length =
          slab.length := by
        apply Regions.length_splice
        rw [hlength field]
        exact hle field
      rw [List.foldlM_cons, writeField_eq_ok (hbounds field) (hlength field) (hle field)]
      exact ih (by rw [hspliced]; exact hle)

theorem apart_writes (h : LaidOut spec layout)
    (hlength : ∀ field, (source.bytes field).length = (layout.region field).byteLen) :
    Regions.Apart layout.totalBytes (Field.all.map (layout.write source)) := by
  constructor
  · intro write hmem
    obtain ⟨field, _, rfl⟩ := List.mem_map.mp hmem
    rw [Layout.write, hlength field]
    exact h.inside field
  · have hsorted : Field.all.Pairwise fun first second => first.index < second.index := by decide
    refine List.pairwise_map.mpr (hsorted.imp fun {first second} hlt => ?_)
    rw [Layout.write, Layout.write, hlength first]
    exact h.ordered first second hlt

/-- What a destination holds after a source was packed into it. -/
structure Packed (layout : Layout) (source : FieldSources) (destination packed : List UInt8) :
    Prop where
  length : packed.length = destination.length
  unpack : layout.unpack packed = some source
  gaps : ∀ index < layout.totalBytes, (∀ field, ¬ (layout.region field).Covers index) →
    packed[index]? = some 0
  rest : ∀ index, layout.totalBytes ≤ index → packed[index]? = destination[index]?

/-- The destination after a source was packed into it: the regions over zeros, and the rest. -/
def Layout.packed (layout : Layout) (source : FieldSources) (destination : List UInt8) :
    List UInt8 :=
  spliceAll (List.replicate layout.totalBytes 0) (Field.all.map (layout.write source)) ++
    destination.drop layout.totalBytes

theorem packed_spec (h : LaidOut spec layout) (hle : layout.totalBytes ≤ destination.length)
    (hlength : ∀ field, (source.bytes field).length = (layout.region field).byteLen) :
    Packed layout source destination (layout.packed source destination) := by
  have hzeros : (List.replicate layout.totalBytes (0 : UInt8)).length = layout.totalBytes :=
    List.length_replicate
  have hapart : Regions.Apart (List.replicate layout.totalBytes (0 : UInt8)).length
      (Field.all.map (layout.write source)) := by
    rw [hzeros]
    exact apart_writes h hlength
  have hslab := (Regions.length_spliceAll hapart).trans hzeros
  refine ⟨?_, unpack_eq_some fun field => ?_, ?_, ?_⟩
  · rw [Layout.packed, List.length_append, hslab, List.length_drop]
    omega
  · have hmem : layout.write source field ∈ Field.all.map (layout.write source) :=
      List.mem_map_of_mem field.mem_all
    have hslice := Regions.slice_spliceAll hapart hmem
    obtain ⟨before, after, hwhole, hbefore, hstop⟩ := Offsets.slice_eq_some.mp hslice
    refine Offsets.slice_eq_some.mpr
      ⟨before, after ++ destination.drop layout.totalBytes, ?_, hbefore, ?_⟩
    · rw [Layout.packed, hwhole]
      simp [Layout.write]
    · rw [hlength, Region.stop]
  · intro index hindex hgap
    have houtside : ∀ write ∈ Field.all.map (layout.write source),
        index < write.1 ∨ write.1 + write.2.length ≤ index := by
      intro write hmem
      obtain ⟨field, _, rfl⟩ := List.mem_map.mp hmem
      have hfield := hgap field
      rw [Region.Covers, Region.stop, ← hlength field] at hfield
      simp only [Layout.write]
      omega
    rw [Layout.packed, List.getElem?_append_left (by omega),
      Regions.getElem?_spliceAll_outside hapart houtside, List.getElem?_replicate, if_pos hindex]
  · intro index hindex
    rw [Layout.packed, List.getElem?_append_right (by omega), List.getElem?_drop]
    congr 1
    omega

/-- Where the lengths are right, every region is written. -/
theorem pack_of_fits {binding : Binding} (hbinding : binding.layout = layout)
    (h : LaidOut spec layout) (hhost : destination.length ≤ hostMax)
    (hle : layout.totalBytes ≤ destination.length)
    (hlength : ∀ field, (source.bytes field).length = (layout.region field).byteLen) :
    packPureDecodeGraphMetadataLe hostMax binding source destination =
      (.ok (), layout.packed source destination) := by
  subst hbinding
  obtain ⟨validated, hvalidated, hslab, hbounds⟩ := validatePackLayout_of_le h hhost hle
  have hsource : validateSource hostMax binding.layout source = .ok () :=
    validateSource_eq_ok.mpr fun field =>
      (validateFieldLength_eq_ok h (Nat.le_trans hle hhost)).mpr (hlength field)
  have hzeros : ((destination.drop 0).take (validated.slabLen - 0)).map (fun _ => (0 : UInt8)) =
      List.replicate binding.layout.totalBytes 0 := by
    rw [List.map_const', hslab, List.length_take, List.length_drop]
    congr 1
    omega
  have hwritten : writeFields validated source (List.replicate binding.layout.totalBytes 0) =
      .ok (spliceAll (List.replicate binding.layout.totalBytes 0)
        (Field.all.map (binding.layout.write source))) := by
    rw [writeFields_eq_foldlM]
    refine foldlM_writeField hbounds hlength (fun field => ?_) Field.all
    rw [List.length_replicate]
    exact h.inside field
  have hslice : onSlice destination (0, validated.slabLen) (fun slab =>
      writeFields validated source (slab.map fun _ => 0)) =
        .ok (binding.layout.packed source destination) := by
    refine (if_pos ⟨Nat.zero_le _, hslab ▸ hle⟩).trans ?_
    refine except_bind_eq_ok.mpr ⟨spliceAll (List.replicate binding.layout.totalBytes 0)
      (Field.all.map (binding.layout.write source)), ?_, ?_⟩
    · exact (congrArg (writeFields validated source) hzeros).trans hwritten
    · rw [hslab]
      simp [Layout.packed]
  simp only [packPureDecodeGraphMetadataLe, hvalidated, hsource, hslice]

/-- Only where the lengths are right anything is written. -/
theorem fits_of_pack {binding : Binding} (hbinding : binding.layout = layout)
    (h : LaidOut spec layout) (hhost : destination.length ≤ hostMax)
    (hok : (packPureDecodeGraphMetadataLe hostMax binding source destination).1 = .ok ()) :
    layout.totalBytes ≤ destination.length ∧
      ∀ field, (source.bytes field).length = (layout.region field).byteLen := by
  subst hbinding
  unfold packPureDecodeGraphMetadataLe at hok
  dsimp only at hok
  split at hok
  · cases hok
  next validated hvalidated =>
  have hle := le_of_validatePackLayout hvalidated
  split at hok
  · cases hok
  next hsource =>
  refine ⟨hle, fun field => ?_⟩
  exact (validateFieldLength_eq_ok h (Nat.le_trans hle hhost)).mp
    (validateSource_eq_ok.mp hsource field)

/-- What is not packed leaves the destination as it was. -/
theorem pack_error {binding : Binding} {error : PackError}
    (h : (packPureDecodeGraphMetadataLe hostMax binding source destination).1 = .error error) :
    (packPureDecodeGraphMetadataLe hostMax binding source destination).2 = destination := by
  unfold packPureDecodeGraphMetadataLe at h ⊢
  dsimp only at h ⊢
  split
  · rfl
  · split
    · rfl
    · split
      · rfl
      · simp_all

end Packing

section Panics

variable {α β : Type} {spec : LayoutSpec} {layout : Layout} {source : FieldSources} {hostMax : Nat}
  {destination : List UInt8}

def NoPanic (outcome : Except PackError α) : Prop := outcome ≠ .error .panicked

theorem NoPanic.bind {outcome : Except PackError α} {next : α → Except PackError β}
    (h : NoPanic outcome) (hnext : ∀ value, NoPanic (next value)) : NoPanic (outcome >>= next) := by
  cases outcome with
  | ok value => exact hnext value
  | error error => exact fun heq => h (congrArg Except.error (Except.error.inj heq))

theorem noPanic_tryFrom {largest value : Nat} {error : PackError} (h : error ≠ .panicked) :
    NoPanic (tryFrom largest value error) := by
  unfold tryFrom
  split
  · exact nofun
  · exact fun heq => h (Except.error.inj heq)

theorem noPanic_validateFieldLength (field : Field) (actual elementBytes : Nat) :
    NoPanic (validateFieldLength hostMax layout field actual elementBytes) := by
  unfold validateFieldLength
  refine NoPanic.bind ?_ fun width => ?_
  · exact noPanic_tryFrom nofun
  split
  · exact nofun
  split
  · exact nofun
  refine NoPanic.bind ?_ fun length => ?_
  · exact noPanic_tryFrom nofun
  split
  · exact nofun
  · exact nofun

theorem noPanic_validateSource : NoPanic (validateSource hostMax layout source) := by
  unfold validateSource
  repeat refine (noPanic_validateFieldLength _ _ _).bind fun _ => ?_
  exact noPanic_validateFieldLength _ _ _

theorem noPanic_boundsFrom (slabLen : Nat) (bounds : Fin FIELD_COUNT → Nat × Nat)
    (fields : List Field) : NoPanic (boundsFrom hostMax layout slabLen bounds fields) := by
  induction fields generalizing bounds with
  | nil => exact nofun
  | cons field rest ih =>
      refine NoPanic.bind ?_ fun found => ih _
      unfold checkedRegionBounds
      refine NoPanic.bind ?_ fun offset => NoPanic.bind ?_ fun length => ?_
      · exact noPanic_tryFrom nofun
      · exact noPanic_tryFrom nofun
      split
      · exact nofun
      split
      · exact nofun
      · exact nofun

theorem noPanic_validatePackLayout : NoPanic (validatePackLayout hostMax layout destination) := by
  unfold validatePackLayout
  refine NoPanic.bind ?_ fun slabLen => ?_
  · exact noPanic_tryFrom nofun
  split
  · exact nofun
  · exact (noPanic_boundsFrom _ _ _).bind fun bounds => nofun

/-- No slice of an accepted layout is missing and no copy is of another length. -/
theorem pack_ne_panicked {binding : Binding} (h : LaidOut spec binding.layout)
    (hhost : destination.length ≤ hostMax) :
    (packPureDecodeGraphMetadataLe hostMax binding source destination).1 ≠ .error .panicked := by
  intro hpanic
  cases hvalidated : validatePackLayout hostMax binding.layout destination with
  | error error =>
      simp only [packPureDecodeGraphMetadataLe, hvalidated] at hpanic
      cases hpanic
      exact noPanic_validatePackLayout hvalidated
  | ok validated =>
      cases hsource : validateSource hostMax binding.layout source with
      | error error =>
          simp only [packPureDecodeGraphMetadataLe, hvalidated, hsource] at hpanic
          cases hpanic
          exact noPanic_validateSource hsource
      | ok _ =>
          have hle := le_of_validatePackLayout hvalidated
          have hpack := pack_of_fits rfl h hhost hle fun field =>
            (validateFieldLength_eq_ok h (Nat.le_trans hle hhost)).mp
              (validateSource_eq_ok.mp hsource field)
          rw [hpack] at hpanic
          cases hpanic

end Panics

/-- A specification is accepted where its slab fits 64 bits. The regions of the layout are then in
order, aligned and apart. A source is packed where its lengths and that of the destination fit,
and is read back; otherwise nothing is written. -/
theorem packPureDecodeGraphMetadataLe_spec (spec : LayoutSpec) :
    ((∃ layout, Layout.tryNew spec = .ok layout) ↔ spec.Supported ∧ spec.trueTotal ≤ u64Max) ∧
      ∀ layout, Layout.tryNew spec = .ok layout → LaidOut spec layout ∧
        (∀ first second, first ≠ second → ∀ index,
          ¬ ((layout.region first).Covers index ∧ (layout.region second).Covers index)) ∧
        ∀ hostMax padding binding source destination outcome packed,
          Binding.tryNew layout padding = .ok binding → destination.length ≤ hostMax →
          packPureDecodeGraphMetadataLe hostMax binding source destination = (outcome, packed) →
            (outcome = .ok () ↔ layout.totalBytes ≤ destination.length ∧
              ∀ field, (source.bytes field).length = (layout.region field).byteLen) ∧
            (outcome = .ok () → Packed layout source destination packed) ∧
            ∀ error, outcome = .error error → error ≠ .panicked ∧ packed = destination := by
  refine ⟨⟨?_, ?_⟩, ?_⟩
  · rintro ⟨layout, hlayout⟩
    obtain ⟨hsupported, htotal, _⟩ := tryNew_eq_ok.mp hlayout
    exact ⟨hsupported, htotal⟩
  · rintro ⟨hsupported, htotal⟩
    exact ⟨_, tryNew_eq_ok.mpr ⟨hsupported, htotal, rfl⟩⟩
  · intro layout hlayout
    have h := laidOut_of_tryNew hlayout
    refine ⟨h, fun first second hne index => h.apart hne index, ?_⟩
    intro hostMax padding binding source destination outcome packed hbinding hhost hpack
    have hlayout : binding.layout = layout := by
      unfold Binding.tryNew at hbinding
      split at hbinding
      · cases hbinding
      · cases hbinding
        rfl
    subst hlayout
    have hfits : outcome = .ok () → binding.layout.totalBytes ≤ destination.length ∧
        ∀ field, (source.bytes field).length = (binding.layout.region field).byteLen := by
      rintro rfl
      exact fits_of_pack rfl h hhost (congrArg Prod.fst hpack)
    refine ⟨⟨hfits, ?_⟩, ?_, ?_⟩
    · rintro ⟨hle, hlength⟩
      rw [pack_of_fits rfl h hhost hle hlength] at hpack
      exact (congrArg Prod.fst hpack).symm
    · intro hok
      obtain ⟨hle, hlength⟩ := hfits hok
      rw [pack_of_fits rfl h hhost hle hlength] at hpack
      obtain ⟨_, rfl⟩ := Prod.mk.inj hpack
      exact packed_spec h hle hlength
    · rintro error rfl
      have hfst := congrArg Prod.fst hpack
      refine ⟨?_, (congrArg Prod.snd hpack).symm.trans (pack_error hfst)⟩
      rintro rfl
      exact pack_ne_panicked h hhost hfst

/-- One row of one block, with a header and a status of one byte each. -/
def oneRow : LayoutSpec := ⟨1, 1, 1, 1⟩

def oneRowSources : FieldSources := ⟨[170], [7], [3], [0], [0, 1], [9], [4], [0], [85]⟩

theorem packPureDecodeGraphMetadataLe_spec_oneRow :
    ∃ packed,
      packPureDecodeGraphMetadataLe usizeMax ⟨trueLayout oneRow, ⟨1, 1, 0⟩⟩ oneRowSources
        (List.replicate 42 255) = (.ok (), packed) ∧
      (trueLayout oneRow).unpack packed = some oneRowSources ∧ packed[41]? = some 255 := by
  obtain ⟨_, hspec⟩ := packPureDecodeGraphMetadataLe_spec oneRow
  have hlayout : Layout.tryNew oneRow = .ok (trueLayout oneRow) :=
    tryNew_eq_ok.mpr ⟨⟨by decide, by decide, by decide, by decide⟩, by decide, rfl⟩
  obtain ⟨hlaid, _, hpack⟩ := hspec (trueLayout oneRow) hlayout
  have hdestination : (List.replicate 42 (255 : UInt8)).length ≤ usizeMax := by decide
  have hlength : ∀ field, (oneRowSources.bytes field).length =
      ((trueLayout oneRow).region field).byteLen := by
    intro field
    cases field <;> decide
  generalize hresult : packPureDecodeGraphMetadataLe usizeMax ⟨trueLayout oneRow, ⟨1, 1, 0⟩⟩
    oneRowSources (List.replicate 42 255) = result
  obtain ⟨outcome, packed⟩ := result
  obtain ⟨hiff, hpacked, _⟩ := hpack usizeMax ⟨1, 1, 0⟩ _ oneRowSources _ outcome packed rfl
    hdestination hresult
  have hok := hiff.mpr ⟨by decide, hlength⟩
  have hrest := (hpacked hok).rest 41 (by decide)
  exact ⟨packed, by rw [hok], (hpacked hok).unpack, hrest.trans (by decide)⟩

end Riley.PureDecodeGraphMetadata
