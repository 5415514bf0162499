import Riley.Graph.MetadataLayout
import Riley.Library.Outcome
import Riley.Library.Regions

/-!
The regions of an accepted layout are those of unbounded arithmetic: in the order of the fields,
aligned, apart from each other and inside of the slab.
-/

namespace Riley.PureDecodeGraphMetadata

open Outcome
open Regions (Part roundUp places stop)

namespace Field

/-- How many bytes an element of a field takes. -/
def elementBytes : Field → Nat
  | header | controlStatus => 1
  | validTokens => U16_BYTES
  | tokenIds | positionIds | rowSequenceSlots | sequenceBlockOffsets | physicalBlockIds
  | outputTokenIndices => U32_BYTES

def alignment : Field → Nat
  | validTokens => U16_BYTES
  | _ => U32_BYTES

theorem mem_all (field : Field) : field ∈ all := by
  cases field <;> decide

theorem getElem?_all (field : Field) : all[field.index.val]? = some field := by
  cases field <;> rfl

theorem index_injective : Function.Injective index := by
  intro first second h
  have hfirst := getElem?_all first
  rw [h, getElem?_all] at hfirst
  exact (Option.some.inj hfirst).symm

theorem alignment_pos (field : Field) : 0 < field.alignment := by
  cases field <;> decide

end Field

section Geometry

namespace LayoutSpec

/-- The bucket is one of the catalog, there is a block entry for every row, and the regions whose
content the layout does not know are not empty. -/
structure Supported (spec : LayoutSpec) : Prop where
  bucket : spec.bucketRows ∈ PURE_DECODE_GRAPH_BUCKETS
  capacity : spec.bucketRows ≤ spec.blockEntryCapacity
  header : 0 < spec.headerBytes
  controlStatus : 0 < spec.controlStatusBytes

/-- How many elements a field has. -/
def elements (spec : LayoutSpec) : Field → Nat
  | .header => spec.headerBytes
  | .tokenIds | .positionIds | .rowSequenceSlots | .outputTokenIndices => spec.bucketRows
  | .sequenceBlockOffsets => spec.bucketRows + 1
  | .physicalBlockIds | .validTokens => spec.blockEntryCapacity
  | .controlStatus => spec.controlStatusBytes

def part (spec : LayoutSpec) (field : Field) : Part :=
  ⟨spec.elements field * field.elementBytes, field.alignment⟩

def parts (spec : LayoutSpec) : List Part := Field.all.map spec.part

/-- The length of the slab in unbounded arithmetic. -/
def trueTotal (spec : LayoutSpec) : Nat := roundUp (stop 0 spec.parts) BASE_ALIGNMENT

def fieldSpec (spec : LayoutSpec) (field : Field) : FieldSpec :=
  (field, (spec.part field).length, (spec.part field).alignment)

end LayoutSpec

variable {spec : LayoutSpec} {field : Field}

theorem orOverflow_eq_ok {value : Option Nat} {result : Nat} :
    orOverflow value field = .ok result ↔ value = some result := by
  cases value <;> simp [orOverflow]

theorem alignUp_eq_ok {value alignment result : Nat} (h : value ≤ u64Max) :
    alignUp value alignment field = .ok result ↔
      roundUp value alignment ≤ u64Max ∧ result = roundUp value alignment := by
  unfold alignUp roundUp
  dsimp only
  split
  · simp [h, eq_comm]
  · rw [orOverflow_eq_ok, checkedAdd_eq_some]
    constructor
    · rintro ⟨rfl, hle⟩
      exact ⟨hle, rfl⟩
    · rintro ⟨hle, rfl⟩
      exact ⟨rfl, hle⟩

theorem pushRegion_eq_ok {cursor byteLen alignment : Nat} {region : Region} {next : Nat}
    (h : cursor ≤ u64Max) :
    pushRegion cursor byteLen alignment field = .ok (region, next) ↔
      roundUp cursor alignment + byteLen ≤ u64Max ∧
        region = ⟨roundUp cursor alignment, byteLen, alignment⟩ ∧
        next = roundUp cursor alignment + byteLen := by
  unfold pushRegion
  constructor
  · intro hok
    obtain ⟨offset, hoffset, hok⟩ := except_bind_eq_ok.mp hok
    obtain ⟨_, rfl⟩ := (alignUp_eq_ok h).mp hoffset
    obtain ⟨stop, hstop, hok⟩ := except_bind_eq_ok.mp hok
    obtain ⟨rfl, hle⟩ := checkedAdd_eq_some.mp (orOverflow_eq_ok.mp hstop)
    cases hok
    exact ⟨hle, rfl, rfl⟩
  · rintro ⟨hle, rfl, rfl⟩
    refine except_bind_eq_ok.mpr ⟨_, (alignUp_eq_ok h).mpr ⟨by omega, rfl⟩, ?_⟩
    refine except_bind_eq_ok.mpr ⟨_, orOverflow_eq_ok.mpr (checkedAdd_eq_some.mpr ⟨rfl, hle⟩), ?_⟩
    rfl

/-- What `fixed_regions` puts into the array. -/
def assign (regions : Fin FIELD_COUNT → Region) (cursor : Nat) :
    List FieldSpec → Fin FIELD_COUNT → Region
  | [] => regions
  | (field, byteLen, alignment) :: rest =>
      assign
        (fun index => if index = field.index then
          ⟨roundUp cursor alignment, byteLen, alignment⟩ else regions index)
        (roundUp cursor alignment + byteLen) rest

def partOf (fieldSpec : FieldSpec) : Part := ⟨fieldSpec.2.1, fieldSpec.2.2⟩

theorem fixedRegionsFrom_eq_ok {regions : Fin FIELD_COUNT → Region} {cursor : Nat}
    {fields : List FieldSpec} {result : (Fin FIELD_COUNT → Region) × Nat} (h : cursor ≤ u64Max) :
    fixedRegionsFrom regions cursor fields = .ok result ↔
      stop cursor (fields.map partOf) ≤ u64Max ∧
        result = (assign regions cursor fields, stop cursor (fields.map partOf)) := by
  induction fields generalizing regions cursor with
  | nil => simp [fixedRegionsFrom, stop, assign, h, eq_comm]
  | cons first rest ih =>
      obtain ⟨field, byteLen, alignment⟩ := first
      have hstop := Regions.le_stop (roundUp cursor alignment + byteLen) (rest.map partOf)
      constructor
      · intro hok
        obtain ⟨⟨region, next⟩, hpush, hok⟩ := except_bind_eq_ok.mp hok
        obtain ⟨hle, rfl, rfl⟩ := (pushRegion_eq_ok h).mp hpush
        exact (ih hle).mp hok
      · rintro ⟨hle, rfl⟩
        have hnext : roundUp cursor alignment + byteLen ≤ u64Max := Nat.le_trans hstop hle
        refine except_bind_eq_ok.mpr
          ⟨_, (pushRegion_eq_ok h).mpr ⟨hnext, rfl, rfl⟩, (ih hnext).mpr ⟨hle, rfl⟩⟩

theorem assign_of_not_mem {regions : Fin FIELD_COUNT → Region} {cursor : Nat}
    {fields : List FieldSpec} (h : field ∉ fields.map Prod.fst) :
    assign regions cursor fields field.index = regions field.index := by
  induction fields generalizing regions cursor with
  | nil => rfl
  | cons first rest ih =>
      simp only [List.map_cons, List.mem_cons, not_or] at h
      rw [assign, ih h.2, if_neg fun heq => h.1 (Field.index_injective heq)]

/-- The region of a field is the one at its place. -/
theorem assign_of_getElem? {regions : Fin FIELD_COUNT → Region} {cursor : Nat}
    {fields : List FieldSpec} (hnodup : (fields.map Prod.fst).Nodup) {index byteLen alignment : Nat}
    (hfield : fields[index]? = some (field, byteLen, alignment)) {place : Nat}
    (hplace : (places cursor (fields.map partOf))[index]? = some place) :
    assign regions cursor fields field.index = ⟨place, byteLen, alignment⟩ := by
  induction fields generalizing regions cursor index with
  | nil => cases hfield
  | cons first rest ih =>
      obtain ⟨hnot, hnodup⟩ := List.nodup_cons.mp hnodup
      cases index with
      | zero =>
          cases hfield
          cases hplace
          rw [assign, assign_of_not_mem hnot, if_pos rfl]
          rfl
      | succ index => exact ih hnodup hfield hplace

theorem validateColdSpec_eq_ok {rows : Nat} :
    validateColdSpec spec = .ok rows ↔ spec.Supported ∧ rows = spec.bucketRows := by
  unfold validateColdSpec
  constructor
  · intro h
    split at h
    · cases h
    next hbucket =>
    split at h
    · cases h
    next hcapacity =>
    split at h
    · cases h
    next hheader =>
    split at h
    · cases h
    next hcontrol =>
    cases h
    exact ⟨⟨by simpa using hbucket, by omega, by omega, by omega⟩, rfl⟩
  · rintro ⟨⟨hbucket, hcapacity, hheader, hcontrol⟩, rfl⟩
    rw [if_neg (by simpa using hbucket), if_neg (by omega), if_neg (by omega), if_neg (by omega)]

theorem checkedByteLen_eq_ok {count width result : Nat} :
    checkedByteLen count width field = .ok result ↔
      count * width ≤ u64Max ∧ result = count * width := by
  rw [checkedByteLen, orOverflow_eq_ok, checkedMul_eq_some]
  constructor
  · rintro ⟨rfl, hle⟩
    exact ⟨hle, rfl⟩
  · rintro ⟨hle, rfl⟩
    exact ⟨rfl, hle⟩

/-- The lengths of the fields are products that fit. -/
theorem fixedFieldSpecs_eq_ok {fields : List FieldSpec} :
    fixedFieldSpecs spec spec.bucketRows = .ok fields ↔
      (spec.bucketRows + 1) * U32_BYTES ≤ u64Max ∧ spec.blockEntryCapacity * U32_BYTES ≤ u64Max ∧
        fields = Field.all.map spec.fieldSpec := by
  have hu32 : U32_BYTES = 4 := rfl
  have hspecs : Field.all.map spec.fieldSpec =
      [(.header, spec.headerBytes * 1, U32_BYTES),
        (.tokenIds, spec.bucketRows * U32_BYTES, U32_BYTES),
        (.positionIds, spec.bucketRows * U32_BYTES, U32_BYTES),
        (.rowSequenceSlots, spec.bucketRows * U32_BYTES, U32_BYTES),
        (.sequenceBlockOffsets, (spec.bucketRows + 1) * U32_BYTES, U32_BYTES),
        (.physicalBlockIds, spec.blockEntryCapacity * U32_BYTES, U32_BYTES),
        (.validTokens, spec.blockEntryCapacity * U16_BYTES, U16_BYTES),
        (.outputTokenIndices, spec.bucketRows * U32_BYTES, U32_BYTES),
        (.controlStatus, spec.controlStatusBytes * 1, U32_BYTES)] := rfl
  rw [hspecs, Nat.mul_one, Nat.mul_one]
  constructor
  · intro h
    unfold fixedFieldSpecs at h
    obtain ⟨count, hcount, h⟩ := except_bind_eq_ok.mp h
    obtain ⟨rfl, _⟩ := checkedAdd_eq_some.mp (orOverflow_eq_ok.mp hcount)
    obtain ⟨_, htoken, h⟩ := except_bind_eq_ok.mp h
    obtain ⟨_, rfl⟩ := checkedByteLen_eq_ok.mp htoken
    obtain ⟨_, hposition, h⟩ := except_bind_eq_ok.mp h
    obtain ⟨_, rfl⟩ := checkedByteLen_eq_ok.mp hposition
    obtain ⟨_, hslot, h⟩ := except_bind_eq_ok.mp h
    obtain ⟨_, rfl⟩ := checkedByteLen_eq_ok.mp hslot
    obtain ⟨_, hoffset, h⟩ := except_bind_eq_ok.mp h
    obtain ⟨hrows, rfl⟩ := checkedByteLen_eq_ok.mp hoffset
    obtain ⟨_, hblock, h⟩ := except_bind_eq_ok.mp h
    obtain ⟨hcapacity, rfl⟩ := checkedByteLen_eq_ok.mp hblock
    obtain ⟨_, hvalid, h⟩ := except_bind_eq_ok.mp h
    obtain ⟨_, rfl⟩ := checkedByteLen_eq_ok.mp hvalid
    obtain ⟨_, houtput, h⟩ := except_bind_eq_ok.mp h
    obtain ⟨_, rfl⟩ := checkedByteLen_eq_ok.mp houtput
    cases h
    exact ⟨hrows, hcapacity, rfl⟩
  · rintro ⟨hrows, hcapacity, rfl⟩
    have hone : spec.bucketRows + 1 ≤ u64Max := by
      simp only [hu32] at hrows
      omega
    have hwide : spec.bucketRows * U32_BYTES ≤ u64Max :=
      Nat.le_trans (Nat.mul_le_mul_right _ (Nat.le_add_right _ 1)) hrows
    have hnarrow : spec.blockEntryCapacity * U16_BYTES ≤ u64Max :=
      Nat.le_trans (Nat.mul_le_mul_left _ (by decide)) hcapacity
    have hrow : ∀ field, checkedByteLen spec.bucketRows U32_BYTES field =
        .ok (spec.bucketRows * U32_BYTES) := fun _ => checkedByteLen_eq_ok.mpr ⟨hwide, rfl⟩
    unfold fixedFieldSpecs
    refine except_bind_eq_ok.mpr
      ⟨_, orOverflow_eq_ok.mpr (checkedAdd_eq_some.mpr ⟨rfl, hone⟩), ?_⟩
    refine except_bind_eq_ok.mpr ⟨_, hrow _, ?_⟩
    refine except_bind_eq_ok.mpr ⟨_, hrow _, ?_⟩
    refine except_bind_eq_ok.mpr ⟨_, hrow _, ?_⟩
    refine except_bind_eq_ok.mpr ⟨_, checkedByteLen_eq_ok.mpr ⟨hrows, rfl⟩, ?_⟩
    refine except_bind_eq_ok.mpr ⟨_, checkedByteLen_eq_ok.mpr ⟨hcapacity, rfl⟩, ?_⟩
    refine except_bind_eq_ok.mpr ⟨_, checkedByteLen_eq_ok.mpr ⟨hnarrow, rfl⟩, ?_⟩
    refine except_bind_eq_ok.mpr ⟨_, hrow _, ?_⟩
    rfl

theorem map_partOf : (Field.all.map spec.fieldSpec).map partOf = spec.parts := by
  rw [List.map_map]
  rfl

theorem getElem?_parts (spec : LayoutSpec) (field : Field) :
    spec.parts[field.index.val]? = some (spec.part field) := by
  rw [LayoutSpec.parts, List.getElem?_map, Field.getElem?_all]
  rfl

theorem exists_place (spec : LayoutSpec) (field : Field) :
    ∃ place, (places 0 spec.parts)[field.index.val]? = some place := by
  have hlt : field.index.val < (places 0 spec.parts).length := by
    rw [Regions.length_places]
    exact (List.getElem?_eq_some_iff.mp (getElem?_parts spec field)).choose
  exact ⟨_, List.getElem?_eq_getElem hlt⟩

/-- The layout of a specification in unbounded arithmetic. -/
def trueLayout (spec : LayoutSpec) : Layout :=
  ⟨spec.bucketRows, spec.blockEntryCapacity,
    assign (fun _ => .zero) 0 (Field.all.map spec.fieldSpec), spec.trueTotal⟩

theorem region_trueLayout {place : Nat}
    (hplace : (places 0 spec.parts)[field.index.val]? = some place) :
    (trueLayout spec).region field =
      ⟨place, spec.elements field * field.elementBytes, field.alignment⟩ := by
  have hfield : (Field.all.map spec.fieldSpec)[field.index.val]? = some (spec.fieldSpec field) := by
    rw [List.getElem?_map, Field.getElem?_all]
    rfl
  have hnodup : ((Field.all.map spec.fieldSpec).map Prod.fst).Nodup := by
    have hmap : Prod.fst ∘ spec.fieldSpec = id := rfl
    rw [List.map_map, hmap]
    decide
  rw [← map_partOf] at hplace
  have hassign := @assign_of_getElem? _ (fun _ => .zero) 0 _ hnodup _ _ _ hfield _ hplace
  exact hassign

/-- A specification is accepted where it is supported and its slab fits 64 bits; its layout is
then the one of unbounded arithmetic. -/
theorem tryNew_eq_ok {layout : Layout} :
    Layout.tryNew spec = .ok layout ↔
      spec.Supported ∧ spec.trueTotal ≤ u64Max ∧ layout = trueLayout spec := by
  have hzero : (0 : Nat) ≤ u64Max := Nat.zero_le _
  have hround := Regions.le_roundUp (stop 0 spec.parts) BASE_ALIGNMENT
  unfold Layout.tryNew fixedRegions
  constructor
  · intro h
    obtain ⟨rows, hrows, h⟩ := except_bind_eq_ok.mp h
    obtain ⟨hsupported, rfl⟩ := validateColdSpec_eq_ok.mp hrows
    obtain ⟨fields, hfields, h⟩ := except_bind_eq_ok.mp h
    obtain ⟨_, _, rfl⟩ := fixedFieldSpecs_eq_ok.mp hfields
    obtain ⟨regions, hregions, h⟩ := except_bind_eq_ok.mp h
    obtain ⟨⟨assigned, cursor⟩, hassigned, hregions⟩ := except_bind_eq_ok.mp hregions
    obtain ⟨hstop, hresult⟩ := (fixedRegionsFrom_eq_ok hzero).mp hassigned
    rw [map_partOf] at hstop hresult
    cases hresult
    obtain ⟨total, htotal, hregions⟩ := except_bind_eq_ok.mp hregions
    obtain ⟨hle, rfl⟩ := (alignUp_eq_ok hstop).mp htotal
    cases hregions
    cases h
    exact ⟨hsupported, hle, rfl⟩
  · rintro ⟨hsupported, htotal, rfl⟩
    rw [LayoutSpec.trueTotal] at htotal
    have hstop : stop 0 spec.parts ≤ u64Max := by omega
    have hpart : ∀ field, spec.elements field * field.elementBytes ≤ u64Max := by
      intro field
      obtain ⟨place, hplace⟩ := exists_place spec field
      obtain ⟨_, hle, _⟩ := Regions.place_spec (getElem?_parts spec field) hplace
      have hlength : (spec.part field).length = spec.elements field * field.elementBytes := rfl
      omega
    refine except_bind_eq_ok.mpr ⟨_, validateColdSpec_eq_ok.mpr ⟨hsupported, rfl⟩, ?_⟩
    refine except_bind_eq_ok.mpr ⟨_, fixedFieldSpecs_eq_ok.mpr
      ⟨hpart .sequenceBlockOffsets, hpart .physicalBlockIds, rfl⟩, ?_⟩
    refine except_bind_eq_ok.mpr ⟨(assign (fun _ => .zero) 0 (Field.all.map spec.fieldSpec),
      spec.trueTotal), ?_, rfl⟩
    refine except_bind_eq_ok.mpr ⟨_, (fixedRegionsFrom_eq_ok hzero).mpr
      ⟨by rw [map_partOf]; exact hstop, rfl⟩, ?_⟩
    refine except_bind_eq_ok.mpr ⟨_, (alignUp_eq_ok (by rw [map_partOf]; exact hstop)).mpr
      ⟨by rw [map_partOf]; exact htotal, rfl⟩, ?_⟩
    rw [map_partOf]
    rfl

/-- Where a region ends. -/
def Region.stop (region : Region) : Nat := region.offset + region.byteLen

def Region.Covers (region : Region) (index : Nat) : Prop :=
  region.offset ≤ index ∧ index < region.stop

/-- What the regions of an accepted layout are to each other and to the slab. -/
structure LaidOut (spec : LayoutSpec) (layout : Layout) : Prop where
  total : layout.totalBytes = spec.trueTotal
  fits : layout.totalBytes ≤ u64Max
  byteLen : ∀ field, (layout.region field).byteLen = spec.elements field * field.elementBytes
  alignment : ∀ field, (layout.region field).alignment = field.alignment
  aligned : ∀ field, field.alignment ∣ (layout.region field).offset
  inside : ∀ field, (layout.region field).stop ≤ layout.totalBytes
  ordered : ∀ first second, first.index < second.index →
    (layout.region first).stop ≤ (layout.region second).offset

theorem laidOut_of_tryNew {layout : Layout} (h : Layout.tryNew spec = .ok layout) :
    LaidOut spec layout := by
  obtain ⟨_, htotal, rfl⟩ := tryNew_eq_ok.mp h
  have hround := Regions.le_roundUp (stop 0 spec.parts) BASE_ALIGNMENT
  refine ⟨rfl, htotal, ?_, ?_, ?_, ?_, ?_⟩
  · intro field
    obtain ⟨place, hplace⟩ := exists_place spec field
    rw [region_trueLayout hplace]
  · intro field
    obtain ⟨place, hplace⟩ := exists_place spec field
    rw [region_trueLayout hplace]
  · intro field
    obtain ⟨place, hplace⟩ := exists_place spec field
    obtain ⟨_, _, hdvd⟩ := Regions.place_spec (getElem?_parts spec field) hplace
    rw [region_trueLayout hplace]
    exact hdvd field.alignment_pos
  · intro field
    obtain ⟨place, hplace⟩ := exists_place spec field
    obtain ⟨_, hle, _⟩ := Regions.place_spec (getElem?_parts spec field) hplace
    rw [region_trueLayout hplace]
    exact Nat.le_trans hle hround
  · intro first second hlt
    obtain ⟨place, hplace⟩ := exists_place spec first
    obtain ⟨place', hplace'⟩ := exists_place spec second
    rw [region_trueLayout hplace, region_trueLayout hplace']
    exact Regions.places_apart (getElem?_parts spec first) hplace hplace' hlt

/-- No byte of the slab is in two regions. -/
theorem LaidOut.apart {layout : Layout} (h : LaidOut spec layout) {first second : Field}
    (hne : first ≠ second) (index : Nat) :
    ¬ ((layout.region first).Covers index ∧ (layout.region second).Covers index) := by
  rintro ⟨⟨hfirst, hbefore⟩, hsecond, hbefore'⟩
  rcases Nat.lt_trichotomy first.index.val second.index.val with hlt | heq | hgt
  · have hle := h.ordered first second hlt
    omega
  · exact hne (Field.index_injective (Fin.ext heq))
  · have hle := h.ordered second first hgt
    omega

end Geometry

end Riley.PureDecodeGraphMetadata
