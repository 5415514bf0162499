import Riley.Library.MixedRadix
import Riley.PagedKv.Pool
import Mathlib.Tactic.Ring

/-!
The byte layout of the key and the value allocation. The strides are products that the
construction checks; an address is the number, in the mixed radix of the dimensions, of its
coordinates, times the width of an element.
-/

namespace Riley.PagedKv

open MixedRadix Outcome

def bf16Bytes : Nat := 2

/-- Checked byte layout for `[layer, physical_block, kv_head, token, head_dim]`. -/
structure KvByteLayout where
  layerCount : Nat
  physicalBlockCount : Nat
  keyValueHeadCount : Nat
  headDimension : Nat
  headStrideBytes : Nat
  blockStrideBytes : Nat
  layerStrideBytes : Nat
  bytesPerKind : Nat
  bytesPerPhysicalBlock : Nat
  totalBytes : Nat
  deriving DecidableEq, Repr

namespace KvByteLayout

def requireNonzero (field : String) (value : Nat) : Except PagedKvError Unit :=
  if value = 0 then .error (.invalidConfiguration field "must be non-zero") else .ok ()

/-- A checked result, or an overflow that names its field. -/
def orOverflow (field : String) (value : Option Nat) : Except PagedKvError Nat :=
  match value with
  | some value => .ok value
  | none => .error (.arithmeticOverflow field)

/-- `checked_u64` -/
def checkedU64 (field : String) (value : Nat) : Except PagedKvError Nat :=
  orOverflow field (if value ≤ u64Max then some value else none)

/-- Builds the fixed BF16 K/V pool layout. -/
def checked (layerCount physicalBlockCount keyValueHeadCount headDimension : Nat) :
    Except PagedKvError KvByteLayout := do
  requireNonzero "layer_count" layerCount
  requireNonzero "physical_block_count" physicalBlockCount
  requireNonzero "key_value_head_count" keyValueHeadCount
  requireNonzero "head_dimension" headDimension
  if u32Max < physicalBlockCount then
    .error (.invalidConfiguration "physical_block_count"
      "must fit the U32 physical block table")
  else do
    let layers ← checkedU64 "layer_count" layerCount
    let blocks ← checkedU64 "physical_block_count" physicalBlockCount
    let heads ← checkedU64 "key_value_head_count" keyValueHeadCount
    let dimension ← checkedU64 "head_dimension" headDimension
    let headStrideBytes ← orOverflow "head_stride_bytes"
      ((checkedMul u64Max kvBlockSize dimension).bind (checkedMul u64Max · bf16Bytes))
    let blockStrideBytes ← orOverflow "block_stride_bytes"
      (checkedMul u64Max heads headStrideBytes)
    let layerStrideBytes ← orOverflow "layer_stride_bytes"
      (checkedMul u64Max blocks blockStrideBytes)
    let bytesPerKind ← orOverflow "bytes_per_kind"
      (checkedMul u64Max layers layerStrideBytes)
    let bytesPerPhysicalBlock ← orOverflow "bytes_per_physical_block"
      ((checkedMul u64Max layers blockStrideBytes).bind (checkedMul u64Max · 2))
    let totalBytes ← orOverflow "total_bytes" (checkedMul u64Max bytesPerKind 2)
    .ok {
      layerCount := layerCount
      physicalBlockCount := physicalBlockCount
      keyValueHeadCount := keyValueHeadCount
      headDimension := headDimension
      headStrideBytes := headStrideBytes
      blockStrideBytes := blockStrideBytes
      layerStrideBytes := layerStrideBytes
      bytesPerKind := bytesPerKind
      bytesPerPhysicalBlock := bytesPerPhysicalBlock
      totalBytes := totalBytes }

/-- Returns the byte offset of one layer in either K or V allocation. -/
def layerByteOffset (layout : KvByteLayout) (layerIndex : Nat) : Option Nat :=
  if layout.layerCount ≤ layerIndex then none
  else checkedMul u64Max layerIndex layout.layerStrideBytes

/-- Returns the byte offset in either the K or V allocation. -/
def elementByteOffset (layout : KvByteLayout)
    (layerIndex physicalBlockIndex keyValueHeadIndex tokenInBlock : Nat) : Option Nat :=
  if layout.layerCount ≤ layerIndex ∨ layout.physicalBlockCount ≤ physicalBlockIndex ∨
      layout.keyValueHeadCount ≤ keyValueHeadIndex ∨ kvBlockSize ≤ tokenInBlock then
    none
  else do
    let tokenStride ← checkedMul u64Max layout.headDimension bf16Bytes
    let layerBytes ← checkedMul u64Max layerIndex layout.layerStrideBytes
    let blockBytes ← checkedMul u64Max physicalBlockIndex layout.blockStrideBytes
    let sum ← checkedAdd u64Max layerBytes blockBytes
    let headBytes ← checkedMul u64Max keyValueHeadIndex layout.headStrideBytes
    let sum ← checkedAdd u64Max sum headBytes
    let tokenBytes ← checkedMul u64Max tokenInBlock tokenStride
    checkedAdd u64Max sum tokenBytes

end KvByteLayout

/-- Keys and values are two allocations of one size. -/
inductive KvKind where
  | key
  | value
  deriving DecidableEq, Repr

/-- One stored number. -/
structure KvCoordinate where
  kind : KvKind
  layer : Nat
  block : Nat
  head : Nat
  token : Nat
  element : Nat
  deriving DecidableEq, Repr

namespace KvByteLayout

structure Holds (layout : KvByteLayout) (coordinate : KvCoordinate) : Prop where
  layer : coordinate.layer < layout.layerCount
  block : coordinate.block < layout.physicalBlockCount
  head : coordinate.head < layout.keyValueHeadCount
  token : coordinate.token < kvBlockSize
  element : coordinate.element < layout.headDimension

/-- The first byte of an element: the offset of its row, and the element within it. -/
def address (layout : KvByteLayout) (coordinate : KvCoordinate) : Option Nat := do
  let row ← layout.elementByteOffset coordinate.layer coordinate.block coordinate.head
    coordinate.token
  let column ← checkedMul u64Max coordinate.element bf16Bytes
  checkedAdd u64Max row column

def radices (layout : KvByteLayout) : List Nat :=
  [layout.layerCount, layout.physicalBlockCount, layout.keyValueHeadCount, kvBlockSize,
    layout.headDimension]

end KvByteLayout

/-- The places of a coordinate, from the layer to the element. -/
def KvCoordinate.digits (coordinate : KvCoordinate) : List Nat :=
  [coordinate.layer, coordinate.block, coordinate.head, coordinate.token, coordinate.element]

section Strides

variable {layout : KvByteLayout}

/-- What a successful construction says of the strides. -/
structure KvByteLayout.Built (layout : KvByteLayout) : Prop where
  layers : 0 < layout.layerCount
  blocks : 0 < layout.physicalBlockCount
  heads : 0 < layout.keyValueHeadCount
  dimension : 0 < layout.headDimension
  block_count : layout.physicalBlockCount ≤ u32Max
  head_stride : layout.headStrideBytes = bf16Bytes * (kvBlockSize * layout.headDimension)
  block_stride : layout.blockStrideBytes = layout.keyValueHeadCount * layout.headStrideBytes
  layer_stride : layout.layerStrideBytes = layout.physicalBlockCount * layout.blockStrideBytes
  per_kind : layout.bytesPerKind = layout.layerCount * layout.layerStrideBytes
  per_block : layout.bytesPerPhysicalBlock = 2 * (layout.layerCount * layout.blockStrideBytes)
  total : layout.totalBytes = 2 * layout.bytesPerKind
  total_le : layout.totalBytes ≤ u64Max

theorem KvByteLayout.requireNonzero_eq_ok {field : String} {value : Nat} {done : Unit}
    (h : KvByteLayout.requireNonzero field value = .ok done) : 0 < value := by
  unfold KvByteLayout.requireNonzero at h
  split at h
  · cases h
  · exact Nat.pos_of_ne_zero ‹_›

theorem KvByteLayout.orOverflow_eq_ok {field : String} {checked : Option Nat} {value : Nat}
    (h : KvByteLayout.orOverflow field checked = .ok value) : checked = some value := by
  unfold KvByteLayout.orOverflow at h
  split at h
  · cases h
    rfl
  · cases h

theorem KvByteLayout.checkedU64_eq_ok {field : String} {value result : Nat}
    (h : KvByteLayout.checkedU64 field value = .ok result) : result = value := by
  have hsome := KvByteLayout.orOverflow_eq_ok h
  split at hsome
  · exact (Option.some.inj hsome).symm
  · cases hsome

theorem KvByteLayout.checkedMul_bind_eq_some {limit a b c result : Nat}
    (h : (checkedMul limit a b).bind (checkedMul limit · c) = some result) :
    a * b * c = result := by
  obtain ⟨product, hproduct, hresult⟩ := Option.bind_eq_some_iff.mp h
  rw [(checkedMul_eq_some.mp hproduct).1]
  exact (checkedMul_eq_some.mp hresult).1

theorem KvByteLayout.built_of_checked {layers blocks heads dimension : Nat}
    (h : KvByteLayout.checked layers blocks heads dimension = .ok layout) :
    layout.Built ∧ layout.layerCount = layers ∧ layout.physicalBlockCount = blocks ∧
      layout.keyValueHeadCount = heads ∧ layout.headDimension = dimension := by
  unfold KvByteLayout.checked at h
  obtain ⟨_, hlayers, h⟩ := except_bind_eq_ok.mp h
  obtain ⟨_, hblocks, h⟩ := except_bind_eq_ok.mp h
  obtain ⟨_, hheads, h⟩ := except_bind_eq_ok.mp h
  obtain ⟨_, hdimension, h⟩ := except_bind_eq_ok.mp h
  split at h
  · cases h
  · rename_i hcount
    obtain ⟨layers', hlayers', h⟩ := except_bind_eq_ok.mp h
    obtain ⟨blocks', hblocks', h⟩ := except_bind_eq_ok.mp h
    obtain ⟨heads', hheads', h⟩ := except_bind_eq_ok.mp h
    obtain ⟨dimension', hdimension', h⟩ := except_bind_eq_ok.mp h
    obtain ⟨head, hhead, h⟩ := except_bind_eq_ok.mp h
    obtain ⟨block, hblock, h⟩ := except_bind_eq_ok.mp h
    obtain ⟨layer, hlayer, h⟩ := except_bind_eq_ok.mp h
    obtain ⟨kind, hkind, h⟩ := except_bind_eq_ok.mp h
    obtain ⟨physical, hphysical, h⟩ := except_bind_eq_ok.mp h
    obtain ⟨total, htotal, h⟩ := except_bind_eq_ok.mp h
    cases h
    cases checkedU64_eq_ok hlayers'
    cases checkedU64_eq_ok hblocks'
    cases checkedU64_eq_ok hheads'
    cases checkedU64_eq_ok hdimension'
    have hhead := checkedMul_bind_eq_some (orOverflow_eq_ok hhead)
    have hphysical := checkedMul_bind_eq_some (orOverflow_eq_ok hphysical)
    obtain ⟨hblock, -⟩ := checkedMul_eq_some.mp (orOverflow_eq_ok hblock)
    obtain ⟨hlayer, -⟩ := checkedMul_eq_some.mp (orOverflow_eq_ok hlayer)
    obtain ⟨hkind, -⟩ := checkedMul_eq_some.mp (orOverflow_eq_ok hkind)
    obtain ⟨htotal, hle⟩ := checkedMul_eq_some.mp (orOverflow_eq_ok htotal)
    refine ⟨?_, rfl, rfl, rfl, rfl⟩
    exact {
      layers := requireNonzero_eq_ok hlayers
      blocks := requireNonzero_eq_ok hblocks
      heads := requireNonzero_eq_ok hheads
      dimension := requireNonzero_eq_ok hdimension
      block_count := Nat.le_of_not_lt hcount
      head_stride := by rw [← hhead, Nat.mul_comm]
      block_stride := hblock.symm
      layer_stride := hlayer.symm
      per_kind := hkind.symm
      per_block := by rw [← hphysical, Nat.mul_comm]
      total := by rw [← htotal, Nat.mul_comm]
      total_le := htotal ▸ hle }

namespace KvByteLayout

theorem Holds.digits {coordinate : KvCoordinate} (h : layout.Holds coordinate) :
    Digits layout.radices coordinate.digits :=
  .cons h.layer (.cons h.block (.cons h.head (.cons h.token (.cons h.element .nil))))

theorem Built.bytesPerKind_eq (built : layout.Built) :
    layout.bytesPerKind = bf16Bytes * layout.radices.prod := by
  rw [built.per_kind, built.layer_stride, built.block_stride, built.head_stride]
  simp only [radices, List.prod_cons, List.prod_nil]
  ring

theorem Built.bytesPerKind_le (built : layout.Built) : layout.bytesPerKind ≤ u64Max := by
  have htotal := built.total
  have hle := built.total_le
  omega

/-- A row of a head's elements is no longer than the allocation. -/
theorem Built.row_le (built : layout.Built) :
    layout.headDimension * bf16Bytes ≤ layout.bytesPerKind := by
  rw [built.bytesPerKind_eq, Nat.mul_comm]
  refine Nat.mul_le_mul_left _ ?_
  have hpos : 0 < layout.layerCount * (layout.physicalBlockCount *
      (layout.keyValueHeadCount * kvBlockSize)) :=
    Nat.mul_pos built.layers (Nat.mul_pos built.blocks
      (Nat.mul_pos built.heads (by decide)))
  calc layout.headDimension
      ≤ layout.layerCount * (layout.physicalBlockCount *
          (layout.keyValueHeadCount * kvBlockSize)) * layout.headDimension :=
        Nat.le_mul_of_pos_left _ hpos
    _ = layout.radices.prod := by
        simp only [radices, List.prod_cons, List.prod_nil]
        ring

/-- The sum that the address of an element adds up. -/
def place (layout : KvByteLayout) (coordinate : KvCoordinate) : Nat :=
  coordinate.layer * layout.layerStrideBytes + coordinate.block * layout.blockStrideBytes +
    coordinate.head * layout.headStrideBytes +
    coordinate.token * (layout.headDimension * bf16Bytes) + coordinate.element * bf16Bytes

theorem Built.place_eq (built : layout.Built) (coordinate : KvCoordinate) :
    layout.place coordinate = bf16Bytes * number layout.radices coordinate.digits := by
  unfold place
  rw [built.layer_stride, built.block_stride, built.head_stride]
  simp only [radices, KvCoordinate.digits, number_cons, number_nil, List.prod_cons,
    List.prod_nil]
  ring

/-- An element lies inside its allocation. -/
theorem Built.place_le (built : layout.Built) {coordinate : KvCoordinate}
    (h : layout.Holds coordinate) :
    layout.place coordinate + bf16Bytes ≤ layout.bytesPerKind := by
  rw [built.place_eq, built.bytesPerKind_eq]
  exact cell_le h.digits

/-- No product and no sum of an address overflows. -/
theorem Built.address_eq (built : layout.Built) {coordinate : KvCoordinate}
    (h : layout.Holds coordinate) :
    layout.address coordinate = some (layout.place coordinate) := by
  have hrow := built.row_le
  have hplace := built.place_le h
  have hkind := built.bytesPerKind_le
  have hinside : ¬ (layout.layerCount ≤ coordinate.layer ∨
      layout.physicalBlockCount ≤ coordinate.block ∨
      layout.keyValueHeadCount ≤ coordinate.head ∨ kvBlockSize ≤ coordinate.token) := by
    have := h.layer
    have := h.block
    have := h.head
    have := h.token
    omega
  have mul (a b : Nat) (hle : a * b ≤ layout.bytesPerKind) :
      checkedMul u64Max a b = some (a * b) :=
    checkedMul_eq_some.mpr ⟨rfl, hle.trans hkind⟩
  have add (a b : Nat) (hle : a + b ≤ layout.bytesPerKind) :
      checkedAdd u64Max a b = some (a + b) :=
    checkedAdd_eq_some.mpr ⟨rfl, hle.trans hkind⟩
  unfold place at hplace ⊢
  have hlayer := mul coordinate.layer layout.layerStrideBytes (by omega)
  have hblock := mul coordinate.block layout.blockStrideBytes (by omega)
  have hhead := mul coordinate.head layout.headStrideBytes (by omega)
  have htoken := mul coordinate.token (layout.headDimension * bf16Bytes) (by omega)
  have hcolumn := mul coordinate.element bf16Bytes (by omega)
  simp only [address, elementByteOffset, if_neg hinside, mul _ _ hrow, hlayer, hblock, hhead,
    htoken, hcolumn, Option.bind_eq_bind, Option.bind_some]
  rw [add _ _ (by omega), Option.bind_some, add _ _ (by omega), Option.bind_some,
    add _ _ (by omega), Option.bind_some, add _ _ (by omega)]

/-- Different elements of one allocation have no byte in common. -/
theorem Built.place_apart (built : layout.Built) {coordinate other : KvCoordinate}
    (h : layout.Holds coordinate) (h' : layout.Holds other) (hne : coordinate ≠ other)
    (hkind : coordinate.kind = other.kind) :
    layout.place coordinate + bf16Bytes ≤ layout.place other ∨
      layout.place other + bf16Bytes ≤ layout.place coordinate := by
  rw [built.place_eq, built.place_eq]
  refine cells_apart h.digits h'.digits fun hdigits => hne ?_
  cases coordinate
  cases other
  simp only [KvCoordinate.digits, List.cons.injEq] at hdigits
  simp_all

theorem Built.layerByteOffset_eq (built : layout.Built) {layer : Nat}
    (h : layer < layout.layerCount) :
    layout.layerByteOffset layer = some (layer * layout.layerStrideBytes) := by
  unfold layerByteOffset
  rw [if_neg (Nat.not_le.mpr h), checkedMul_eq_some]
  refine ⟨rfl, ?_⟩
  calc layer * layout.layerStrideBytes
      ≤ layout.layerCount * layout.layerStrideBytes := Nat.mul_le_mul_right _ h.le
    _ = layout.bytesPerKind := built.per_kind.symm
    _ ≤ u64Max := built.bytesPerKind_le

/-- A layout that is built is of the counts it was asked for. It gives every element of the
keys and of the values an address, so nothing overflows; the element lies inside its
allocation and shares no byte with another one. -/
theorem checked_addresses {layers blocks heads dimension : Nat}
    (h : checked layers blocks heads dimension = .ok layout) :
    (layout.layerCount = layers ∧ layout.physicalBlockCount = blocks ∧
      layout.keyValueHeadCount = heads ∧ layout.headDimension = dimension) ∧
      layout.totalBytes = 2 * layout.bytesPerKind ∧ layout.totalBytes ≤ u64Max ∧
      (∀ layer < layout.layerCount, (layout.layerByteOffset layer).isSome) ∧
      (∀ coordinate, layout.Holds coordinate →
        ∃ row start, layout.elementByteOffset coordinate.layer coordinate.block
            coordinate.head coordinate.token = some row ∧
          start = row + coordinate.element * bf16Bytes ∧
          layout.address coordinate = some start ∧
          start + bf16Bytes ≤ layout.bytesPerKind) ∧
      ∀ coordinate other start start', layout.Holds coordinate → layout.Holds other →
        coordinate ≠ other → coordinate.kind = other.kind →
        layout.address coordinate = some start → layout.address other = some start' →
        start + bf16Bytes ≤ start' ∨ start' + bf16Bytes ≤ start := by
  obtain ⟨built, counts⟩ := built_of_checked h
  refine ⟨counts, built.total, built.total_le, ?_, ?_, ?_⟩
  · intro layer hlayer
    rw [built.layerByteOffset_eq hlayer]
    rfl
  · intro coordinate holds
    have haddress := built.address_eq holds
    obtain ⟨row, hrow, hrest⟩ := Option.bind_eq_some_iff.mp haddress
    obtain ⟨column, hcolumn, hsum⟩ := Option.bind_eq_some_iff.mp hrest
    obtain ⟨rfl, -⟩ := checkedMul_eq_some.mp hcolumn
    obtain ⟨hsum, -⟩ := checkedAdd_eq_some.mp hsum
    exact ⟨row, layout.place coordinate, hrow, hsum.symm, haddress, built.place_le holds⟩
  · intro coordinate other start start' holds holds' hne hkind hstart hstart'
    rw [built.address_eq holds, Option.some.injEq] at hstart
    rw [built.address_eq holds', Option.some.injEq] at hstart'
    subst hstart hstart'
    exact built.place_apart holds holds' hne hkind

/-- Two layers, three blocks, one head of four elements. -/
theorem checked_addresses_small :
    ∃ layout, checked 2 3 1 4 = .ok layout ∧ layout.bytesPerKind = 768 ∧
      ∃ start, layout.address ⟨.value, 1, 2, 0, 15, 3⟩ = some start ∧ start + 2 ≤ 768 := by
  refine ⟨⟨2, 3, 1, 4, 128, 128, 384, 768, 512, 1536⟩, rfl, rfl, ?_⟩
  obtain ⟨-, -, -, -, hinside, -⟩ := checked_addresses (show checked 2 3 1 4 =
    .ok (⟨2, 3, 1, 4, 128, 128, 384, 768, 512, 1536⟩ : KvByteLayout) from rfl)
  obtain ⟨-, start, -, -, haddress, hle⟩ := hinside ⟨.value, 1, 2, 0, 15, 3⟩
    ⟨by decide, by decide, by decide, by decide, by decide⟩
  exact ⟨start, haddress, hle⟩

end KvByteLayout

end Strides

end Riley.PagedKv
