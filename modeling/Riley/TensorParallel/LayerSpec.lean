import Riley.TensorParallel.Layer
import Riley.TensorParallel.ShardSpec

/-!
The ranks of a group hold whole heads, and their partial outputs add up to the outputs of
the whole layer.
-/

namespace Riley.TensorParallel

open Outcome
open Runs (run)

section Heads

variable {size rank : Nat} {whole part : AttentionSpec}

/-- A query head of a rank attends to the key/value head that it has in the whole model. -/
theorem keyValueHead_share (h : AttentionShare size whole part) (hrank : rank < size) {head : Nat}
    (hhead : head < part.queryHeads) :
    whole.keyValueHead (rank * part.queryHeads + head) =
      rank * part.keyValueHeads + part.keyValueHead head := by
  obtain ⟨group, hgroup⟩ := part.grouped
  have hsize : 0 < size := Nat.zero_lt_of_lt hrank
  have hheads : 0 < part.keyValueHeads * group := hgroup ▸ Nat.zero_lt_of_lt hhead
  have hkeyValue : 0 < part.keyValueHeads := Nat.pos_of_mul_pos_right hheads
  unfold AttentionSpec.keyValueHead
  rw [h.queryHeads, h.keyValueHeads, Nat.mul_div_mul_left _ _ hsize, hgroup,
    Nat.mul_div_cancel_left _ hkeyValue, ← Nat.mul_assoc, Nat.add_comm,
    Nat.add_mul_div_right _ _ (Nat.pos_of_mul_pos_left hheads), Nat.add_comm]

theorem keyValueHead_lt {attention : AttentionSpec} {head : Nat}
    (hhead : head < attention.queryHeads) : attention.keyValueHead head < attention.keyValueHeads := by
  obtain ⟨group, hgroup⟩ := attention.grouped
  have hheads : 0 < attention.keyValueHeads * group := hgroup ▸ Nat.zero_lt_of_lt hhead
  unfold AttentionSpec.keyValueHead
  rw [hgroup, Nat.mul_div_cancel_left _ (Nat.pos_of_mul_pos_right hheads)]
  exact Nat.div_lt_of_lt_mul (Nat.mul_comm _ group ▸ hgroup ▸ hhead)

end Heads

section Parameters

/-- A property of each parameter of a block with its shape. -/
structure EachParameter (block : DecoderBlockSpec) (P : DecoderWeight → List Nat → Prop) : Prop where
  query : P .queryWeight
    [block.attention.queryHeads * block.attention.headDimension, block.attention.hiddenSize]
  key : P .keyWeight
    [block.attention.keyValueHeads * block.attention.headDimension, block.attention.hiddenSize]
  value : P .valueWeight
    [block.attention.keyValueHeads * block.attention.headDimension, block.attention.hiddenSize]
  output : P .outputWeight
    [block.attention.hiddenSize, block.attention.queryHeads * block.attention.headDimension]
  queryBias : block.attention.bias.query →
    P .queryBias [block.attention.queryHeads * block.attention.headDimension]
  keyBias : block.attention.bias.key →
    P .keyBias [block.attention.keyValueHeads * block.attention.headDimension]
  valueBias : block.attention.bias.value →
    P .valueBias [block.attention.keyValueHeads * block.attention.headDimension]
  outputBias : block.attention.bias.output → P .outputBias [block.attention.hiddenSize]
  queryNorm : block.attention.queryKeyNorm → P .queryNormScale [block.attention.headDimension]
  keyNorm : block.attention.queryKeyNorm → P .keyNormScale [block.attention.headDimension]
  gate : P .gateWeight [block.mlp.intermediateSize, block.mlp.hiddenSize]
  up : P .upWeight [block.mlp.intermediateSize, block.mlp.hiddenSize]
  down : P .downWeight [block.mlp.hiddenSize, block.mlp.intermediateSize]
  gateBias : block.mlp.bias → P .gateBias [block.mlp.intermediateSize]
  upBias : block.mlp.bias → P .upBias [block.mlp.intermediateSize]
  downBias : block.mlp.bias → P .downBias [block.mlp.hiddenSize]

theorem EachParameter.imp {block : DecoderBlockSpec} {P Q : DecoderWeight → List Nat → Prop}
    (h : EachParameter block P) (himp : ∀ parameter shape, P parameter shape → Q parameter shape) :
    EachParameter block Q where
  query := himp _ _ h.query
  key := himp _ _ h.key
  value := himp _ _ h.value
  output := himp _ _ h.output
  queryBias := fun hpresent => himp _ _ (h.queryBias hpresent)
  keyBias := fun hpresent => himp _ _ (h.keyBias hpresent)
  valueBias := fun hpresent => himp _ _ (h.valueBias hpresent)
  outputBias := fun hpresent => himp _ _ (h.outputBias hpresent)
  queryNorm := fun hpresent => himp _ _ (h.queryNorm hpresent)
  keyNorm := fun hpresent => himp _ _ (h.keyNorm hpresent)
  gate := himp _ _ h.gate
  up := himp _ _ h.up
  down := himp _ _ h.down
  gateBias := fun hpresent => himp _ _ (h.gateBias hpresent)
  upBias := fun hpresent => himp _ _ (h.upBias hpresent)
  downBias := fun hpresent => himp _ _ (h.downBias hpresent)

theorem eachParameter_required {block : DecoderBlockSpec} {requirements : List Requirement}
    (h : block.requirements = .ok requirements) :
    EachParameter block fun parameter shape => ∃ requirement ∈ requirements,
      requirement.slot = .decoder block.index parameter ∧ requirement.shape = shape := by
  obtain ⟨queryWidth, hquery, h⟩ := except_bind_eq_ok.mp h
  obtain ⟨keyValueWidth, hkeyValue, heq⟩ := except_bind_eq_ok.mp h
  cases heq
  obtain ⟨_, rfl⟩ := checkedProduct_eq_ok.mp hquery
  obtain ⟨_, rfl⟩ := checkedProduct_eq_ok.mp hkeyValue
  constructor <;>
    simp +contextual [AttentionSpec.requirements, AttentionSpec.normRequirements,
      GatedMlpSpec.requirements, layerRequirements, or_and_right, exists_or, and_assoc]

end Parameters

section Entries

variable {R : Type} {size rank layer : Nat} {tensors : Tensors R} {held : DecoderWeight → Bytes}
  {parameter : DecoderWeight} {shape : List Nat}

/-- The tensors of a rank in the place of those of the whole model. -/
def Tensors.onRank (tensors : Tensors R) (held : DecoderWeight → Bytes) : Tensors R :=
  { tensors with held }

theorem onRank_entry (tensors : Tensors R) (held : DecoderWeight → Bytes)
    (parameter : DecoderWeight) (index : Nat) :
    (tensors.onRank held).entry parameter index =
      tensors.read parameter (run (held parameter) (tensors.width parameter) index) := rfl

/-- A rank holds its slice of a parameter of a layer. -/
structure HoldsSlice (size rank layer : Nat) (tensors : Tensors R) (held : DecoderWeight → Bytes)
    (parameter : DecoderWeight) (shape : List Nat) : Prop where
  length : (tensors.held parameter).length = shape.prod * tensors.width parameter
  slice : ∀ shard : TensorParallelShard, shard.size = size → shard.rank = rank → ∃ rankShape,
    shard.slice (.decoder layer parameter) (tensors.held parameter) shape =
      .ok (held parameter, rankShape)

variable (h : HoldsSlice size rank layer tensors held parameter shape) (hrank : rank < size)

include h hrank

theorem HoldsSlice.held_eq {axis extent : Nat}
    (haxis : (WeightSlot.decoder layer parameter).axis = some axis)
    (hshape : shape[axis]? = some (size * extent)) :
    held parameter = rankBytes (tensors.held parameter) (shape.take axis).prod
      (extent * (shape.drop (axis + 1)).prod * tensors.width parameter) size rank := by
  obtain ⟨rankShape, hslice⟩ := h.slice ⟨rank, size, hrank⟩ rfl rfl
  rw [slice_eq ⟨rank, size, hrank⟩ haxis (Nat.mul_comm size extent ▸ hshape) h.length] at hslice
  exact (Prod.mk.inj (Except.ok.inj hslice)).1.symm

theorem HoldsSlice.kept (haxis : (WeightSlot.decoder layer parameter).axis = none) :
    held parameter = tensors.held parameter := by
  obtain ⟨rankShape, hslice⟩ := h.slice ⟨rank, size, hrank⟩ rfl rfl
  unfold TensorParallelShard.slice at hslice
  rw [haxis, ite_self] at hslice
  exact (Prod.mk.inj (Except.ok.inj hslice)).1.symm

omit h in
/-- The rows of a rank are the rows of the tensor behind those of the ranks before. -/
theorem HoldsSlice.entry_rows {extent index : Nat} {rest : List Nat}
    (h : HoldsSlice size rank layer tensors held parameter (size * extent :: rest))
    (haxis : (WeightSlot.decoder layer parameter).axis = some 0)
    (hindex : index < extent * rest.prod) :
    (tensors.onRank held).entry parameter index =
      tensors.entry parameter (rank * (extent * rest.prod) + index) := by
  have hheld : held parameter =
      run (tensors.held parameter) (extent * rest.prod * tensors.width parameter) rank := by
    rw [h.held_eq hrank haxis rfl]
    simp [rankBytes]
  rw [onRank_entry, hheld, Runs.run_run _ _ hindex]
  rfl

omit h in
/-- The columns of a rank in a row are those behind the columns of the ranks before. -/
theorem HoldsSlice.entry_columns {rows extent row column : Nat}
    (h : HoldsSlice size rank layer tensors held parameter [rows, size * extent])
    (haxis : (WeightSlot.decoder layer parameter).axis = some 1) (hrow : row < rows)
    (hcolumn : column < extent) :
    (tensors.onRank held).entry parameter (row * extent + column) =
      tensors.entry parameter (row * (size * extent) + (rank * extent + column)) := by
  have hheld : held parameter =
      rankBytes (tensors.held parameter) rows (extent * tensors.width parameter) size rank := by
    rw [h.held_eq hrank haxis rfl]
    simp
  have hlength : (tensors.held parameter).length = rows * (size * (extent * tensors.width parameter)) := by
    rw [h.length]
    simp only [List.prod_cons, List.prod_nil]
    ring
  have hplace : row * (size * extent) + (rank * extent + column) =
      (row * size + rank) * extent + column := by ring
  rw [onRank_entry, hheld, ← Runs.run_run _ row hcolumn, rankBytes, Runs.run_flatMap (fun _ hrow =>
    Runs.length_run (runs_fit hrow hrank hlength)) hrow, Runs.run_run _ _ hcolumn, hplace]
  rfl

end Entries

section Projections

variable {R : Type} [Semiring R] {size rank layer : Nat} {tensors : Tensors R}
  {held : DecoderWeight → Bytes} {parameter : DecoderWeight} {extent : Nat}

theorem project_rows {columns row : Nat}
    (h : HoldsSlice size rank layer tensors held parameter [size * extent, columns])
    (hrank : rank < size) (haxis : (WeightSlot.decoder layer parameter).axis = some 0)
    (hrow : row < extent) (inputs : Nat → R) :
    (tensors.onRank held).project parameter columns inputs row =
      tensors.project parameter columns inputs (rank * extent + row) := by
  unfold Tensors.project
  apply Finset.sum_congr rfl
  intro column hcolumn
  have hplace : row * columns + column < extent * [columns].prod := by
    rw [List.prod_singleton]
    calc row * columns + column < row * columns + columns :=
          Nat.add_lt_add_left (Finset.mem_range.mp hcolumn) _
      _ = (row + 1) * columns := (Nat.succ_mul row columns).symm
      _ ≤ extent * columns := Nat.mul_le_mul_right columns hrow
  rw [h.entry_rows hrank haxis hplace, List.prod_singleton]
  congr 2
  ring

theorem bias_rows {present : Bool} {row : Nat}
    (h : present → HoldsSlice size rank layer tensors held parameter [size * extent])
    (hrank : rank < size) (haxis : (WeightSlot.decoder layer parameter).axis = some 0)
    (hrow : row < extent) :
    (tensors.onRank held).bias present parameter row =
      tensors.bias present parameter (rank * extent + row) := by
  unfold Tensors.bias
  split
  next hpresent =>
    have hplace : row < extent * ([] : List Nat).prod := by rwa [List.prod_nil, Nat.mul_one]
    rw [(h hpresent).entry_rows hrank haxis hplace, List.prod_nil, Nat.mul_one]
  · rfl

theorem bias_kept {present : Bool} {shape : List Nat}
    (h : present → HoldsSlice size rank layer tensors held parameter shape)
    (hrank : rank < size) (haxis : (WeightSlot.decoder layer parameter).axis = none) (row : Nat) :
    (tensors.onRank held).bias present parameter row = tensors.bias present parameter row := by
  unfold Tensors.bias
  split
  next hpresent =>
    rw [onRank_entry, (h hpresent).kept hrank haxis]
    rfl
  · rfl

/-- The partial sums over the columns of the ranks add up to the whole sum. -/
theorem project_columns {rows row : Nat} {held : Nat → DecoderWeight → Bytes}
    (h : ∀ rank < size,
      HoldsSlice size rank layer tensors (held rank) parameter [rows, size * extent])
    (haxis : (WeightSlot.decoder layer parameter).axis = some 1) (hrow : row < rows)
    {inputs : Nat → R} {rankInputs : Nat → Nat → R}
    (hinputs : ∀ rank < size, ∀ column < extent,
      rankInputs rank column = inputs (rank * extent + column)) :
    ∑ rank ∈ Finset.range size,
        (tensors.onRank (held rank)).project parameter extent (rankInputs rank) row =
      tensors.project parameter (size * extent) inputs row := by
  unfold Tensors.project
  rw [Runs.sum_range_mul]
  apply Finset.sum_congr rfl
  intro rank hrank
  have hrank := Finset.mem_range.mp hrank
  apply Finset.sum_congr rfl
  intro column hcolumn
  have hcolumn := Finset.mem_range.mp hcolumn
  rw [(h rank hrank).entry_columns hrank haxis hrow hcolumn, hinputs rank hrank column hcolumn]

end Projections

section Attention

variable {R : Type} {size rank : Nat} {block part : DecoderBlockSpec} {tensors : Tensors R}
  {held : DecoderWeight → Bytes}

/-- Heads of a rank whose rows are behind those of the ranks before. -/
theorem headOf_share {projected rankProjected : Nat → R} {heads dimension head : Nat}
    (h : ∀ row < heads * dimension,
      rankProjected row = projected (rank * (heads * dimension) + row)) (hhead : head < heads) :
    headOf rankProjected dimension head = headOf projected dimension (rank * heads + head) := by
  unfold headOf
  apply List.map_congr_left
  intro place hplace
  have hrow : head * dimension + place < heads * dimension := by
    calc head * dimension + place < head * dimension + dimension :=
          Nat.add_lt_add_left (List.mem_range.mp hplace) _
      _ = (head + 1) * dimension := (Nat.succ_mul head dimension).symm
      _ ≤ heads * dimension := Nat.mul_le_mul_right dimension hhead
  rw [h _ hrow]
  congr 1
  ring

theorem normScales_share (hshare : BlockShare size block part) (hrank : rank < size)
    (hholds : EachParameter block (HoldsSlice size rank block.index tensors held)) :
    part.attention.normScales (tensors.onRank held) = block.attention.normScales tensors := by
  unfold AttentionSpec.normScales
  rw [hshare.attention.queryKeyNorm]
  split
  next hnorm =>
    change [held .queryNormScale, held .keyNormScale] = _
    rw [(hholds.queryNorm hnorm).kept hrank rfl, (hholds.keyNorm hnorm).kept hrank rfl]
  · rfl

variable [Semiring R]

/-- The heads of a projection whose rows are split between the ranks. -/
theorem projected_share {layer columns heads wholeHeads dimension head : Nat} {present : Bool}
    {weight bias : DecoderWeight} (hrank : rank < size) (hheads : wholeHeads = size * heads)
    (hweight : HoldsSlice size rank layer tensors held weight [wholeHeads * dimension, columns])
    (hbias : present → HoldsSlice size rank layer tensors held bias [wholeHeads * dimension])
    (haxis : (WeightSlot.decoder layer weight).axis = some 0)
    (hbiasAxis : (WeightSlot.decoder layer bias).axis = some 0) (inputs : Nat → R)
    (hhead : head < heads) :
    headOf (fun row => (tensors.onRank held).project weight columns inputs row +
        (tensors.onRank held).bias present bias row) dimension head =
      headOf (fun row => tensors.project weight columns inputs row +
        tensors.bias present bias row) dimension (rank * heads + head) := by
  rw [hheads, Nat.mul_assoc] at hweight hbias
  apply headOf_share _ hhead
  intro row hrow
  rw [project_rows hweight hrank haxis hrow, bias_rows hbias hrank hbiasAxis hrow]

variable (hshare : BlockShare size block part) (hrank : rank < size)
  (hholds : EachParameter block (HoldsSlice size rank block.index tensors held))

include hshare hrank hholds

/-- A query head of a rank has the elements of the head that it is in the whole model. -/
theorem query_share (inputs : Nat → Nat → R) (token : Nat) {head : Nat}
    (hhead : head < part.attention.queryHeads) :
    headOf (part.attention.query (tensors.onRank held) inputs token) block.attention.headDimension
        head =
      headOf (block.attention.query tensors inputs token) block.attention.headDimension
        (rank * part.attention.queryHeads + head) := by
  unfold AttentionSpec.query
  rw [hshare.attention.hiddenSize, hshare.attention.bias]
  exact projected_share hrank hshare.attention.queryHeads hholds.query hholds.queryBias rfl rfl _
    hhead

theorem key_share (inputs : Nat → Nat → R) (token : Nat) {head : Nat}
    (hhead : head < part.attention.keyValueHeads) :
    headOf (part.attention.key (tensors.onRank held) inputs token) block.attention.headDimension
        head =
      headOf (block.attention.key tensors inputs token) block.attention.headDimension
        (rank * part.attention.keyValueHeads + head) := by
  unfold AttentionSpec.key
  rw [hshare.attention.hiddenSize, hshare.attention.bias]
  exact projected_share hrank hshare.attention.keyValueHeads hholds.key hholds.keyBias rfl rfl _
    hhead

theorem value_share (inputs : Nat → Nat → R) (token : Nat) {head : Nat}
    (hhead : head < part.attention.keyValueHeads) :
    headOf (part.attention.value (tensors.onRank held) inputs token) block.attention.headDimension
        head =
      headOf (block.attention.value tensors inputs token) block.attention.headDimension
        (rank * part.attention.keyValueHeads + head) := by
  unfold AttentionSpec.value
  rw [hshare.attention.hiddenSize, hshare.attention.bias]
  exact projected_share hrank hshare.attention.keyValueHeads hholds.value hholds.valueBias rfl rfl _
    hhead

/-- The heads of a rank have the outputs that they have in the whole model. -/
theorem context_share (inputs : Nat → Nat → R) (attend : Attend R) (token : Nat) {column : Nat}
    (hcolumn : column < part.attention.queryHeads * part.attention.headDimension) :
    part.attention.context (tensors.onRank held) inputs attend token column =
      block.attention.context tensors inputs attend token
        (rank * (part.attention.queryHeads * part.attention.headDimension) + column) := by
  rw [hshare.attention.headDimension] at hcolumn ⊢
  unfold AttentionSpec.context
  simp only
  rw [hshare.attention.headDimension]
  generalize hdimension : block.attention.headDimension = dimension at *
  have hpos : 0 < dimension := Nat.pos_of_mul_pos_left (Nat.zero_lt_of_lt hcolumn)
  have hhead : column / dimension < part.attention.queryHeads :=
    Nat.div_lt_of_lt_mul (Nat.mul_comm _ dimension ▸ hcolumn)
  have hplace : (rank * (part.attention.queryHeads * dimension) + column) / dimension =
      rank * part.attention.queryHeads + column / dimension := by
    rw [← Nat.mul_assoc, Nat.add_comm, Nat.add_mul_div_right _ _ hpos, Nat.add_comm]
  have hrest : (rank * (part.attention.queryHeads * dimension) + column) % dimension =
      column % dimension := by
    rw [← Nat.mul_assoc, Nat.mul_add_mod_self_right]
  rw [normScales_share hshare hrank hholds, hplace, hrest,
    keyValueHead_share hshare.attention hrank hhead]
  subst hdimension
  simp only [query_share hshare hrank hholds inputs _ hhead,
    key_share hshare hrank hholds inputs _ (keyValueHead_lt hhead),
    value_share hshare hrank hholds inputs _ (keyValueHead_lt hhead)]

theorem attentionBias_share (row : Nat) :
    part.attention.outputBias (tensors.onRank held) row = block.attention.outputBias tensors row := by
  unfold AttentionSpec.outputBias
  rw [hshare.attention.bias, bias_kept hholds.outputBias hrank rfl]

/-- The elements of the MLP on a rank are those behind the ranks before. -/
theorem gate_share (inputs : Nat → Nat → R) (token : Nat) {column : Nat}
    (hcolumn : column < part.mlp.intermediateSize) :
    part.mlp.gate (tensors.onRank held) inputs token column =
      block.mlp.gate tensors inputs token (rank * part.mlp.intermediateSize + column) := by
  have hweight := hholds.gate
  have hbias := hholds.gateBias
  rw [hshare.intermediate] at hweight hbias
  unfold GatedMlpSpec.gate
  rw [hshare.mlpHidden, hshare.mlpBias, project_rows hweight hrank rfl hcolumn,
    bias_rows hbias hrank rfl hcolumn]

theorem up_share (inputs : Nat → Nat → R) (token : Nat) {column : Nat}
    (hcolumn : column < part.mlp.intermediateSize) :
    part.mlp.up (tensors.onRank held) inputs token column =
      block.mlp.up tensors inputs token (rank * part.mlp.intermediateSize + column) := by
  have hweight := hholds.up
  have hbias := hholds.upBias
  rw [hshare.intermediate] at hweight hbias
  unfold GatedMlpSpec.up
  rw [hshare.mlpHidden, hshare.mlpBias, project_rows hweight hrank rfl hcolumn,
    bias_rows hbias hrank rfl hcolumn]

theorem mlpBias_share (row : Nat) :
    part.mlp.outputBias (tensors.onRank held) row = block.mlp.outputBias tensors row := by
  unfold GatedMlpSpec.outputBias
  rw [hshare.mlpBias, bias_kept hholds.downBias hrank rfl]

end Attention

section Layers

variable {R : Type} [Semiring R] {size : Nat} {block part : DecoderBlockSpec} {tensors : Tensors R}
  {held : Nat → DecoderWeight → Bytes} (hshare : BlockShare size block part)
  (hholds : ∀ rank < size,
    EachParameter block (HoldsSlice size rank block.index tensors (held rank)))

include hshare hholds

/-- The attention of the layer, reduced over the ranks and with the bias of any of them. -/
theorem attention_reduced {rank : Nat} (hrank : rank < size) (inputs : Nat → Nat → R)
    (attend : Attend R) (token : Nat) {row : Nat} (hrow : row < block.attention.hiddenSize) :
    ∑ other ∈ Finset.range size, part.attention.partialOutput (tensors.onRank (held other)) inputs
        attend token row + part.attention.outputBias (tensors.onRank (held rank)) row =
      block.attention.output tensors inputs attend token row := by
  have hwidth : block.attention.queryHeads * block.attention.headDimension =
      size * (part.attention.queryHeads * part.attention.headDimension) := by
    rw [hshare.attention.queryHeads, hshare.attention.headDimension, Nat.mul_assoc]
  have hweight := fun rank hrank => hwidth ▸ (hholds rank hrank).output
  unfold AttentionSpec.output AttentionSpec.partialOutput
  rw [attentionBias_share hshare hrank (hholds rank hrank), hwidth, project_columns hweight rfl hrow]
  intro other hother column hcolumn
  exact context_share hshare hother (hholds other hother) inputs attend token hcolumn

/-- The MLP of the layer, reduced over the ranks and with the bias of any of them. -/
theorem mlp_reduced {rank : Nat} (hrank : rank < size) (inputs : Nat → Nat → R)
    (activate : R → R → R) (token : Nat) {row : Nat} (hrow : row < block.mlp.hiddenSize) :
    ∑ other ∈ Finset.range size, part.mlp.partialOutput (tensors.onRank (held other)) inputs
        activate token row + part.mlp.outputBias (tensors.onRank (held rank)) row =
      block.mlp.output tensors inputs activate token row := by
  have hweight := fun rank hrank => hshare.intermediate ▸ (hholds rank hrank).down
  unfold GatedMlpSpec.output GatedMlpSpec.partialOutput
  rw [mlpBias_share hshare hrank (hholds rank hrank), hshare.intermediate,
    project_columns hweight rfl hrow]
  intro other hother column hcolumn
  rw [gate_share hshare hother (hholds other hother) inputs token hcolumn,
    up_share hshare hother (hholds other hother) inputs token hcolumn]

end Layers

section Group

variable {size : Nat} {spec rankSpec : ModelSpec} {requirements : List Requirement}

/-- The slices that the ranks have of a tensor are its parts, of the shape of a rank. -/
structure Partitioned (size : Nat) (whole part : Requirement) (width : Nat) (bytes : Bytes)
    (slices : Nat → Bytes) : Prop where
  taken : ∀ shard : TensorParallelShard, shard.size = size →
    shard.slice whole.slot bytes whole.shape = .ok (slices shard.rank, part.shape)
  length : ∀ rank < size, (slices rank).length = part.shape.prod * width
  restored : ∀ axis, whole.slot.axis = some axis →
    putBack axis part.shape width ((List.range size).map slices) = bytes
  kept : whole.slot.axis = none → ∀ rank < size, slices rank = bytes

theorem RequirementShare.partitioned {whole part : Requirement}
    (h : RequirementShare size whole part) {width : Nat} {bytes : Bytes}
    (hbytes : bytes.length = whole.shape.prod * width) :
    ∃ slices, Partitioned size whole part width bytes slices := by
  cases haxis : whole.slot.axis with
  | none =>
      have hshape := h.kept haxis
      refine ⟨fun _ => bytes, ⟨fun shard _ => ?_, fun _ _ => ?_, fun axis hsome => ?_,
        fun _ _ _ => rfl⟩⟩
      · unfold TensorParallelShard.slice
        rw [haxis, ite_self, hshape]
      · rw [hbytes, hshape]
      · cases haxis.symm.trans hsome
  | some axis =>
      obtain ⟨extent, hextent, hshape⟩ := h.cut axis haxis
      refine ⟨rankBytes bytes (whole.shape.take axis).prod
        (extent * (whole.shape.drop (axis + 1)).prod * width) size, ⟨fun shard hsize => ?_,
          fun rank hrank => ?_, fun axis' hsome => ?_, fun hnone => ?_⟩⟩
      · subst hsize
        rw [slice_eq shard haxis hextent hbytes, hshape]
      · have hlength : bytes.length = (whole.shape.take axis).prod *
            (size * (extent * (whole.shape.drop (axis + 1)).prod * width)) := by
          rw [hbytes, prod_split hextent]
          ring
        rw [length_rankBytes hrank hlength, hshape, prod_set_axis extent hextent]
        ring
      · cases haxis.symm.trans hsome
        rw [hshape]
        exact putBack_rankBytes hextent hbytes
      · cases haxis.symm.trans hnone

theorem blocksRequirements_mem {blocks : List DecoderBlockSpec} {block : DecoderBlockSpec}
    (h : blocksRequirements blocks = .ok requirements) (hmem : block ∈ blocks) :
    ∃ required, block.requirements = .ok required ∧ ∀ one ∈ required, one ∈ requirements := by
  induction blocks generalizing requirements with
  | nil => cases hmem
  | cons first rest ih =>
      obtain ⟨required, hfirst, h⟩ := except_bind_eq_ok.mp h
      obtain ⟨more, hmore, heq⟩ := except_bind_eq_ok.mp h
      cases heq
      rcases List.mem_cons.mp hmem with rfl | hmem
      · exact ⟨required, hfirst, fun one => List.mem_append_left more⟩
      · obtain ⟨required', hrequired, hin⟩ := ih hmore hmem
        exact ⟨required', hrequired, fun one hone => List.mem_append_right required (hin one hone)⟩

theorem requirements_mem {block : DecoderBlockSpec} (h : spec.requirements = .ok requirements)
    (hmem : block ∈ spec.blocks) :
    ∃ required, block.requirements = .ok required ∧ ∀ one ∈ required, one ∈ requirements := by
  obtain ⟨blocks, hblocks, heq⟩ := except_bind_eq_ok.mp h
  cases heq
  obtain ⟨required, hrequired, hin⟩ := blocksRequirements_mem hblocks hmem
  exact ⟨required, hrequired, fun one hone =>
    List.mem_cons_of_mem _ (List.mem_append_left _ (hin one hone))⟩

/-- The tensors that the ranks hold are their slices of the checkpoint. -/
def Sharded (size : Nat) (requirements : List Requirement) (width : WeightSlot → Nat)
    (checkpoint : WeightSlot → Bytes) (held : Nat → WeightSlot → Bytes) : Prop :=
  ∀ requirement ∈ requirements,
    (checkpoint requirement.slot).length = requirement.shape.prod * width requirement.slot ∧
      ∀ shard : TensorParallelShard, shard.size = size → ∃ rankShape,
        shard.slice requirement.slot (checkpoint requirement.slot) requirement.shape =
          .ok (held shard.rank requirement.slot, rankShape)

theorem Sharded.eachParameter {width : WeightSlot → Nat} {checkpoint : WeightSlot → Bytes}
    {held : Nat → WeightSlot → Bytes} (h : Sharded size requirements width checkpoint held)
    (hrequirements : spec.requirements = .ok requirements) {block : DecoderBlockSpec}
    (hmem : block ∈ spec.blocks) {R : Type} (read : DecoderWeight → Bytes → R) (rank : Nat) :
    EachParameter block (HoldsSlice size rank block.index
      (layerTensors block.index checkpoint width read)
      fun parameter => held rank (.decoder block.index parameter)) := by
  obtain ⟨required, hrequired, hin⟩ := requirements_mem hrequirements hmem
  apply (eachParameter_required hrequired).imp
  rintro parameter shape ⟨requirement, hmem, hslot, rfl⟩
  obtain ⟨hlength, hslice⟩ := h requirement (hin requirement hmem)
  rw [hslot] at hlength hslice
  refine ⟨hlength, fun shard hsize hrank => ?_⟩
  rw [← hrank]
  exact hslice shard hsize

/-- A rank has its share of the heads, and its query heads attend to the key/value heads that
they have in the whole model. -/
structure HeadsPreserved (size : Nat) (whole part : AttentionSpec) : Prop where
  queryHeads : size * part.queryHeads = whole.queryHeads
  keyValueHeads : size * part.keyValueHeads = whole.keyValueHeads
  headDimension : part.headDimension = whole.headDimension
  keyValueHead : ∀ rank < size, ∀ head < part.queryHeads,
    part.keyValueHead head < part.keyValueHeads ∧
      rank * part.keyValueHeads + part.keyValueHead head =
        whole.keyValueHead (rank * part.queryHeads + head)

/-- The heads that a rank computes are those of the whole layer, and what the ranks put out
adds up to the outputs of the layer, with the biases of any one rank. -/
structure LayerPreserved {R : Type} [Semiring R] (size : Nat) (block part : DecoderBlockSpec)
    (whole : Tensors R) (ranks : Nat → Tensors R) : Prop where
  query : ∀ rank < size, ∀ head < part.attention.queryHeads, ∀ inputs token,
    headOf (part.attention.query (ranks rank) inputs token) block.attention.headDimension head =
      headOf (block.attention.query whole inputs token) block.attention.headDimension
        (rank * part.attention.queryHeads + head)
  key : ∀ rank < size, ∀ head < part.attention.keyValueHeads, ∀ inputs token,
    headOf (part.attention.key (ranks rank) inputs token) block.attention.headDimension head =
      headOf (block.attention.key whole inputs token) block.attention.headDimension
        (rank * part.attention.keyValueHeads + head)
  value : ∀ rank < size, ∀ head < part.attention.keyValueHeads, ∀ inputs token,
    headOf (part.attention.value (ranks rank) inputs token) block.attention.headDimension head =
      headOf (block.attention.value whole inputs token) block.attention.headDimension
        (rank * part.attention.keyValueHeads + head)
  attention : ∀ rank < size, ∀ row < block.attention.hiddenSize, ∀ inputs attend token,
    ∑ other ∈ Finset.range size,
        part.attention.partialOutput (ranks other) inputs attend token row +
      part.attention.outputBias (ranks rank) row =
        block.attention.output whole inputs attend token row
  mlp : ∀ rank < size, ∀ row < block.mlp.hiddenSize, ∀ inputs activate token,
    ∑ other ∈ Finset.range size, part.mlp.partialOutput (ranks other) inputs activate token row +
      part.mlp.outputBias (ranks rank) row = block.mlp.output whole inputs activate token row

theorem Sharded.layerPreserved {width : WeightSlot → Nat} {checkpoint : WeightSlot → Bytes}
    {held : Nat → WeightSlot → Bytes} (h : Sharded size requirements width checkpoint held)
    (hrequirements : spec.requirements = .ok requirements) {block part : DecoderBlockSpec}
    (hmem : block ∈ spec.blocks) (hshare : BlockShare size block part) {R : Type} [Semiring R]
    (read : DecoderWeight → Bytes → R) :
    LayerPreserved size block part (layerTensors block.index checkpoint width read) fun rank =>
      layerTensors block.index (held rank) width read := by
  have hholds := h.eachParameter hrequirements hmem read
  exact
    { query := fun rank hrank _ hhead inputs token =>
        query_share hshare hrank (hholds rank) inputs token hhead
      key := fun rank hrank _ hhead inputs token =>
        key_share hshare hrank (hholds rank) inputs token hhead
      value := fun rank hrank _ hhead inputs token =>
        value_share hshare hrank (hholds rank) inputs token hhead
      attention := fun _ hrank _ hrow inputs attend token =>
        attention_reduced hshare (fun rank _ => hholds rank) hrank inputs attend token hrow
      mlp := fun _ hrank _ hrow inputs activate token =>
        mlp_reduced hshare (fun rank _ => hholds rank) hrank inputs activate token hrow }

/-- The slices of the ranks partition the tensors of the model into those of the rank's
dimensions, and the layers of the ranks add up to the layers of the model. -/
theorem rank_slices_preserve (hrank : spec.tensorParallelRankSpec size = .ok rankSpec)
    (hrequirements : spec.requirements = .ok requirements) :
    (∃ rankRequirements, rankSpec.requirements = .ok rankRequirements ∧
      List.Forall₂ (fun whole part => part.slot = whole.slot ∧
        part.sourceName = whole.sourceName ∧
        ∀ width (bytes : Bytes), bytes.length = whole.shape.prod * width →
          ∃ slices, Partitioned size whole part width bytes slices)
        requirements rankRequirements) ∧
      List.Forall₂ (fun block part => HeadsPreserved size block.attention part.attention)
        spec.blocks rankSpec.blocks ∧
      ∀ width checkpoint held, Sharded size requirements width checkpoint held →
        List.Forall₂ (fun block part =>
          ∀ (R : Type) [Semiring R] (read : DecoderWeight → Bytes → R),
            LayerPreserved size block part (layerTensors block.index checkpoint width read)
              fun rank => layerTensors block.index (held rank) width read)
          spec.blocks rankSpec.blocks := by
  obtain ⟨_, hblocks, _⟩ := tensorParallelRankSpec_share hrank
  refine ⟨?_, ?_, ?_⟩
  · obtain ⟨rankRequirements, hrequired, hshare⟩ := requirements_share hrank hrequirements
    refine ⟨rankRequirements, hrequired, hshare.imp fun whole part h => ?_⟩
    exact ⟨h.slot, h.sourceName, fun _ _ hbytes => h.partitioned hbytes⟩
  · apply hblocks.imp
    intro block part hshare
    have hattention := hshare.attention
    refine ⟨hattention.queryHeads.symm, hattention.keyValueHeads.symm, hattention.headDimension, ?_⟩
    intro rank hrank head hhead
    exact ⟨keyValueHead_lt hhead, (keyValueHead_share hattention hrank hhead).symm⟩
  · intro width checkpoint held hsharded
    apply ((List.forall₂_and_left _ _).mpr ⟨fun block (h : block ∈ spec.blocks) => h, hblocks⟩).imp
    rintro block part ⟨hmem, hshare⟩ R _ read
    exact hsharded.layerPreserved hrequirements hmem hshare read

/-- A layer with four query heads on two key/value heads. -/
def groupedModel (queryHeads keyValueHeads intermediateSize : Nat)
    (grouped : keyValueHeads ∣ queryHeads) : ModelSpec :=
  ⟨3, 2, [⟨0, ⟨2, queryHeads, keyValueHeads, 1, ⟨true, false, false, true⟩, true, grouped⟩,
    ⟨2, intermediateSize, false⟩⟩], true⟩

def groupedRequirements : List Requirement :=
  match (groupedModel 4 2 2 ⟨2, rfl⟩).requirements with
  | .ok requirements => requirements
  | .error _ => []

def groupedCheckpoint (slot : WeightSlot) : Bytes :=
  match groupedRequirements.find? (·.slot == slot) with
  | some requirement => (List.range requirement.shape.prod).map UInt8.ofNat
  | none => []

def groupedHeld (rank : Nat) (slot : WeightSlot) : Bytes :=
  match groupedRequirements.find? (·.slot == slot) with
  | some requirement =>
      if hrank : rank < 2 then
        match TensorParallelShard.slice ⟨rank, 2, hrank⟩ slot (groupedCheckpoint slot)
          requirement.shape with
        | .ok (bytes, _) => bytes
        | .error _ => []
      else []
  | none => []

/-- Slices of real bytes are held. -/
theorem grouped_sharded :
    Sharded 2 groupedRequirements (fun _ => 1) groupedCheckpoint groupedHeld := by
  have hall : ∀ requirement ∈ groupedRequirements,
      (groupedCheckpoint requirement.slot).length = requirement.shape.prod * 1 ∧
        ∀ rank : Fin 2, (TensorParallelShard.slice ⟨rank, 2, rank.isLt⟩ requirement.slot
          (groupedCheckpoint requirement.slot) requirement.shape).toOption.map Prod.fst =
            some (groupedHeld rank requirement.slot) := by decide
  intro requirement hmem
  refine ⟨(hall requirement hmem).1, ?_⟩
  rintro ⟨rank, size, hlt⟩ rfl
  have hslice := (hall requirement hmem).2 ⟨rank, hlt⟩
  simp only at hslice ⊢
  revert hslice
  cases TensorParallelShard.slice ⟨rank, 2, hlt⟩ requirement.slot
    (groupedCheckpoint requirement.slot) requirement.shape with
  | error _ => exact fun hslice => nomatch hslice
  | ok sliced =>
      exact fun hslice =>
        ⟨sliced.2, congrArg Except.ok (Prod.ext (Option.some.inj hslice) rfl)⟩

theorem grouped_slices_preserve :
    (∃ rankRequirements, (groupedModel 2 1 1 ⟨2, rfl⟩).requirements = .ok rankRequirements ∧
      List.Forall₂ (fun whole part => part.slot = whole.slot ∧
        ∃ slices, Partitioned 2 whole part 1 (groupedCheckpoint whole.slot) slices)
        groupedRequirements rankRequirements) ∧
      List.Forall₂ (fun block part => LayerPreserved 2 block part
          (layerTensors 0 groupedCheckpoint (fun _ => 1) fun _ bytes =>
            (bytes.map UInt8.toNat).sum)
          fun rank => layerTensors 0 (groupedHeld rank) (fun _ => 1) fun _ bytes =>
            (bytes.map UInt8.toNat).sum)
        (groupedModel 4 2 2 ⟨2, rfl⟩).blocks (groupedModel 2 1 1 ⟨2, rfl⟩).blocks := by
  have hpreserve := @rank_slices_preserve 2 (groupedModel 4 2 2 ⟨2, rfl⟩)
    (groupedModel 2 1 1 ⟨2, rfl⟩) groupedRequirements rfl rfl
  obtain ⟨⟨rankRequirements, hrequired, hparts⟩, _, hlayers⟩ := hpreserve
  refine ⟨⟨rankRequirements, hrequired, ?_⟩, ?_⟩
  · have hlength := fun requirement hmem => (grouped_sharded requirement hmem).1
    apply ((List.forall₂_and_left _ _).mpr ⟨hlength, hparts⟩).imp
    rintro whole part ⟨hbytes, hslot, _, hslices⟩
    exact ⟨hslot, hslices 1 (groupedCheckpoint whole.slot) hbytes⟩
  · cases hlayers _ _ _ grouped_sharded with
    | cons hlayer hrest =>
        cases hrest
        exact .cons (hlayer Nat fun _ bytes => (bytes.map UInt8.toNat).sum) .nil

end Group

end Riley.TensorParallel
