import Mathlib.Tactic.Ring
import Riley.Library.Outcome
import Riley.TensorParallel.Shard

/-!
The slices of the ranks partition a tensor along its axis, and have the shapes that the
dimensions of a rank ask for.
-/

namespace Riley.TensorParallel

open Outcome
open Runs (run)

section Slices

/-- The bytes of a rank, a run for each row before the axis. -/
def rankBytes (bytes : Bytes) (outer width size rank : Nat) : Bytes :=
  (List.range outer).flatMap fun row => run bytes width (row * size + rank)

/-- Slices put back along an axis, in the order of the ranks. -/
def putBack (axis : Nat) (rankShape : List Nat) (width : Nat) (slices : List Bytes) : Bytes :=
  (List.range (rankShape.take axis).prod).flatMap fun row =>
    slices.flatMap fun slice => run slice ((rankShape.drop axis).prod * width) row

variable {shape : List Nat} {axis extent part size width : Nat} {bytes : Bytes}

theorem prod_split (h : shape[axis]? = some extent) :
    shape.prod = (shape.take axis).prod * (extent * (shape.drop (axis + 1)).prod) := by
  obtain ⟨hlt, heq⟩ := List.getElem?_eq_some_iff.mp h
  rw [← List.prod_cons, ← heq, ← List.drop_eq_getElem_cons hlt, ← List.prod_append,
    List.take_append_drop]

theorem getElem?_set_axis (part : Nat) (h : shape[axis]? = some extent) :
    (shape.set axis part)[axis]? = some part :=
  List.getElem?_set_self (List.getElem?_eq_some_iff.mp h).choose

theorem drop_set_axis (part : Nat) (h : shape[axis]? = some extent) :
    ((shape.set axis part).drop axis).prod = part * (shape.drop (axis + 1)).prod := by
  obtain ⟨hlt, heq⟩ := List.getElem?_eq_some_iff.mp (getElem?_set_axis part h)
  rw [List.drop_eq_getElem_cons hlt, heq, List.prod_cons, List.drop_set_of_lt (Nat.lt_succ_self _)]

theorem take_set_axis (part : Nat) : (shape.set axis part).take axis = shape.take axis := by
  rw [List.take_set_of_le (Nat.le_refl _)]

theorem prod_set_axis (part : Nat) (h : shape[axis]? = some extent) :
    (shape.set axis part).prod =
      (shape.take axis).prod * (part * (shape.drop (axis + 1)).prod) := by
  rw [← drop_set_axis part h, ← take_set_axis part, ← List.prod_append, List.take_append_drop]

/-- A rank takes a run of every row before the axis. -/
theorem slice_eq (shard : TensorParallelShard) {slot : WeightSlot} (haxis : slot.axis = some axis)
    (hshape : shape[axis]? = some (part * shard.size)) (hbytes : bytes.length = shape.prod * width) :
    shard.slice slot bytes shape =
      .ok (rankBytes bytes (shape.take axis).prod (part * (shape.drop (axis + 1)).prod * width)
        shard.size shard.rank, shape.set axis part) := by
  have hpos : 0 < shard.size := Nat.zero_lt_of_lt shard.lt
  have hprod := prod_split hshape
  generalize houter : (shape.take axis).prod = outer at *
  generalize hinner : (shape.drop (axis + 1)).prod = inner at *
  unfold TensorParallelShard.slice
  by_cases hone : 1 < shard.size
  · rw [if_pos hone, haxis]
    simp only [hshape, Nat.mul_mod_left, ne_eq, not_true_eq_false, if_false,
      Nat.mul_div_cancel _ hpos, houter, hinner, Nat.mul_assoc outer, ← hprod]
    have hruns : ∀ row, (bytes.drop (row * (part * shard.size * inner *
        (bytes.length / max shape.prod 1)) + shard.rank * (part * inner *
          (bytes.length / max shape.prod 1)))).take (part * inner *
            (bytes.length / max shape.prod 1)) =
        run bytes (part * inner * width) (row * shard.size + shard.rank) := by
      intro row
      rcases Nat.eq_zero_or_pos shape.prod with hzero | hprod
      · rw [hzero, Nat.zero_mul] at hbytes
        rw [List.eq_nil_of_length_eq_zero hbytes, List.drop_nil, List.take_nil, Runs.run_nil]
      · rw [Nat.max_eq_left hprod, hbytes, Nat.mul_div_cancel_left _ hprod, run]
        congr 2
        ring
    split
    · next hone =>
        have hfirst := hruns 0
        rw [Nat.zero_mul, Nat.zero_add] at hfirst
        rw [hfirst, hone]
        simp [rankBytes]
    · simp only [hruns]
      rfl
  · -- The whole checkpoint, which is not cut.
    obtain ⟨rank, size, hlt⟩ := shard
    simp only at *
    obtain rfl : size = 1 := by omega
    obtain rfl : rank = 0 := by omega
    rw [if_neg hone]
    simp only [rankBytes, Nat.mul_one, Nat.add_zero]
    rw [Nat.mul_one] at hshape hprod
    have hwhole : bytes.length = outer * (part * inner * width) := by
      rw [hbytes, hprod, Nat.mul_assoc]
    obtain ⟨hin, heq⟩ := List.getElem?_eq_some_iff.mp hshape
    rw [Runs.flatMap_run hwhole, ← heq, List.set_getElem_self]

/-- Every run of a rank lies in the tensor. -/
theorem runs_fit {outer run row rank : Nat} (hrow : row < outer) (hrank : rank < size)
    (hbytes : bytes.length = outer * (size * run)) :
    (row * size + rank + 1) * run ≤ bytes.length := by
  have hplace : row * size + rank + 1 ≤ outer * size := by
    calc row * size + rank + 1 ≤ row * size + size := by omega
      _ = (row + 1) * size := (Nat.succ_mul row size).symm
      _ ≤ outer * size := Nat.mul_le_mul_right size hrow
  calc (row * size + rank + 1) * run ≤ outer * size * run := Nat.mul_le_mul_right run hplace
    _ = bytes.length := by rw [hbytes, Nat.mul_assoc]

theorem length_rankBytes {outer run rank : Nat} (hrank : rank < size)
    (hbytes : bytes.length = outer * (size * run)) :
    (rankBytes bytes outer run size rank).length = outer * run :=
  Runs.length_flatMap_range fun _ hrow => Runs.length_run (runs_fit hrow hrank hbytes)

/-- The slices of all ranks are the tensor again. -/
theorem putBack_rankBytes (hshape : shape[axis]? = some (part * size))
    (hbytes : bytes.length = shape.prod * width) :
    putBack axis (shape.set axis part) width ((List.range size).map
      (rankBytes bytes (shape.take axis).prod (part * (shape.drop (axis + 1)).prod * width) size)) =
        bytes := by
  have hlength : bytes.length = (shape.take axis).prod *
      (size * (part * (shape.drop (axis + 1)).prod * width)) := by
    rw [hbytes, prod_split hshape]
    ring
  unfold putBack
  rw [take_set_axis, drop_set_axis part hshape]
  generalize (shape.take axis).prod = outer at *
  generalize part * (shape.drop (axis + 1)).prod * width = length at *
  have hrows : ∀ row ∈ List.range outer, ((List.range size).map
      (rankBytes bytes outer length size)).flatMap (fun slice => run slice length row) =
        ((List.range size).map fun rank => row * size + rank).flatMap (run bytes length) := by
    intro row hrow
    rw [List.flatMap_map, List.flatMap_map]
    apply List.flatMap_congr
    intro rank hrank
    exact Runs.run_flatMap (fun _ hrow => Runs.length_run
      (runs_fit hrow (List.mem_range.mp hrank) hlength)) (List.mem_range.mp hrow)
  rw [List.flatMap_congr hrows, ← List.flatMap_assoc, ← Runs.range_mul]
  apply Runs.flatMap_run
  rw [hlength, Nat.mul_assoc]

end Slices

section Dimensions

variable {size : Nat}

/-- The attention of a rank has its share of the heads. -/
structure AttentionShare (size : Nat) (whole part : AttentionSpec) : Prop where
  queryHeads : whole.queryHeads = size * part.queryHeads
  keyValueHeads : whole.keyValueHeads = size * part.keyValueHeads
  headDimension : part.headDimension = whole.headDimension
  hiddenSize : part.hiddenSize = whole.hiddenSize
  bias : part.bias = whole.bias
  queryKeyNorm : part.queryKeyNorm = whole.queryKeyNorm

structure BlockShare (size : Nat) (whole part : DecoderBlockSpec) : Prop where
  index : part.index = whole.index
  attention : AttentionShare size whole.attention part.attention
  intermediate : whole.mlp.intermediateSize = size * part.mlp.intermediateSize
  mlpHidden : part.mlp.hiddenSize = whole.mlp.hiddenSize
  mlpBias : part.mlp.bias = whole.mlp.bias

theorem rankSpec_share {block part : DecoderBlockSpec} (h : block.rankSpec size = .ok part) :
    BlockShare size block part := by
  simp only [DecoderBlockSpec.rankSpec] at h
  split at h
  · cases h
  next hquery =>
  split at h
  · cases h
  next hkeyValue =>
  split at h
  · cases h
  next hintermediate =>
  cases h
  have hmul : ∀ value, ¬ value % size ≠ 0 → value = size * (value / size) :=
    fun value hmod => (Nat.mul_div_cancel' (Nat.dvd_of_mod_eq_zero (not_not.mp hmod))).symm
  exact ⟨rfl, ⟨hmul _ hquery, hmul _ hkeyValue, rfl, rfl, rfl, rfl⟩, hmul _ hintermediate, rfl, rfl⟩

theorem rankBlocks_share {blocks parts : List DecoderBlockSpec}
    (h : rankBlocks size blocks = .ok parts) : List.Forall₂ (BlockShare size) blocks parts := by
  induction blocks generalizing parts with
  | nil =>
      cases h
      exact .nil
  | cons block rest ih =>
      obtain ⟨part, hpart, h⟩ := except_bind_eq_ok.mp h
      obtain ⟨parts, hparts, heq⟩ := except_bind_eq_ok.mp h
      cases heq
      exact .cons (rankSpec_share hpart) (ih hparts)

theorem tensorParallelRankSpec_share {spec rankSpec : ModelSpec}
    (h : spec.tensorParallelRankSpec size = .ok rankSpec) :
    0 < size ∧ List.Forall₂ (BlockShare size) spec.blocks rankSpec.blocks ∧
      rankSpec.vocabularySize = spec.vocabularySize ∧ rankSpec.hiddenSize = spec.hiddenSize ∧
      rankSpec.tiedToEmbedding = spec.tiedToEmbedding := by
  unfold ModelSpec.tensorParallelRankSpec at h
  split at h
  · cases h
  next hsize =>
  obtain ⟨blocks, hblocks, heq⟩ := except_bind_eq_ok.mp h
  cases heq
  exact ⟨Nat.pos_of_ne_zero hsize, rankBlocks_share hblocks, rfl, rfl, rfl⟩

/-- A tensor of the rank: whole, or with its share of the axis. -/
structure RequirementShare (size : Nat) (whole part : Requirement) : Prop where
  slot : part.slot = whole.slot
  sourceName : part.sourceName = whole.sourceName
  kept : whole.slot.axis = none → part.shape = whole.shape
  cut : ∀ axis, whole.slot.axis = some axis → ∃ extent,
    whole.shape[axis]? = some (extent * size) ∧ part.shape = whole.shape.set axis extent

/-- A parameter of a layer with its suffix and its shape, and that of a rank. -/
def ParameterShare (size layer : Nat) (whole part : DecoderWeight × String × List Nat) : Prop :=
  RequirementShare size ⟨.decoder layer whole.1, whole.2.1, whole.2.2⟩
    ⟨.decoder layer part.1, part.2.1, part.2.2⟩

section Parameters

variable {layer extent : Nat} {parameter : DecoderWeight} (suffix : String)

theorem ParameterShare.same (shape : List Nat)
    (haxis : (WeightSlot.decoder layer parameter).axis = none) :
    ParameterShare size layer (parameter, suffix, shape) (parameter, suffix, shape) := by
  refine ⟨rfl, rfl, fun _ => rfl, fun axis hsome => ?_⟩
  cases haxis.symm.trans hsome

theorem ParameterShare.rows (rest : List Nat)
    (haxis : (WeightSlot.decoder layer parameter).axis = some 0) :
    ParameterShare size layer (parameter, suffix, size * extent :: rest)
      (parameter, suffix, extent :: rest) := by
  refine ⟨rfl, rfl, fun hnone => ?_, fun axis hsome => ⟨extent, ?_⟩⟩
  · cases haxis.symm.trans hnone
  · cases haxis.symm.trans hsome
    exact ⟨congrArg some (Nat.mul_comm size extent), rfl⟩

theorem ParameterShare.columns (rows : Nat)
    (haxis : (WeightSlot.decoder layer parameter).axis = some 1) :
    ParameterShare size layer (parameter, suffix, [rows, size * extent])
      (parameter, suffix, [rows, extent]) := by
  refine ⟨rfl, rfl, fun hnone => ?_, fun axis hsome => ⟨extent, ?_⟩⟩
  · cases haxis.symm.trans hnone
  · cases haxis.symm.trans hsome
    exact ⟨congrArg some (Nat.mul_comm size extent), rfl⟩

end Parameters

theorem layerRequirements_share {layer : Nat} {parameters parameters' :
    List (DecoderWeight × String × List Nat)}
    (h : List.Forall₂ (ParameterShare size layer) parameters parameters') :
    List.Forall₂ (RequirementShare size) (layerRequirements layer parameters)
      (layerRequirements layer parameters') := by
  induction h with
  | nil => exact .nil
  | cons hfirst _ ih =>
      obtain ⟨hslot, hsuffix, hkept, hcut⟩ := hfirst
      exact .cons ⟨hslot, congrArg (s!"model.layers.{layer}" ++ "." ++ ·) hsuffix, hkept, hcut⟩ ih

/-- Optional parameters are there for the whole layer and for a rank alike. -/
theorem optional_share {layer : Nat} {parameters parameters' :
    List (DecoderWeight × String × List Nat)} (flag : Bool)
    (h : List.Forall₂ (ParameterShare size layer) parameters parameters') :
    List.Forall₂ (ParameterShare size layer) (if flag then parameters else [])
      (if flag then parameters' else []) := by
  cases flag with
  | false => exact .nil
  | true => exact h

theorem attention_share {whole part : AttentionSpec} (h : AttentionShare size whole part)
    (layer queryWidth keyValueWidth : Nat) :
    List.Forall₂ (RequirementShare size)
      (whole.requirements layer (size * queryWidth) (size * keyValueWidth))
      (part.requirements layer queryWidth keyValueWidth) := by
  unfold AttentionSpec.requirements
  rw [h.hiddenSize, h.bias]
  apply layerRequirements_share
  apply List.rel_append
  · apply List.rel_append
    · apply List.rel_append
      · apply List.rel_append
        · exact .cons (.rows _ _ rfl) (.cons (.rows _ _ rfl) (.cons (.rows _ _ rfl)
            (.cons (.columns _ _ rfl) .nil)))
        · exact optional_share _ (.cons (.rows _ _ rfl) .nil)
      · exact optional_share _ (.cons (.rows _ _ rfl) .nil)
    · exact optional_share _ (.cons (.rows _ _ rfl) .nil)
  · exact optional_share _ (.cons (.same _ _ rfl) .nil)

theorem attentionNorm_share {whole part : AttentionSpec} (h : AttentionShare size whole part)
    (layer : Nat) :
    List.Forall₂ (RequirementShare size) (whole.normRequirements layer)
      (part.normRequirements layer) := by
  unfold AttentionSpec.normRequirements
  rw [h.queryKeyNorm, h.headDimension]
  apply layerRequirements_share
  exact optional_share _ (.cons (.same _ _ rfl) (.cons (.same _ _ rfl) .nil))

theorem mlp_share {whole part : GatedMlpSpec}
    (hintermediate : whole.intermediateSize = size * part.intermediateSize)
    (hhidden : part.hiddenSize = whole.hiddenSize) (hbias : part.bias = whole.bias) (layer : Nat) :
    List.Forall₂ (RequirementShare size) (whole.requirements layer) (part.requirements layer) := by
  unfold GatedMlpSpec.requirements
  rw [hintermediate, hhidden, hbias]
  apply layerRequirements_share
  apply List.rel_append
  · exact .cons (.rows _ _ rfl) (.cons (.rows _ _ rfl) (.cons (.columns _ _ rfl) .nil))
  · exact optional_share _ (.cons (.rows _ _ rfl) (.cons (.rows _ _ rfl)
      (.cons (.same _ _ rfl) .nil)))

theorem checkedProduct_eq_ok {left right product : Nat} {field : String} :
    checkedProduct left right field = .ok product ↔
      left * right ≤ usizeMax ∧ left * right = product := by
  unfold checkedProduct checkedMul
  by_cases hle : left * right ≤ usizeMax
  · simp [hle]
  · simp [hle]

/-- The widths of a rank are representable where those of the model are. -/
theorem checkedProduct_share {whole part right product : Nat} {field : String} (hsize : 0 < size)
    (hwhole : whole = size * part) (h : checkedProduct whole right field = .ok product) :
    product = size * (part * right) ∧ checkedProduct part right field = .ok (part * right) := by
  obtain ⟨hle, rfl⟩ := checkedProduct_eq_ok.mp h
  rw [hwhole, Nat.mul_assoc] at hle ⊢
  exact ⟨rfl, checkedProduct_eq_ok.mpr ⟨Nat.le_trans (Nat.le_mul_of_pos_left _ hsize) hle, rfl⟩⟩

theorem block_share {whole part : DecoderBlockSpec} {requirements : List Requirement}
    (hsize : 0 < size) (h : BlockShare size whole part)
    (hrequirements : whole.requirements = .ok requirements) :
    ∃ partRequirements, part.requirements = .ok partRequirements ∧
      List.Forall₂ (RequirementShare size) requirements partRequirements := by
  obtain ⟨queryWidth, hquery, hrequirements⟩ := except_bind_eq_ok.mp hrequirements
  obtain ⟨keyValueWidth, hkeyValue, heq⟩ := except_bind_eq_ok.mp hrequirements
  cases heq
  rw [← h.attention.headDimension] at hquery hkeyValue
  obtain ⟨rfl, hpartQuery⟩ := checkedProduct_share hsize h.attention.queryHeads hquery
  obtain ⟨rfl, hpartKeyValue⟩ := checkedProduct_share hsize h.attention.keyValueHeads hkeyValue
  refine ⟨_, except_bind_eq_ok.mpr ⟨_, hpartQuery, except_bind_eq_ok.mpr ⟨_, hpartKeyValue, rfl⟩⟩,
    ?_⟩
  rw [h.index, h.attention.hiddenSize]
  apply List.rel_append
  · apply List.rel_append
    · apply List.rel_append
      · apply List.rel_append
        · exact layerRequirements_share (.cons (.same _ _ rfl) .nil)
        · exact attention_share h.attention _ _ _
      · exact attentionNorm_share h.attention _
    · exact layerRequirements_share (.cons (.same _ _ rfl) .nil)
  · exact mlp_share h.intermediate h.mlpHidden h.mlpBias _

theorem blocks_share {wholes parts : List DecoderBlockSpec} {requirements : List Requirement}
    (hsize : 0 < size) (h : List.Forall₂ (BlockShare size) wholes parts)
    (hrequirements : blocksRequirements wholes = .ok requirements) :
    ∃ partRequirements, blocksRequirements parts = .ok partRequirements ∧
      List.Forall₂ (RequirementShare size) requirements partRequirements := by
  induction h generalizing requirements with
  | nil =>
      cases hrequirements
      exact ⟨[], rfl, .nil⟩
  | cons hblock _ ih =>
      obtain ⟨first, hfirst, hrequirements⟩ := except_bind_eq_ok.mp hrequirements
      obtain ⟨more, hmore, heq⟩ := except_bind_eq_ok.mp hrequirements
      cases heq
      obtain ⟨partFirst, hpartFirst, hfirst⟩ := block_share hsize hblock hfirst
      obtain ⟨partMore, hpartMore, hmore⟩ := ih hmore
      refine ⟨partFirst ++ partMore, ?_, List.rel_append hfirst hmore⟩
      exact except_bind_eq_ok.mpr ⟨_, hpartFirst, except_bind_eq_ok.mpr ⟨_, hpartMore, rfl⟩⟩

/-- The tensors of a rank are those of the model, each whole or with its share. -/
theorem requirements_share {spec rankSpec : ModelSpec} {requirements : List Requirement}
    (h : spec.tensorParallelRankSpec size = .ok rankSpec)
    (hrequirements : spec.requirements = .ok requirements) :
    ∃ rankRequirements, rankSpec.requirements = .ok rankRequirements ∧
      List.Forall₂ (RequirementShare size) requirements rankRequirements := by
  obtain ⟨hsize, hblocks, hvocabulary, hhidden, htied⟩ := tensorParallelRankSpec_share h
  obtain ⟨blocks, hwhole, heq⟩ := except_bind_eq_ok.mp hrequirements
  cases heq
  obtain ⟨partBlocks, hpart, hshare⟩ := blocks_share hsize hblocks hwhole
  have hkept : ∀ requirement : Requirement, requirement.slot.axis = none →
      RequirementShare size requirement requirement := by
    intro requirement haxis
    exact ⟨rfl, rfl, fun _ => rfl, fun axis hsome => by cases haxis.symm.trans hsome⟩
  refine ⟨_, except_bind_eq_ok.mpr ⟨partBlocks, hpart, rfl⟩, ?_⟩
  rw [hvocabulary, hhidden, htied]
  apply List.Forall₂.cons (hkept _ rfl)
  apply List.rel_append hshare
  apply List.Forall₂.cons (hkept _ rfl)
  split
  · exact .nil
  · exact .cons (hkept _ rfl) .nil

end Dimensions

end Riley.TensorParallel
