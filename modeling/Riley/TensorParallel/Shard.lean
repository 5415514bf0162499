import Riley.Library.Runs
import Riley.Machine

/-!
The slice of a checkpoint that a rank of a tensor-parallel group holds: the dimensions
of a rank, the tensors that they ask for, and the bytes that are taken of each tensor.
-/

namespace Riley.TensorParallel

open Runs (run)

abbrev Bytes := List UInt8

inductive DecoderWeight
  | inputNormScale
  | queryWeight
  | queryBias
  | keyWeight
  | keyBias
  | valueWeight
  | valueBias
  | outputWeight
  | outputBias
  | postAttentionNormScale
  | gateWeight
  | gateBias
  | upWeight
  | upBias
  | downWeight
  | downBias
  | queryNormScale
  | keyNormScale
  deriving DecidableEq, Repr

inductive WeightSlot
  | tokenEmbedding
  | decoder (layer : Nat) (parameter : DecoderWeight)
  | finalNormScale
  | lmHead
  deriving DecidableEq, Repr

inductive ModelError
  | unsupportedConfig (field value : String)
  | numericOverflow (field : String)
  deriving DecidableEq, Repr

section Specification

structure AttentionBiasSpec where
  query : Bool
  key : Bool
  value : Bool
  output : Bool
  deriving DecidableEq, Repr

structure AttentionSpec where
  hiddenSize : Nat
  queryHeads : Nat
  keyValueHeads : Nat
  headDimension : Nat
  bias : AttentionBiasSpec
  queryKeyNorm : Bool
  /-- Configurations with other heads are rejected. -/
  grouped : keyValueHeads ∣ queryHeads
  deriving DecidableEq, Repr

structure GatedMlpSpec where
  hiddenSize : Nat
  intermediateSize : Nat
  bias : Bool
  deriving DecidableEq, Repr

structure DecoderBlockSpec where
  index : Nat
  attention : AttentionSpec
  mlp : GatedMlpSpec
  deriving DecidableEq, Repr

structure ModelSpec where
  vocabularySize : Nat
  hiddenSize : Nat
  blocks : List DecoderBlockSpec
  /-- Whether the LM head is the embedding. -/
  tiedToEmbedding : Bool
  deriving DecidableEq, Repr

def unsupported (size : Nat) (field : String) (value : Nat) : ModelError :=
  .unsupportedConfig s!"tensor_parallel_size for {field}" s!"{size} does not divide {value}"

/-- The attention of a rank, where the group divides its heads. -/
def AttentionSpec.divided (attention : AttentionSpec) (size : Nat)
    (hquery : size ∣ attention.queryHeads) (hkeyValue : size ∣ attention.keyValueHeads) :
    AttentionSpec :=
  { attention with
    queryHeads := attention.queryHeads / size
    keyValueHeads := attention.keyValueHeads / size
    grouped := by
      obtain ⟨query, hquery⟩ := hquery
      obtain ⟨keyValue, hkeyValue⟩ := hkeyValue
      have hgrouped := attention.grouped
      rw [hquery, hkeyValue] at hgrouped ⊢
      rcases Nat.eq_zero_or_pos size with rfl | hpos
      · rw [Nat.div_zero, Nat.div_zero]
      · rw [Nat.mul_div_cancel_left _ hpos, Nat.mul_div_cancel_left _ hpos]
        exact Nat.dvd_of_mul_dvd_mul_left hpos hgrouped }

def DecoderBlockSpec.rankSpec (block : DecoderBlockSpec) (size : Nat) :
    Except ModelError DecoderBlockSpec :=
  let attention := block.attention
  if hquery : attention.queryHeads % size ≠ 0 then
    .error (unsupported size "num_attention_heads" attention.queryHeads)
  else if hkeyValue : attention.keyValueHeads % size ≠ 0 then
    .error (unsupported size "num_key_value_heads" attention.keyValueHeads)
  else if block.mlp.intermediateSize % size ≠ 0 then
    .error (unsupported size "intermediate_size" block.mlp.intermediateSize)
  else
    .ok
      { block with
        attention := attention.divided size (Nat.dvd_of_mod_eq_zero (not_not.mp hquery))
          (Nat.dvd_of_mod_eq_zero (not_not.mp hkeyValue))
        mlp := { block.mlp with intermediateSize := block.mlp.intermediateSize / size } }

def rankBlocks (size : Nat) : List DecoderBlockSpec → Except ModelError (List DecoderBlockSpec)
  | [] => .ok []
  | block :: rest => do
      let block ← block.rankSpec size
      let rest ← rankBlocks size rest
      .ok (block :: rest)

def ModelSpec.tensorParallelRankSpec (spec : ModelSpec) (size : Nat) :
    Except ModelError ModelSpec :=
  if size = 0 then .error (.unsupportedConfig "tensor_parallel_size" "0")
  else do
    let blocks ← rankBlocks size spec.blocks
    .ok { spec with blocks }

end Specification

section Requirements

structure Requirement where
  slot : WeightSlot
  sourceName : String
  shape : List Nat
  deriving DecidableEq, Repr

def checkedProduct (left right : Nat) (field : String) : Except ModelError Nat :=
  match checkedMul usizeMax left right with
  | some product => .ok product
  | none => .error (.numericOverflow field)

/-- The requirements of a family of parameters with their suffixes and shapes. -/
def layerRequirements (layer : Nat) (parameters : List (DecoderWeight × String × List Nat)) :
    List Requirement :=
  parameters.map fun (parameter, suffix, shape) =>
    ⟨.decoder layer parameter, s!"model.layers.{layer}" ++ "." ++ suffix, shape⟩

def AttentionSpec.requirements (attention : AttentionSpec) (layer queryWidth keyValueWidth : Nat) :
    List Requirement :=
  let hidden := attention.hiddenSize
  let bias := attention.bias
  layerRequirements layer
    ([(.queryWeight, "self_attn.q_proj.weight", [queryWidth, hidden]),
        (.keyWeight, "self_attn.k_proj.weight", [keyValueWidth, hidden]),
        (.valueWeight, "self_attn.v_proj.weight", [keyValueWidth, hidden]),
        (.outputWeight, "self_attn.o_proj.weight", [hidden, queryWidth])] ++
      (if bias.query then [(.queryBias, "self_attn.q_proj.bias", [queryWidth])] else []) ++
      (if bias.key then [(.keyBias, "self_attn.k_proj.bias", [keyValueWidth])] else []) ++
      (if bias.value then [(.valueBias, "self_attn.v_proj.bias", [keyValueWidth])] else []) ++
      (if bias.output then [(.outputBias, "self_attn.o_proj.bias", [hidden])] else []))

def AttentionSpec.normRequirements (attention : AttentionSpec) (layer : Nat) : List Requirement :=
  layerRequirements layer
    (if attention.queryKeyNorm then
      [(.queryNormScale, "self_attn.q_norm.weight", [attention.headDimension]),
        (.keyNormScale, "self_attn.k_norm.weight", [attention.headDimension])]
    else [])

def GatedMlpSpec.requirements (mlp : GatedMlpSpec) (layer : Nat) : List Requirement :=
  let hidden := mlp.hiddenSize
  let intermediate := mlp.intermediateSize
  layerRequirements layer
    ([(.gateWeight, "mlp.gate_proj.weight", [intermediate, hidden]),
        (.upWeight, "mlp.up_proj.weight", [intermediate, hidden]),
        (.downWeight, "mlp.down_proj.weight", [hidden, intermediate])] ++
      (if mlp.bias then
        [(.gateBias, "mlp.gate_proj.bias", [intermediate]),
          (.upBias, "mlp.up_proj.bias", [intermediate]),
          (.downBias, "mlp.down_proj.bias", [hidden])]
      else []))

def DecoderBlockSpec.requirements (block : DecoderBlockSpec) :
    Except ModelError (List Requirement) := do
  let layer := block.index
  let attention := block.attention
  let queryWidth ← checkedProduct attention.queryHeads attention.headDimension
    "query projection width"
  let keyValueWidth ← checkedProduct attention.keyValueHeads attention.headDimension
    "key/value projection width"
  .ok (layerRequirements layer [(.inputNormScale, "input_layernorm.weight", [attention.hiddenSize])] ++
    attention.requirements layer queryWidth keyValueWidth ++ attention.normRequirements layer ++
    layerRequirements layer
      [(.postAttentionNormScale, "post_attention_layernorm.weight", [attention.hiddenSize])] ++
    block.mlp.requirements layer)

def blocksRequirements : List DecoderBlockSpec → Except ModelError (List Requirement)
  | [] => .ok []
  | block :: rest => do
      let first ← block.requirements
      let more ← blocksRequirements rest
      .ok (first ++ more)

def ModelSpec.requirements (spec : ModelSpec) : Except ModelError (List Requirement) := do
  let blocks ← blocksRequirements spec.blocks
  .ok (⟨.tokenEmbedding, "model.embed_tokens.weight", [spec.vocabularySize, spec.hiddenSize]⟩ ::
    blocks ++ ⟨.finalNormScale, "model.norm.weight", [spec.hiddenSize]⟩ ::
      if spec.tiedToEmbedding then []
      else [⟨.lmHead, "lm_head.weight", [spec.vocabularySize, spec.hiddenSize]⟩])

end Requirements

section Slicing

structure IndivisibleShard where
  slot : WeightSlot
  size : Nat
  deriving DecidableEq, Repr

structure TensorParallelShard where
  rank : Nat
  size : Nat
  lt : rank < size

/-- The axis that a tensor is split along. -/
def WeightSlot.axis : WeightSlot → Option Nat
  | .decoder _ parameter =>
      match parameter with
      | .queryWeight | .queryBias | .keyWeight | .keyBias | .valueWeight | .valueBias
      | .gateWeight | .gateBias | .upWeight | .upBias => some 0
      | .outputWeight | .downWeight => some 1
      | _ => none
  | _ => none

/-- The bytes and the shape that a rank has of a tensor, which is stored row by row. -/
def TensorParallelShard.slice (shard : TensorParallelShard) (slot : WeightSlot) (bytes : Bytes)
    (shape : List Nat) : Except IndivisibleShard (Bytes × List Nat) :=
  match if 1 < shard.size then slot.axis else none with
  | none => .ok (bytes, shape)
  | some axis =>
      match shape[axis]? with
      | none => .error ⟨slot, shard.size⟩
      | some extent =>
          if extent % shard.size ≠ 0 then .error ⟨slot, shard.size⟩
          else
            let part := extent / shard.size
            let rankShape := shape.set axis part
            -- Elements behind the axis form one run.
            let inner := (shape.drop (axis + 1)).prod
            let outer := (shape.take axis).prod
            let element := bytes.length / max (outer * extent * inner) 1
            let run := part * inner * element
            let stride := extent * inner * element
            let start := shard.rank * run
            if outer = 1 then .ok ((bytes.drop start).take run, rankShape)
            else
              .ok ((List.range outer).flatMap fun row =>
                (bytes.drop (row * stride + start)).take run, rankShape)

end Slicing

end Riley.TensorParallel
