import Riley.TensorParallel.Shard

/-!
The attention and the MLP of a decoder layer over exact numbers, from the bytes of the
tensors that a device holds. A rank runs them with its own dimensions, and its outputs are
partial until they are added to those of the other ranks.
-/

namespace Riley.TensorParallel

open Runs (run)

/-- The tensors of a layer that a device holds, with the bytes of an element of each and the
number that they stand for. -/
structure Tensors (R : Type) where
  held : DecoderWeight → Bytes
  width : DecoderWeight → Nat
  read : DecoderWeight → Bytes → R

/-- The tensors of a layer out of those that a device holds. -/
def layerTensors {R : Type} (layer : Nat) (held : WeightSlot → Bytes) (width : WeightSlot → Nat)
    (read : DecoderWeight → Bytes → R) : Tensors R :=
  ⟨fun parameter => held (.decoder layer parameter), fun parameter =>
    width (.decoder layer parameter), read⟩

/-- The key/value head that a query head attends to. -/
def AttentionSpec.keyValueHead (attention : AttentionSpec) (queryHead : Nat) : Nat :=
  queryHead / (attention.queryHeads / attention.keyValueHeads)

variable {R : Type} [Semiring R]

def Tensors.entry (tensors : Tensors R) (parameter : DecoderWeight) (index : Nat) : R :=
  tensors.read parameter (run (tensors.held parameter) (tensors.width parameter) index)

def Tensors.bias (tensors : Tensors R) (present : Bool) (parameter : DecoderWeight) (row : Nat) :
    R :=
  if present then tensors.entry parameter row else 0

/-- A row of a projection, without its bias. -/
def Tensors.project (tensors : Tensors R) (weight : DecoderWeight) (columns : Nat)
    (inputs : Nat → R) (row : Nat) : R :=
  ∑ column ∈ Finset.range columns, tensors.entry weight (row * columns + column) * inputs column

/-- The elements of a head in a row of projections. -/
def headOf (projected : Nat → R) (headDimension head : Nat) : List R :=
  (List.range headDimension).map fun place => projected (head * headDimension + place)

/-- What is computed of a head: from the scales of the norms and the query, key and value
of the head at each token, an output for a token and a place in the head. -/
abbrev Attend (R : Type) := List Bytes → (Nat → List R) → (Nat → List R) → (Nat → List R) →
  Nat → Nat → R

section Attention

variable (attention : AttentionSpec) (tensors : Tensors R) (inputs : Nat → Nat → R)

def AttentionSpec.query (token row : Nat) : R :=
  tensors.project .queryWeight attention.hiddenSize (inputs token) row +
    tensors.bias attention.bias.query .queryBias row

def AttentionSpec.key (token row : Nat) : R :=
  tensors.project .keyWeight attention.hiddenSize (inputs token) row +
    tensors.bias attention.bias.key .keyBias row

def AttentionSpec.value (token row : Nat) : R :=
  tensors.project .valueWeight attention.hiddenSize (inputs token) row +
    tensors.bias attention.bias.value .valueBias row

/-- The scales of the norms of a query and a key, which all heads share. -/
def AttentionSpec.normScales : List Bytes :=
  if attention.queryKeyNorm then [tensors.held .queryNormScale, tensors.held .keyNormScale] else []

/-- The output of the heads before the output projection. -/
def AttentionSpec.context (attend : Attend R) (token column : Nat) : R :=
  let dimension := attention.headDimension
  let head := column / dimension
  let keyValueHead := attention.keyValueHead head
  attend (attention.normScales tensors)
    (fun token => headOf (attention.query tensors inputs token) dimension head)
    (fun token => headOf (attention.key tensors inputs token) dimension keyValueHead)
    (fun token => headOf (attention.value tensors inputs token) dimension keyValueHead)
    token (column % dimension)

/-- The output projection, before the bias and over the heads of the device alone. -/
def AttentionSpec.partialOutput (attend : Attend R) (token row : Nat) : R :=
  tensors.project .outputWeight (attention.queryHeads * attention.headDimension)
    (attention.context tensors inputs attend token) row

def AttentionSpec.outputBias (row : Nat) : R :=
  tensors.bias attention.bias.output .outputBias row

def AttentionSpec.output (attend : Attend R) (token row : Nat) : R :=
  attention.partialOutput tensors inputs attend token row + attention.outputBias tensors row

end Attention

section Mlp

variable (mlp : GatedMlpSpec) (tensors : Tensors R) (inputs : Nat → Nat → R)

def GatedMlpSpec.gate (token row : Nat) : R :=
  tensors.project .gateWeight mlp.hiddenSize (inputs token) row + tensors.bias mlp.bias .gateBias row

def GatedMlpSpec.up (token row : Nat) : R :=
  tensors.project .upWeight mlp.hiddenSize (inputs token) row + tensors.bias mlp.bias .upBias row

/-- The down projection, before the bias and over the columns of the device alone. -/
def GatedMlpSpec.partialOutput (activate : R → R → R) (token row : Nat) : R :=
  tensors.project .downWeight mlp.intermediateSize (fun column =>
    activate (mlp.gate tensors inputs token column) (mlp.up tensors inputs token column)) row

def GatedMlpSpec.outputBias (row : Nat) : R := tensors.bias mlp.bias .downBias row

def GatedMlpSpec.output (activate : R → R → R) (token row : Nat) : R :=
  mlp.partialOutput tensors inputs activate token row + mlp.outputBias tensors row

end Mlp

end Riley.TensorParallel
