import Mathlib.Algebra.BigOperators.Ring.List
import Mathlib.Algebra.Order.BigOperators.Ring.List
import Mathlib.Algebra.Order.Ring.Nat
import Riley.Library.Striding
import Riley.Machine

/-!
Shapes, strides and strided layouts of tensors, and the operations that make one layout of
another without copying: slices, reshapes and transposes.
-/

namespace Riley.Tensor

open Striding (swap)

inductive DType
  | u8
  | i8
  | i16
  | i32
  | i64
  | f16
  | bf16
  | f32
  | f64
  deriving DecidableEq, Repr

def DType.sizeBytes : DType → Nat
  | .u8 | .i8 => 1
  | .i16 | .f16 | .bf16 => 2
  | .i32 | .f32 => 4
  | .i64 | .f64 => 8

inductive TensorError
  | elementCountOverflow
  | byteLengthOverflow (elements elementSize : Nat)
  | rankMismatch (shapeRank stridesRank : Nat)
  | layoutSpanOverflow
  | axisOutOfBounds (axis rank : Nat)
  | sliceOutOfBounds (axis start stop extent : Nat)
  | elementCountMismatch (source requested : Nat)
  | nonContiguousReshape
  | nonContiguousLayout
  | bufferTooSmall (required actual : Nat)
  deriving DecidableEq, Repr

def orOverflow (value : Option Nat) (error : TensorError) : Except TensorError Nat :=
  match value with
  | some value => .ok value
  | none => .error error

section Shapes

/-- The product of extents, multiplied from the first. -/
def checkedProduct : Nat → List Nat → Option Nat
  | product, [] => some product
  | product, dimension :: dimensions => do
      checkedProduct (← checkedMul usizeMax product dimension) dimensions

theorem checkedProduct_eq {product : Nat} {dimensions : List Nat}
    (hpos : ∀ dimension ∈ dimensions, 0 < dimension) (hproduct : product ≤ usizeMax) :
    checkedProduct product dimensions =
      if product * dimensions.prod ≤ usizeMax then some (product * dimensions.prod) else none := by
  induction dimensions generalizing product with
  | nil => simp [checkedProduct, hproduct]
  | cons dimension dimensions ih =>
      have htail : ∀ other ∈ dimensions, 0 < other := fun other hmem =>
        hpos other (List.mem_cons_of_mem _ hmem)
      have hrest : 0 < dimensions.prod := CanonicallyOrderedAdd.list_prod_pos.mpr htail
      rw [checkedProduct, checkedMul, List.prod_cons, ← Nat.mul_assoc]
      by_cases hnext : product * dimension ≤ usizeMax
      · simp only [hnext, if_true]
        exact ih htail hnext
      · have hlarge : ¬ product * dimension * dimensions.prod ≤ usizeMax := fun hle =>
          hnext (Nat.le_trans (Nat.le_mul_of_pos_right _ hrest) hle)
        simp [hnext, hlarge]

/-- Extents whose product is a size. One extent of zero makes the product zero. -/
structure Shape where
  dimensions : List Nat
  elementCount : Nat
  elementCount_eq : elementCount = dimensions.prod
  elementCount_le : elementCount ≤ usizeMax
  deriving DecidableEq

namespace Shape

theorem checkedProduct_spec {dimensions : List Nat} {product : Nat} (hzero : 0 ∉ dimensions)
    (h : checkedProduct 1 dimensions = some product) :
    product = dimensions.prod ∧ product ≤ usizeMax := by
  have hpos : ∀ dimension ∈ dimensions, 0 < dimension := fun dimension hmem =>
    Nat.pos_of_ne_zero fun heq => hzero (heq ▸ hmem)
  rw [checkedProduct_eq hpos (by decide)] at h
  split at h
  · next hle =>
      obtain rfl := Option.some.inj h
      exact ⟨Nat.one_mul _, hle⟩
  · cases h

def new (dimensions : List Nat) : Except TensorError Shape :=
  if hzero : 0 ∈ dimensions then
    .ok ⟨dimensions, 0, (List.prod_eq_zero hzero).symm, Nat.zero_le _⟩
  else
    match hproduct : checkedProduct 1 dimensions with
    | some elementCount =>
        .ok ⟨dimensions, elementCount, (checkedProduct_spec hzero hproduct).1,
          (checkedProduct_spec hzero hproduct).2⟩
    | none => .error .elementCountOverflow

def rank (shape : Shape) : Nat := shape.dimensions.length

def isEmpty (shape : Shape) : Bool := shape.elementCount == 0

end Shape

/-- The strides behind an axis, with the product of its extents, from the innermost out. -/
def contiguousElements : List Nat → Except TensorError (List Nat × Nat)
  | [] => .ok ([], 1)
  | extent :: dimensions => do
      let (elements, stride) ← contiguousElements dimensions
      let outer ← orOverflow (checkedMul usizeMax stride extent) .elementCountOverflow
      .ok (stride :: elements, outer)

structure Strides where
  elements : List Nat
  deriving DecidableEq, Repr

namespace Strides

def rank (strides : Strides) : Nat := strides.elements.length

def contiguous (shape : Shape) : Except TensorError Strides :=
  if shape.isEmpty then .ok ⟨List.replicate shape.rank 0⟩
  else do
    let (elements, _) ← contiguousElements shape.dimensions
    .ok ⟨elements⟩

end Strides

end Shapes

section Layouts

/-- The offset of the last element, from that of the first. -/
def lastOffset : Nat → List (Nat × Nat) → Except TensorError Nat
  | offset, [] => .ok offset
  | offset, (extent, stride) :: axes => do
      let axisOffset ← orOverflow (checkedMul usizeMax (extent - 1) stride) .layoutSpanOverflow
      let offset ← orOverflow (checkedAdd usizeMax offset axisOffset) .layoutSpanOverflow
      lastOffset offset axes

def storageSpanEnd (shape : Shape) (strides : Strides) (offsetElements : Nat) :
    Except TensorError Nat :=
  if shape.isEmpty then .ok offsetElements
  else do
    let last ← lastOffset offsetElements (shape.dimensions.zip strides.elements)
    orOverflow (checkedAdd usizeMax last 1) .layoutSpanOverflow

/-- A shape with a stride for each axis, whose elements end at an offset that was
computed. -/
structure Layout where
  shape : Shape
  strides : Strides
  offsetElements : Nat
  spanEndElements : Nat
  rank_eq : shape.rank = strides.rank
  span_eq : storageSpanEnd shape strides offsetElements = .ok spanEndElements

/-- Whether every stride is the product of the extents behind it, the innermost axis
first. -/
def contiguousFrom : Nat → List (Nat × Nat) → Bool
  | _, [] => true
  | expected, (extent, stride) :: axes =>
      if 1 < extent ∧ stride ≠ expected then false
      else
        match checkedMul usizeMax expected extent with
        | some outer => contiguousFrom outer axes
        | none => false

/-- Whether every stride is at least what the axes before it need. -/
def separatedFrom : Nat → List (Nat × Nat) → Bool
  | _, [] => true
  | requiredStride, (stride, extent) :: axes =>
      if stride < requiredStride then false
      else
        match checkedMul usizeMax stride extent with
        | some outer => separatedFrom outer axes
        | none => false

/-- The order in which pairs are sorted. -/
def pairLe (first second : Nat × Nat) : Bool :=
  decide (first.1 < second.1 ∨ first.1 = second.1 ∧ first.2 ≤ second.2)

namespace Layout

def new (shape : Shape) (strides : Strides) (offsetElements : Nat) : Except TensorError Layout :=
  if hrank : shape.rank ≠ strides.rank then .error (.rankMismatch shape.rank strides.rank)
  else
    match hspan : storageSpanEnd shape strides offsetElements with
    | .ok spanEndElements =>
        .ok ⟨shape, strides, offsetElements, spanEndElements, not_not.mp hrank, hspan⟩
    | .error error => .error error

def contiguous (shape : Shape) : Except TensorError Layout := do
  let strides ← Strides.contiguous shape
  new shape strides 0

/-- Bytes of the elements alone, without gaps. A size always converts to 64 bits. -/
def logicalByteLen (layout : Layout) (dtype : DType) : Except TensorError Nat :=
  orOverflow (checkedMul u64Max layout.shape.elementCount dtype.sizeBytes)
    (.byteLengthOverflow layout.shape.elementCount dtype.sizeBytes)

def storageByteRange (layout : Layout) (dtype : DType) : Except TensorError (Nat × Nat) := do
  let start ← orOverflow (checkedMul u64Max layout.offsetElements dtype.sizeBytes)
    (.byteLengthOverflow layout.offsetElements dtype.sizeBytes)
  let stop ← orOverflow (checkedMul u64Max layout.spanEndElements dtype.sizeBytes)
    (.byteLengthOverflow layout.spanEndElements dtype.sizeBytes)
  .ok (start, stop)

def isContiguous (layout : Layout) : Bool :=
  layout.shape.isEmpty ||
    contiguousFrom 1 (layout.shape.dimensions.zip layout.strides.elements).reverse

/-- The axes of more than one item, the smallest stride first. -/
def sortedAxes (layout : Layout) : List (Nat × Nat) :=
  (((layout.shape.dimensions.zip layout.strides.elements).filter (1 < ·.1)).map
    fun axis => (axis.2, axis.1)).mergeSort pairLe

def isNonOverlapping (layout : Layout) : Bool :=
  decide (layout.shape.elementCount ≤ 1) || separatedFrom 1 layout.sortedAxes

def requireContiguous (layout : Layout) : Except TensorError Unit :=
  if layout.isContiguous then .ok () else .error .nonContiguousLayout

def slice (layout : Layout) (axis start stop : Nat) : Except TensorError Layout :=
  if haxis : axis < layout.shape.dimensions.length then
    let extent := layout.shape.dimensions.get ⟨axis, haxis⟩
    let stride := layout.strides.elements.get
      ⟨axis, Nat.lt_of_lt_of_eq haxis layout.rank_eq⟩
    if start > stop ∨ stop > extent then .error (.sliceOutOfBounds axis start stop extent)
    else do
      let offsetDelta ← orOverflow (checkedMul usizeMax start stride) .layoutSpanOverflow
      let offsetElements ← orOverflow (checkedAdd usizeMax layout.offsetElements offsetDelta)
        .layoutSpanOverflow
      let shape ← Shape.new (layout.shape.dimensions.set axis (stop - start))
      new shape layout.strides offsetElements
  else .error (.axisOutOfBounds axis layout.shape.rank)

def reshape (layout : Layout) (requested : Shape) : Except TensorError Layout :=
  if requested.elementCount ≠ layout.shape.elementCount then
    .error (.elementCountMismatch layout.shape.elementCount requested.elementCount)
  else if requested = layout.shape then .ok layout
  else if ¬ layout.isContiguous then .error .nonContiguousReshape
  else do
    let strides ← Strides.contiguous requested
    new requested strides layout.offsetElements

def transpose (layout : Layout) (first second : Nat) : Except TensorError Layout :=
  let rank := layout.shape.rank
  if first ≥ rank then .error (.axisOutOfBounds first rank)
  else if second ≥ rank then .error (.axisOutOfBounds second rank)
  else do
    let shape ← Shape.new (swap layout.shape.dimensions first second)
    new shape ⟨swap layout.strides.elements first second⟩ layout.offsetElements

end Layout

/-- Whether so many bytes hold all that a layout reaches. -/
def validateStorage (byteLen : Nat) (dtype : DType) (layout : Layout) :
    Except TensorError Unit := do
  let (_, required) ← layout.storageByteRange dtype
  if required > byteLen then .error (.bufferTooSmall required byteLen)
  else do
    let _ ← layout.logicalByteLen dtype
    .ok ()

end Layouts

end Riley.Tensor
