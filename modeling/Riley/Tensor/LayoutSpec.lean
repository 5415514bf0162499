import Mathlib.Data.List.Sort
import Riley.Library.Outcome
import Riley.Tensor.Layout

/-!
Where the elements of a layout lie. An index is placed by the strides, from the offset on
and before the span end; every operation places an index of its result where the layout it
came from places the index that is meant.
-/

namespace Riley.Tensor

open MixedRadix
open Outcome
open Striding (Canonical place place_cons reach Separated swap weights)

theorem orOverflow_eq_ok {value : Option Nat} {error : TensorError} {result : Nat} :
    orOverflow value error = .ok result ↔ value = some result := by
  unfold orOverflow
  cases value <;> simp

namespace Shape

theorem ext_dimensions {first second : Shape} (h : first.dimensions = second.dimensions) :
    first = second := by
  obtain ⟨dimensions, count, hcount, _⟩ := first
  obtain ⟨dimensions', count', hcount', _⟩ := second
  obtain rfl : dimensions = dimensions' := h
  obtain rfl : count = count' := hcount.trans hcount'.symm
  rfl

theorem dimensions_of_new {dimensions : List Nat} {shape : Shape}
    (h : new dimensions = .ok shape) : shape.dimensions = dimensions := by
  unfold new at h
  split at h
  · cases h
    rfl
  · split at h
    · cases h
      rfl
    · cases h

/-- A shape is refused only for its product. -/
theorem new_of_prod {dimensions : List Nat} (h : dimensions.prod ≤ usizeMax) :
    new dimensions = .ok ⟨dimensions, dimensions.prod, rfl, h⟩ := by
  have hsome : ∃ shape, new dimensions = .ok shape := by
    unfold new
    split
    · exact ⟨_, rfl⟩
    · next hzero =>
        have hpos : ∀ dimension ∈ dimensions, 0 < dimension := fun dimension hmem =>
          Nat.pos_of_ne_zero fun heq => hzero (heq ▸ hmem)
        have hproduct : checkedProduct 1 dimensions = some dimensions.prod := by
          rw [checkedProduct_eq hpos (by decide), Nat.one_mul, if_pos h]
        split
        · exact ⟨_, rfl⟩
        · next hnone =>
            rw [hproduct] at hnone
            cases hnone
  obtain ⟨shape, hshape⟩ := hsome
  rw [hshape]
  exact congrArg Except.ok (ext_dimensions (dimensions_of_new hshape))

theorem isEmpty_iff (shape : Shape) : shape.isEmpty = true ↔ 0 ∈ shape.dimensions := by
  rw [isEmpty, beq_iff_eq, shape.elementCount_eq, List.prod_eq_zero_iff]

theorem pos_of_not_empty {shape : Shape} (h : shape.isEmpty = false) :
    ∀ dimension ∈ shape.dimensions, 0 < dimension := by
  intro dimension hmem
  apply Nat.pos_of_ne_zero
  rintro rfl
  rw [(isEmpty_iff shape).mpr hmem] at h
  cases h

/-- An index exists only where no extent is zero. -/
theorem not_empty_of_digits {shape : Shape} {index : List Nat}
    (h : Digits shape.dimensions index) : shape.isEmpty = false := by
  rw [← Bool.not_eq_true, isEmpty_iff]
  intro hzero
  obtain ⟨place, hplace⟩ := List.mem_iff_getElem?.mp hzero
  obtain ⟨hlength, hall⟩ := digits_iff.mp h
  have hlt : place < index.length := by
    rw [← hlength]
    exact (List.getElem?_eq_some_iff.mp hplace).1
  exact absurd (hall place 0 _ hplace (List.getElem?_eq_getElem hlt)) (Nat.not_lt_zero _)

end Shape

section Spans

theorem lastOffset_of_le {offset : Nat} {extents strides : List Nat}
    (h : offset + reach extents strides ≤ usizeMax) :
    lastOffset offset (extents.zip strides) = .ok (offset + reach extents strides) := by
  induction extents generalizing offset strides with
  | nil => rfl
  | cons extent extents ih =>
      cases strides with
      | nil => rfl
      | cons stride strides =>
          rw [reach] at h
          have haxis : checkedMul usizeMax (extent - 1) stride = some ((extent - 1) * stride) :=
            checkedMul_eq_some.mpr ⟨rfl, by omega⟩
          have hoffset : checkedAdd usizeMax offset ((extent - 1) * stride) =
              some (offset + (extent - 1) * stride) :=
            checkedAdd_eq_some.mpr ⟨rfl, by omega⟩
          have hrest := @ih (offset + (extent - 1) * stride) strides (by omega)
          rw [List.zip_cons_cons, lastOffset, haxis, reach, ← Nat.add_assoc, ← hrest]
          simp only [orOverflow, bind, Except.bind, hoffset]

theorem lastOffset_eq_ok {offset last : Nat} {extents strides : List Nat}
    (h : lastOffset offset (extents.zip strides) = .ok last) :
    last = offset + reach extents strides := by
  induction extents generalizing offset strides with
  | nil =>
      cases h
      rfl
  | cons extent extents ih =>
      cases strides with
      | nil =>
          cases h
          rfl
      | cons stride strides =>
          rw [List.zip_cons_cons, lastOffset] at h
          obtain ⟨_, haxis, h⟩ := except_bind_eq_ok.mp h
          obtain ⟨_, hoffset, h⟩ := except_bind_eq_ok.mp h
          obtain ⟨rfl, _⟩ := checkedMul_eq_some.mp (orOverflow_eq_ok.mp haxis)
          obtain ⟨rfl, _⟩ := checkedAdd_eq_some.mp (orOverflow_eq_ok.mp hoffset)
          rw [ih h, reach, Nat.add_assoc]

/-- Where the elements end. -/
theorem storageSpanEnd_eq_ok {shape : Shape} {strides : Strides} {offset stop : Nat} :
    storageSpanEnd shape strides offset = .ok stop ↔
      if shape.isEmpty then stop = offset
      else stop = offset + reach shape.dimensions strides.elements + 1 ∧ stop ≤ usizeMax := by
  unfold storageSpanEnd
  cases shape.isEmpty with
  | true =>
      simp only [if_true, Except.ok.injEq]
      exact eq_comm
  | false =>
      simp only [Bool.false_eq_true, if_false]
      constructor
      · intro h
        obtain ⟨last, hlast, h⟩ := except_bind_eq_ok.mp h
        obtain ⟨rfl, hle⟩ := checkedAdd_eq_some.mp (orOverflow_eq_ok.mp h)
        rw [lastOffset_eq_ok hlast] at hle ⊢
        exact ⟨rfl, hle⟩
      · rintro ⟨rfl, hle⟩
        rw [lastOffset_of_le (by omega)]
        exact orOverflow_eq_ok.mpr (checkedAdd_eq_some.mpr ⟨rfl, hle⟩)

end Spans

namespace Layout

/-- Where the element of an index lies. -/
def address (layout : Layout) (index : List Nat) : Nat :=
  layout.offsetElements + place layout.strides.elements index

/-- An index below the extents. -/
abbrev InBounds (layout : Layout) (index : List Nat) : Prop :=
  Digits layout.shape.dimensions index

theorem rank_length (layout : Layout) :
    layout.shape.dimensions.length = layout.strides.elements.length := layout.rank_eq

section Addresses

theorem spanEnd_of_empty {layout : Layout} (h : layout.shape.isEmpty = true) :
    layout.spanEndElements = layout.offsetElements := by
  have hspan := storageSpanEnd_eq_ok.mp layout.span_eq
  rwa [if_pos h] at hspan

theorem spanEnd_of_not_empty {layout : Layout} (h : layout.shape.isEmpty = false) :
    layout.spanEndElements =
        layout.offsetElements + reach layout.shape.dimensions layout.strides.elements + 1 ∧
      layout.spanEndElements ≤ usizeMax := by
  have hspan := storageSpanEnd_eq_ok.mp layout.span_eq
  rwa [if_neg (by rw [h]; decide)] at hspan

theorem address_bounds {layout : Layout} {index : List Nat} (h : layout.InBounds index) :
    layout.offsetElements ≤ layout.address index ∧
      layout.address index < layout.spanEndElements ∧ layout.spanEndElements ≤ usizeMax := by
  have hplace := Striding.place_le_reach h layout.rank_length
  obtain ⟨hspan, hle⟩ := spanEnd_of_not_empty (Shape.not_empty_of_digits h)
  refine ⟨Nat.le_add_right _ _, ?_, hle⟩
  rw [address, hspan]
  omega

/-- The place of an index, added up with checked operations. -/
def checkedPlace : Nat → List Nat → List Nat → Option Nat
  | offset, stride :: strides, digit :: index => do
      let axisOffset ← checkedMul usizeMax digit stride
      let offset ← checkedAdd usizeMax offset axisOffset
      checkedPlace offset strides index
  | offset, _, _ => some offset

theorem checkedPlace_of_le {offset : Nat} {strides index : List Nat}
    (h : offset + place strides index ≤ usizeMax) :
    checkedPlace offset strides index = some (offset + place strides index) := by
  induction strides generalizing offset index with
  | nil => cases index <;> rfl
  | cons stride strides ih =>
      cases index with
      | nil => rfl
      | cons digit index =>
          rw [place_cons] at h
          have haxis : checkedMul usizeMax digit stride = some (digit * stride) :=
            checkedMul_eq_some.mpr ⟨rfl, by omega⟩
          have hoffset : checkedAdd usizeMax offset (digit * stride) =
              some (offset + digit * stride) :=
            checkedAdd_eq_some.mpr ⟨rfl, by omega⟩
          have hrest := @ih (offset + digit * stride) index (by omega)
          simp only [checkedPlace, haxis, hoffset, Option.bind_eq_bind, Option.bind_some, hrest,
            place_cons, Nat.add_assoc]

end Addresses

section Contiguity

/-- The check from the innermost axis out, over axes that are then followed by others. -/
theorem contiguousFrom_append {inner outer : List (Nat × Nat)} {expected : Nat}
    (hpos : ∀ axis ∈ inner, 0 < axis.1)
    (hfits : expected * (inner.map (·.1)).prod ≤ usizeMax) :
    contiguousFrom expected (inner ++ outer) =
      (contiguousFrom expected inner &&
        contiguousFrom (expected * (inner.map (·.1)).prod) outer) := by
  induction inner generalizing expected with
  | nil => simp [contiguousFrom]
  | cons axis inner ih =>
      obtain ⟨extent, stride⟩ := axis
      have htail : ∀ other ∈ inner, 0 < other.1 := fun other hmem =>
        hpos other (List.mem_cons_of_mem _ hmem)
      have hinner : 0 < (inner.map (·.1)).prod := by
        apply CanonicallyOrderedAdd.list_prod_pos.mpr
        intro extent hmem
        obtain ⟨other, hother, rfl⟩ := List.mem_map.mp hmem
        exact htail other hother
      rw [List.map_cons, List.prod_cons, ← Nat.mul_assoc] at hfits ⊢
      have hnext : expected * extent ≤ usizeMax :=
        Nat.le_trans (Nat.le_mul_of_pos_right _ hinner) hfits
      have hmul : checkedMul usizeMax expected extent = some (expected * extent) :=
        checkedMul_eq_some.mpr ⟨rfl, hnext⟩
      by_cases hwrong : 1 < extent ∧ stride ≠ expected
      · simp [contiguousFrom, hwrong]
      · simp only [List.cons_append, contiguousFrom, if_neg hwrong, hmul]
        exact ih htail hfits

theorem contiguousFrom_iff {extents strides : List Nat}
    (hpos : ∀ extent ∈ extents, 0 < extent) (hfits : extents.prod ≤ usizeMax)
    (hrank : extents.length = strides.length) :
    contiguousFrom 1 (extents.zip strides).reverse = true ↔ Canonical extents strides := by
  induction extents generalizing strides with
  | nil => simp [contiguousFrom, Canonical]
  | cons extent extents ih =>
      cases strides with
      | nil => cases hrank
      | cons stride strides =>
          have htail : ∀ other ∈ extents, 0 < other := fun other hmem =>
            hpos other (List.mem_cons_of_mem _ hmem)
          have hextent := hpos extent List.mem_cons_self
          rw [List.prod_cons] at hfits
          have hinner : extents.prod ≤ usizeMax :=
            Nat.le_trans (Nat.le_mul_of_pos_left _ hextent) hfits
          have hextents : ((extents.zip strides).reverse.map (·.1)).prod = extents.prod := by
            rw [List.map_reverse, List.map_fst_zip (Nat.le_of_eq (Nat.succ.inj hrank)),
              List.prod_reverse]
          have houter : 1 * ((extents.zip strides).reverse.map (·.1)).prod ≤ usizeMax := by
            rwa [hextents, Nat.one_mul]
          have haxes : ∀ axis ∈ (extents.zip strides).reverse, 0 < axis.1 := by
            intro axis hmem
            exact htail axis.1 (List.of_mem_zip (List.mem_reverse.mp hmem)).1
          have hmul : checkedMul usizeMax extents.prod extent = some (extents.prod * extent) :=
            checkedMul_eq_some.mpr ⟨rfl, by rwa [Nat.mul_comm]⟩
          rw [List.zip_cons_cons, List.reverse_cons, contiguousFrom_append haxes houter,
            Bool.and_eq_true, ih htail hinner (Nat.succ.inj hrank), hextents, Nat.one_mul]
          simp only [contiguousFrom, hmul, Canonical]
          by_cases hwide : 1 < extent
          · simp [hwide, and_comm]
          · simp [hwide]

theorem isContiguous_of_empty {layout : Layout} (h : layout.shape.isEmpty = true) :
    layout.isContiguous = true := by
  rw [isContiguous, h, Bool.true_or]

theorem isContiguous_iff_canonical {layout : Layout} (h : layout.shape.isEmpty = false) :
    layout.isContiguous = true ↔
      Canonical layout.shape.dimensions layout.strides.elements := by
  have hfits : layout.shape.dimensions.prod ≤ usizeMax := by
    rw [← layout.shape.elementCount_eq]
    exact layout.shape.elementCount_le
  rw [isContiguous, h, Bool.false_or,
    contiguousFrom_iff (Shape.pos_of_not_empty h) hfits layout.rank_length]

/-- The addresses of all elements, in row-major order. -/
def rowMajor (layout : Layout) : List Nat :=
  (sequences layout.shape.dimensions).map layout.address

/-- Each number follows the one before. -/
def Consecutive (values : List Nat) : Prop :=
  ∀ (place value next : Nat), values[place]? = some value → values[place + 1]? = some next →
    next = value + 1

theorem getElem?_of_consecutive {values : List Nat} (h : Consecutive values) {first : Nat}
    (hfirst : values[0]? = some first) {place : Nat} (hplace : place < values.length) :
    values[place]? = some (first + place) := by
  induction place with
  | zero => exact hfirst
  | succ place ih =>
      have hbefore := ih (by omega)
      have hnext := h place _ _ hbefore (List.getElem?_eq_getElem hplace)
      rw [List.getElem?_eq_getElem hplace, hnext, Nat.add_assoc]

/-- A contiguous layout is one whose elements follow each other in storage. -/
theorem isContiguous_iff (layout : Layout) :
    layout.isContiguous = true ↔ Consecutive layout.rowMajor := by
  cases hempty : layout.shape.isEmpty with
  | true =>
      have hnone : layout.rowMajor = [] := by
        rw [rowMajor, List.map_eq_nil_iff, ← List.length_eq_zero_iff, length_sequences,
          List.prod_eq_zero_iff, ← Shape.isEmpty_iff]
        exact hempty
      rw [hnone]
      exact iff_of_true (isContiguous_of_empty hempty) (by simp [Consecutive])
  | false =>
      have hpos := Shape.pos_of_not_empty hempty
      rw [isContiguous_iff_canonical hempty, Striding.canonical_iff hpos layout.rank_length]
      constructor
      · intro hplace step value next hvalue hnext
        have haddresses : layout.rowMajor =
            (List.range layout.shape.dimensions.prod).map (layout.offsetElements + ·) := by
          rw [rowMajor, ← map_number_sequences, List.map_map]
          apply List.map_congr_left
          intro index hindex
          rw [address, hplace index (mem_sequences.mp hindex)]
          rfl
        rw [haddresses, List.getElem?_map, Option.map_eq_some_iff] at hvalue hnext
        obtain ⟨number, hnumber, rfl⟩ := hvalue
        obtain ⟨number', hnumber', rfl⟩ := hnext
        obtain ⟨_, rfl⟩ := List.getElem?_eq_some_iff.mp hnumber
        obtain ⟨_, rfl⟩ := List.getElem?_eq_some_iff.mp hnumber'
        simp [Nat.add_assoc]
      · intro hconsecutive index hindex
        have hzeros := Striding.digits_zeros hpos
        have haddress : ∀ index, Digits layout.shape.dimensions index →
            layout.rowMajor[number layout.shape.dimensions index]? =
              some (layout.address index) := by
          intro index hindex
          rw [rowMajor, List.getElem?_map, getElem?_sequences hindex, Option.map_some]
        have hfirst := haddress _ hzeros
        rw [Striding.number_zeros, address, Striding.place_zeros, Nat.add_zero] at hfirst
        have hin : number layout.shape.dimensions index < layout.rowMajor.length := by
          rw [rowMajor, List.length_map, length_sequences]
          exact number_lt hindex
        have hplace := getElem?_of_consecutive hconsecutive hfirst hin
        rw [haddress index hindex, address] at hplace
        have := Option.some.inj hplace
        omega

end Contiguity

section Overlaps

theorem separated_of_separatedFrom {required : Nat} {axes : List (Nat × Nat)}
    (h : separatedFrom required axes = true) : Separated required axes := by
  induction axes generalizing required with
  | nil => trivial
  | cons axis axes ih =>
      obtain ⟨stride, extent⟩ := axis
      rw [separatedFrom] at h
      split at h
      · cases h
      · next hlarge =>
          split at h
          · next outer hmul =>
              obtain ⟨rfl, _⟩ := checkedMul_eq_some.mp hmul
              exact ⟨Nat.not_lt.mp hlarge, ih h⟩
          · cases h

/-- Where the check passes, different indices lie at different addresses. -/
theorem address_injective {layout : Layout} (h : layout.isNonOverlapping = true)
    {first second : List Nat} (hfirst : layout.InBounds first) (hsecond : layout.InBounds second)
    (heq : layout.address first = layout.address second) : first = second := by
  rw [isNonOverlapping, Bool.or_eq_true, decide_eq_true_iff] at h
  rcases h with hfew | hseparated
  · have hnumber : ∀ index, layout.InBounds index →
        number layout.shape.dimensions index = 0 := by
      intro index hindex
      have hlt := number_lt hindex
      rw [← layout.shape.elementCount_eq] at hlt
      omega
    exact number_injective hfirst hsecond ((hnumber _ hfirst).trans (hnumber _ hsecond).symm)
  · exact Striding.place_injective layout.rank_length (List.mergeSort_perm _ _)
      (separated_of_separatedFrom hseparated) hfirst hsecond (Nat.add_left_cancel heq)

end Overlaps

section Operations

theorem new_eq_ok {shape : Shape} {strides : Strides} {offset : Nat} {layout : Layout}
    (h : new shape strides offset = .ok layout) :
    layout.shape = shape ∧ layout.strides = strides ∧ layout.offsetElements = offset := by
  unfold new at h
  split at h
  · cases h
  · split at h
    · cases h
      exact ⟨rfl, rfl, rfl⟩
    · cases h

/-- A layout is refused only for its rank or its span. -/
theorem new_of_span {shape : Shape} {strides : Strides} {offset stop : Nat}
    (hrank : shape.rank = strides.rank) (hspan : storageSpanEnd shape strides offset = .ok stop) :
    new shape strides offset = .ok ⟨shape, strides, offset, stop, hrank, hspan⟩ := by
  unfold new
  rw [dif_neg (not_not.mpr hrank)]
  split
  · next stop' hstop =>
      obtain rfl : stop = stop' := Except.ok.inj (hspan.symm.trans hstop)
      rfl
  · next error herror =>
      rw [hspan] at herror
      cases herror

/-- Every layout is one that is made of its own parts. -/
theorem new_self (layout : Layout) :
    new layout.shape layout.strides layout.offsetElements = .ok layout :=
  new_of_span layout.rank_eq layout.span_eq

/-- What a slice is made of. -/
theorem slice_eq_ok {layout sliced : Layout} {axis start stop : Nat}
    (h : layout.slice axis start stop = .ok sliced) :
    ∃ extent stride, layout.shape.dimensions[axis]? = some extent ∧
      layout.strides.elements[axis]? = some stride ∧ start ≤ stop ∧ stop ≤ extent ∧
      sliced.shape.dimensions = layout.shape.dimensions.set axis (stop - start) ∧
      sliced.strides = layout.strides ∧
      sliced.offsetElements = layout.offsetElements + start * stride := by
  unfold slice at h
  split at h
  · next haxis =>
      dsimp only at h
      split at h
      · cases h
      · next hrange =>
          rw [not_or, Nat.not_lt, Nat.not_lt] at hrange
          obtain ⟨delta, hdelta, h⟩ := except_bind_eq_ok.mp h
          obtain ⟨offset, hoffset, h⟩ := except_bind_eq_ok.mp h
          obtain ⟨shape, hshape, h⟩ := except_bind_eq_ok.mp h
          obtain ⟨rfl, _⟩ := checkedMul_eq_some.mp (orOverflow_eq_ok.mp hdelta)
          obtain ⟨rfl, _⟩ := checkedAdd_eq_some.mp (orOverflow_eq_ok.mp hoffset)
          obtain ⟨hsliced, hstrides, hoffsetEq⟩ := new_eq_ok h
          refine ⟨_, _, List.getElem?_eq_getElem haxis,
            List.getElem?_eq_getElem (Nat.lt_of_lt_of_eq haxis layout.rank_eq), hrange.1, hrange.2,
            ?_, hstrides, hoffsetEq⟩
          rw [hsliced, Shape.dimensions_of_new hshape]
  · cases h

theorem transpose_eq_ok {layout transposed : Layout} {first second : Nat}
    (h : layout.transpose first second = .ok transposed) :
    first < layout.shape.dimensions.length ∧ second < layout.shape.dimensions.length ∧
      transposed.shape.dimensions = swap layout.shape.dimensions first second ∧
      transposed.strides.elements = swap layout.strides.elements first second ∧
      transposed.offsetElements = layout.offsetElements := by
  unfold transpose at h
  dsimp only at h
  split at h
  · cases h
  · next hfirst =>
      split at h
      · cases h
      · next hsecond =>
          obtain ⟨shape, hshape, h⟩ := except_bind_eq_ok.mp h
          obtain ⟨htransposed, hstrides, hoffset⟩ := new_eq_ok h
          refine ⟨Nat.not_le.mp hfirst, Nat.not_le.mp hsecond, ?_, ?_, hoffset⟩
          · rw [htransposed, Shape.dimensions_of_new hshape]
          · rw [hstrides]

theorem contiguousElements_of_le {dimensions : List Nat}
    (hpos : ∀ dimension ∈ dimensions, 0 < dimension) (h : dimensions.prod ≤ usizeMax) :
    contiguousElements dimensions = .ok (weights dimensions, dimensions.prod) := by
  induction dimensions with
  | nil => rfl
  | cons extent dimensions ih =>
      have htail : ∀ other ∈ dimensions, 0 < other := fun other hmem =>
        hpos other (List.mem_cons_of_mem _ hmem)
      rw [List.prod_cons] at h
      have hinner : dimensions.prod ≤ usizeMax :=
        Nat.le_trans (Nat.le_mul_of_pos_left _ (hpos extent List.mem_cons_self)) h
      have hmul : checkedMul usizeMax dimensions.prod extent = some (extent * dimensions.prod) :=
        checkedMul_eq_some.mpr ⟨Nat.mul_comm _ _, by rwa [Nat.mul_comm]⟩
      rw [contiguousElements, ih htail hinner]
      simp only [bind, Except.bind, hmul, orOverflow, weights, List.prod_cons]

/-- The canonical strides of a shape always exist. -/
theorem contiguous_strides (shape : Shape) :
    Strides.contiguous shape =
      .ok ⟨if shape.isEmpty then List.replicate shape.rank 0 else weights shape.dimensions⟩ := by
  unfold Strides.contiguous
  cases hempty : shape.isEmpty with
  | true => rfl
  | false =>
      have hfits : shape.dimensions.prod ≤ usizeMax := by
        rw [← shape.elementCount_eq]
        exact shape.elementCount_le
      rw [contiguousElements_of_le (Shape.pos_of_not_empty hempty) hfits]
      rfl

/-- What a reshape is made of. -/
theorem reshape_eq_ok {layout reshaped : Layout} {requested : Shape}
    (h : layout.reshape requested = .ok reshaped) :
    requested.elementCount = layout.shape.elementCount ∧
      (requested = layout.shape ∧ reshaped = layout ∨
        layout.isContiguous = true ∧ reshaped.shape = requested ∧
          (requested.isEmpty = false → reshaped.strides.elements = weights requested.dimensions) ∧
          reshaped.offsetElements = layout.offsetElements) := by
  unfold reshape at h
  split at h
  · cases h
  next hcount =>
  refine ⟨not_not.mp hcount, ?_⟩
  split at h
  · next hsame =>
      cases h
      exact .inl ⟨hsame, rfl⟩
  split at h
  · cases h
  next hcontiguous =>
  rw [contiguous_strides] at h
  obtain ⟨hshape, hstrides, hoffset⟩ := new_eq_ok h
  refine .inr ⟨not_not.mp hcontiguous, hshape, fun hempty => ?_, hoffset⟩
  rw [hstrides, hempty]
  rfl

end Operations

end Layout

end Riley.Tensor
