import Riley.Tensor.LayoutSpec

/-!
Chains of slices, reshapes and transposes. An index of the last layout is traced back to
the first one, and addresses the element found there; a view that fits its storage keeps
fitting.
-/

namespace Riley.Tensor

open MixedRadix
open Outcome
open Striding (Canonical place reach swap weights)

/-- An operation on a layout. -/
inductive LayoutOp
  | slice (axis start stop : Nat)
  | reshape (requested : Shape)
  | transpose (first second : Nat)

/-- The extents that an operation prescribes for its result. -/
def LayoutOp.extents : LayoutOp → List Nat → List Nat
  | .slice axis start stop, extents => extents.set axis (stop - start)
  | .reshape requested, _ => requested.dimensions
  | .transpose first second, extents => swap extents first second

def LayoutOp.extentsAll (ops : List LayoutOp) (extents : List Nat) : List Nat :=
  ops.foldl (fun extents op => op.extents extents) extents

namespace Layout

section Tracing

def apply (layout : Layout) : LayoutOp → Except TensorError Layout
  | .slice axis start stop => layout.slice axis start stop
  | .reshape requested => layout.reshape requested
  | .transpose first second => layout.transpose first second

def applyAll (layout : Layout) : List LayoutOp → Except TensorError Layout
  | [] => .ok layout
  | op :: rest => do applyAll (← layout.apply op) rest

/-- The index that an index of the result stands for: a slice counts from its start, a
transpose changes two places, and a reshape keeps the row-major number. -/
def source (layout : Layout) : LayoutOp → List Nat → List Nat
  | .slice axis start _, index => index.modify axis (· + start)
  | .reshape requested, index =>
      digitsOf layout.shape.dimensions (number requested.dimensions index)
  | .transpose first second, index => swap index first second

def sourceAll (layout : Layout) : List LayoutOp → List Nat → List Nat
  | [], index => index
  | op :: rest, index =>
      match layout.apply op with
      | .ok next => layout.source op (sourceAll next rest index)
      | .error _ => index

/-- One operation makes a layout of the extents that it prescribes. -/
theorem dimensions_apply {layout result : Layout} {op : LayoutOp}
    (h : layout.apply op = .ok result) :
    result.shape.dimensions = op.extents layout.shape.dimensions := by
  cases op with
  | slice axis start stop =>
      obtain ⟨_, _, _, _, _, _, hdimensions, _⟩ := slice_eq_ok h
      exact hdimensions
  | transpose first second =>
      obtain ⟨_, _, hdimensions, _⟩ := transpose_eq_ok h
      exact hdimensions
  | reshape requested =>
      obtain ⟨_, ⟨rfl, rfl⟩ | ⟨_, rfl, _⟩⟩ := reshape_eq_ok h
      · rfl
      · rfl

theorem dimensions_applyAll {layout result : Layout} {ops : List LayoutOp}
    (h : layout.applyAll ops = .ok result) :
    result.shape.dimensions = LayoutOp.extentsAll ops layout.shape.dimensions := by
  induction ops generalizing layout with
  | nil =>
      cases h
      rfl
  | cons op rest ih =>
      obtain ⟨next, hnext, hrest⟩ := except_bind_eq_ok.mp h
      rw [ih hrest, dimensions_apply hnext]
      rfl

/-- One operation keeps the elements where they are. -/
theorem address_apply {layout result : Layout} {op : LayoutOp}
    (h : layout.apply op = .ok result) {index : List Nat} (hindex : result.InBounds index) :
    layout.InBounds (layout.source op index) ∧
      result.address index = layout.address (layout.source op index) := by
  cases op with
  | slice axis start stop =>
      obtain ⟨extent, stride, hextent, hstride, hle, hstop, hdimensions, hstrides, hoffset⟩ :=
        slice_eq_ok h
      have haxis : axis < layout.shape.dimensions.length :=
        (List.getElem?_eq_some_iff.mp hextent).1
      rw [InBounds, hdimensions] at hindex
      obtain ⟨hlength, hall⟩ := digits_iff.mp hindex
      rw [List.length_set] at hlength
      have hin : axis < index.length := by rwa [← hlength]
      constructor
      · refine digits_iff.mpr ⟨?_, ?_⟩
        · rw [source, List.length_modify, hlength]
        · intro place radix digit hradix hdigit
          rw [source, List.getElem?_modify] at hdigit
          by_cases hsame : axis = place
          · subst hsame
            simp only [if_true, Option.map_eq_map, Option.map_eq_some_iff] at hdigit
            obtain ⟨inner, hinner, rfl⟩ := hdigit
            have hlt := hall axis (stop - start) inner (List.getElem?_set_self haxis) hinner
            rw [hextent] at hradix
            cases hradix
            omega
          · simp only [hsame, if_false, Option.map_eq_map, Option.map_id_fun'] at hdigit
            exact hall place radix digit (by rwa [List.getElem?_set_ne hsame]) hdigit
      · rw [source, address, address, hstrides, hoffset, Striding.place_modify start hin hstride]
        omega
  | transpose first second =>
      obtain ⟨hfirst, hsecond, hdimensions, hstrides, hoffset⟩ := transpose_eq_ok h
      rw [InBounds, hdimensions] at hindex
      have hlength : layout.shape.dimensions.length = index.length := by
        rw [← hindex.length_eq, Striding.length_swap]
      have hrank := layout.rank_length
      refine ⟨Striding.digits_swap hindex hfirst hsecond, ?_⟩
      rw [source, address, address, hstrides, hoffset,
        Striding.place_swap (by omega) (by omega) (by omega)]
  | reshape requested =>
      obtain ⟨hcount, hsame | ⟨hcontiguous, hshape, hstrides, hoffset⟩⟩ := reshape_eq_ok h
      · obtain ⟨rfl, rfl⟩ := hsame
        rw [source, digitsOf_number hindex]
        exact ⟨hindex, rfl⟩
      · have hempty : requested.isEmpty = false := by
          rw [← hshape]
          exact Shape.not_empty_of_digits hindex
        have hcounts : requested.dimensions.prod = layout.shape.dimensions.prod := by
          rw [← requested.elementCount_eq, ← layout.shape.elementCount_eq, hcount]
        have hsourceEmpty : layout.shape.isEmpty = false := by
          rw [Shape.isEmpty, beq_eq_false_iff_ne] at hempty ⊢
          rwa [← hcount]
        rw [InBounds, hshape] at hindex
        have hlt := number_lt hindex
        rw [hcounts] at hlt
        refine ⟨digits_digitsOf hlt, ?_⟩
        have hcanonical := (isContiguous_iff_canonical hsourceEmpty).mp hcontiguous
        rw [source, address, address, hstrides hempty, hoffset,
          Striding.place_canonical (Striding.canonical_weights _) (by simp) hindex,
          Striding.place_canonical hcanonical layout.rank_length (digits_digitsOf hlt),
          number_digitsOf hlt]

/-- A chain keeps the elements where they are. -/
theorem address_applyAll {layout result : Layout} {ops : List LayoutOp}
    (h : layout.applyAll ops = .ok result) {index : List Nat} (hindex : result.InBounds index) :
    layout.InBounds (layout.sourceAll ops index) ∧
      result.address index = layout.address (layout.sourceAll ops index) := by
  induction ops generalizing layout with
  | nil =>
      cases h
      exact ⟨hindex, rfl⟩
  | cons op rest ih =>
      obtain ⟨next, hnext, hrest⟩ := except_bind_eq_ok.mp h
      obtain ⟨hbounds, haddress⟩ := ih hrest
      obtain ⟨hbounds', haddress'⟩ := address_apply hnext hbounds
      rw [sourceAll, hnext]
      exact ⟨hbounds', haddress.trans haddress'⟩

end Tracing

section Success

variable {layout : Layout}

/-- A transpose fails for an absent axis only. -/
theorem transpose_ok {first second : Nat} (hfirst : first < layout.shape.rank)
    (hsecond : second < layout.shape.rank) :
    ∃ transposed, layout.transpose first second = .ok transposed ∧
      transposed.shape.elementCount = layout.shape.elementCount ∧
      transposed.offsetElements = layout.offsetElements ∧
      transposed.spanEndElements = layout.spanEndElements := by
  have hproduct : (swap layout.shape.dimensions first second).prod =
      layout.shape.elementCount := by
    rw [(Striding.swap_perm _ first second).prod_eq, layout.shape.elementCount_eq]
  have hfits : (swap layout.shape.dimensions first second).prod ≤ usizeMax := by
    rw [hproduct]
    exact layout.shape.elementCount_le
  have hreach := Striding.reach_swap layout.rank_length hfirst hsecond
  have hempty : (⟨_, _, rfl, hfits⟩ : Shape).isEmpty = layout.shape.isEmpty := by
    simp only [Shape.isEmpty, hproduct]
  have hspan : storageSpanEnd ⟨_, _, rfl, hfits⟩
      ⟨swap layout.strides.elements first second⟩ layout.offsetElements =
        .ok layout.spanEndElements := by
    have hown := storageSpanEnd_eq_ok.mp layout.span_eq
    rw [storageSpanEnd_eq_ok, hempty]
    simpa only [hreach] using hown
  have hrank : (⟨_, _, rfl, hfits⟩ : Shape).rank =
      (⟨swap layout.strides.elements first second⟩ : Strides).rank := by
    simp only [Shape.rank, Strides.rank, Striding.length_swap, layout.rank_length]
  refine ⟨⟨_, _, _, _, hrank, hspan⟩, ?_, hproduct, rfl, rfl⟩
  simp only [transpose, ge_iff_le, Nat.not_le.mpr hfirst, Nat.not_le.mpr hsecond, if_false,
    Shape.new_of_prod hfits]
  exact new_of_span hrank hspan

/-- A slice that keeps an element fails for nothing but its range. -/
theorem slice_ok {axis start stop extent : Nat}
    (hextent : layout.shape.dimensions[axis]? = some extent) (hstart : start < stop)
    (hstop : stop ≤ extent) (hempty : layout.shape.isEmpty = false) :
    ∃ sliced, layout.slice axis start stop = .ok sliced ∧
      sliced.shape.elementCount ≤ layout.shape.elementCount ∧
      sliced.spanEndElements ≤ layout.spanEndElements := by
  have haxis : axis < layout.shape.dimensions.length :=
    (List.getElem?_eq_some_iff.mp hextent).1
  have haxis' : axis < layout.strides.elements.length := by rwa [← layout.rank_length]
  have hget : layout.shape.dimensions[axis] = extent :=
    (List.getElem?_eq_some_iff.mp hextent).2
  obtain ⟨hspan, hle⟩ := spanEnd_of_not_empty hempty
  have hreach := Striding.reach_set hextent (List.getElem?_eq_getElem haxis')
    (show 0 < stop - start by omega) (show start + (stop - start) ≤ extent by omega)
  have hproduct : (layout.shape.dimensions.set axis (stop - start)).prod ≤
      layout.shape.elementCount := by
    rw [layout.shape.elementCount_eq]
    exact Striding.prod_set_le hextent (by omega)
  have hfits := Nat.le_trans hproduct layout.shape.elementCount_le
  have hdelta : checkedMul usizeMax start layout.strides.elements[axis] =
      some (start * layout.strides.elements[axis]) :=
    checkedMul_eq_some.mpr ⟨rfl, by omega⟩
  have hoffset : checkedAdd usizeMax layout.offsetElements
      (start * layout.strides.elements[axis]) =
        some (layout.offsetElements + start * layout.strides.elements[axis]) :=
    checkedAdd_eq_some.mpr ⟨rfl, by omega⟩
  have hslicedEmpty :
      (⟨layout.shape.dimensions.set axis (stop - start), _, rfl, hfits⟩ : Shape).isEmpty =
        false := by
    rw [← Bool.not_eq_true, Shape.isEmpty_iff]
    intro hzero
    rcases List.mem_or_eq_of_mem_set hzero with hmem | heq
    · exact absurd (Shape.pos_of_not_empty hempty 0 hmem) (Nat.lt_irrefl 0)
    · omega
  have hslicedSpan := (@storageSpanEnd_eq_ok
    ⟨layout.shape.dimensions.set axis (stop - start), _, rfl, hfits⟩ layout.strides
      (layout.offsetElements + start * layout.strides.elements[axis]) _).mpr
    (by rw [if_neg (by simp [hslicedEmpty])]; exact ⟨rfl, by dsimp only; omega⟩)
  have hrank : (⟨layout.shape.dimensions.set axis (stop - start), _, rfl, hfits⟩ : Shape).rank =
      layout.strides.rank := by
    simp only [Shape.rank, List.length_set, Strides.rank, layout.rank_length]
  refine ⟨⟨_, _, _, _, hrank, hslicedSpan⟩, ?_, hproduct, by dsimp only; omega⟩
  have hrange : ¬ (start > stop ∨ stop > extent) := by omega
  simp only [slice, haxis, dif_pos, List.get_eq_getElem, hget, hrange, if_false, hdelta,
    orOverflow, bind, Except.bind, hoffset, Shape.new_of_prod hfits]
  exact new_of_span hrank hslicedSpan

/-- A reshape of a layout without gaps fails for its count only. -/
theorem reshape_ok {requested : Shape}
    (hcount : requested.elementCount = layout.shape.elementCount)
    (hcontiguous : layout.isContiguous = true) :
    ∃ reshaped, layout.reshape requested = .ok reshaped ∧
      reshaped.spanEndElements = layout.spanEndElements := by
  unfold reshape
  rw [if_neg (not_not.mpr hcount)]
  by_cases hsame : requested = layout.shape
  · rw [if_pos hsame]
    exact ⟨layout, rfl, rfl⟩
  rw [if_neg hsame, if_neg (not_not.mpr hcontiguous), contiguous_strides]
  have hemptyEq : requested.isEmpty = layout.shape.isEmpty := by
    rw [Shape.isEmpty, Shape.isEmpty, hcount]
  have hspan : storageSpanEnd requested
      ⟨if requested.isEmpty then List.replicate requested.rank 0
        else weights requested.dimensions⟩ layout.offsetElements =
          .ok layout.spanEndElements := by
    rw [storageSpanEnd_eq_ok]
    cases hempty : layout.shape.isEmpty with
    | true =>
        rw [hemptyEq, if_pos hempty]
        exact spanEnd_of_empty hempty
    | false =>
        have hrequested := hemptyEq.trans hempty
        obtain ⟨hspan, hle⟩ := spanEnd_of_not_empty hempty
        have hreach := Striding.reach_canonical ((isContiguous_iff_canonical hempty).mp hcontiguous)
          (Shape.pos_of_not_empty hempty) layout.rank_length
        have hreach' := Striding.reach_canonical (Striding.canonical_weights requested.dimensions)
          (Shape.pos_of_not_empty hrequested) (by simp)
        rw [← requested.elementCount_eq, hcount] at hreach'
        rw [← layout.shape.elementCount_eq] at hreach
        rw [hrequested]
        simp only [Bool.false_eq_true, if_false]
        omega
  have hrank : requested.rank =
      (⟨if requested.isEmpty then List.replicate requested.rank 0
        else weights requested.dimensions⟩ : Strides).rank := by
    unfold Strides.rank
    split <;> simp [Shape.rank]
  exact ⟨_, new_of_span hrank hspan, rfl⟩

end Success

section Storage

theorem validateStorage_iff {byteLen : Nat} {dtype : DType} {layout : Layout} :
    validateStorage byteLen dtype layout = .ok () ↔
      layout.offsetElements * dtype.sizeBytes ≤ u64Max ∧
        layout.spanEndElements * dtype.sizeBytes ≤ u64Max ∧
        layout.spanEndElements * dtype.sizeBytes ≤ byteLen ∧
        layout.shape.elementCount * dtype.sizeBytes ≤ u64Max := by
  have hmul : ∀ {count : Nat} {error : TensorError} {value : Nat},
      orOverflow (checkedMul u64Max count dtype.sizeBytes) error = .ok value ↔
        count * dtype.sizeBytes = value ∧ count * dtype.sizeBytes ≤ u64Max :=
    orOverflow_eq_ok.trans checkedMul_eq_some
  constructor
  · intro h
    obtain ⟨⟨start, stop⟩, hrange, h⟩ := except_bind_eq_ok.mp h
    obtain ⟨start', hstart, hrange⟩ := except_bind_eq_ok.mp hrange
    obtain ⟨stop', hstop, hrange⟩ := except_bind_eq_ok.mp hrange
    cases hrange
    obtain ⟨rfl, hstartFits⟩ := hmul.mp hstart
    obtain ⟨rfl, hstopFits⟩ := hmul.mp hstop
    dsimp only at h
    split at h
    · cases h
    · next hfits =>
        obtain ⟨length, hlength, _⟩ := except_bind_eq_ok.mp h
        obtain ⟨rfl, hlengthFits⟩ := hmul.mp hlength
        exact ⟨hstartFits, hstopFits, Nat.not_lt.mp hfits, hlengthFits⟩
  · rintro ⟨hstart, hstop, hfits, hlength⟩
    have hrange : layout.storageByteRange dtype =
        .ok (layout.offsetElements * dtype.sizeBytes, layout.spanEndElements * dtype.sizeBytes) := by
      simp only [storageByteRange, hmul.mpr ⟨rfl, hstart⟩, hmul.mpr ⟨rfl, hstop⟩, bind, Except.bind]
    have hlogical : layout.logicalByteLen dtype =
        .ok (layout.shape.elementCount * dtype.sizeBytes) := hmul.mpr ⟨rfl, hlength⟩
    simp only [validateStorage, hrange, hlogical, bind, Except.bind, gt_iff_lt,
      Nat.not_lt.mpr hfits, if_false]

/-- A view that keeps to the span of another, with no more elements, fits where it fits. -/
theorem validateStorage_of_le {layout view : Layout} {byteLen : Nat} {dtype : DType}
    (h : validateStorage byteLen dtype layout = .ok ())
    (hoffset : view.offsetElements ≤ view.spanEndElements)
    (hspan : view.spanEndElements ≤ layout.spanEndElements)
    (hcount : view.shape.elementCount ≤ layout.shape.elementCount) :
    validateStorage byteLen dtype view = .ok () := by
  obtain ⟨_, hstop, hfits, hlength⟩ := validateStorage_iff.mp h
  have hspanBytes := Nat.mul_le_mul_right dtype.sizeBytes hspan
  have hoffsetBytes := Nat.mul_le_mul_right dtype.sizeBytes hoffset
  have hcountBytes := Nat.mul_le_mul_right dtype.sizeBytes hcount
  exact validateStorage_iff.mpr ⟨by omega, by omega, by omega, by omega⟩

theorem offset_le_spanEnd (layout : Layout) :
    layout.offsetElements ≤ layout.spanEndElements := by
  cases hempty : layout.shape.isEmpty with
  | true => rw [spanEnd_of_empty hempty]
  | false =>
      obtain ⟨hspan, _⟩ := spanEnd_of_not_empty hempty
      omega

/-- The bytes of every element are in the storage that a view is valid for. -/
theorem element_bytes_le {layout : Layout} {byteLen : Nat} {dtype : DType}
    (h : validateStorage byteLen dtype layout = .ok ()) {index : List Nat}
    (hindex : layout.InBounds index) :
    (layout.address index + 1) * dtype.sizeBytes ≤ byteLen := by
  obtain ⟨_, _, hfits, _⟩ := validateStorage_iff.mp h
  exact Nat.le_trans (Nat.mul_le_mul_right _ (address_bounds hindex).2.1) hfits

end Storage

section Chains

/-- A layout that a chain of operations makes has the extents that the operations prescribe,
and addresses the elements of the first one, in checked steps between its offset and its
span end. Its two predicates say how the addresses lie, and a slice with an element, a
transpose and a reshape of it do not overflow and stay valid for every storage that it is
valid for. -/
theorem chain_spec {layout result : Layout} {ops : List LayoutOp}
    (h : layout.applyAll ops = .ok result) :
    result.shape.dimensions = LayoutOp.extentsAll ops layout.shape.dimensions ∧
      (∀ index, result.InBounds index →
        layout.InBounds (layout.sourceAll ops index) ∧
        result.address index = layout.address (layout.sourceAll ops index) ∧
        result.offsetElements ≤ result.address index ∧
        result.address index < result.spanEndElements ∧
        checkedPlace result.offsetElements result.strides.elements index =
          some (result.address index)) ∧
      (result.isContiguous = true ↔ Consecutive result.rowMajor) ∧
      (result.isNonOverlapping = true → ∀ first second, result.InBounds first →
        result.InBounds second → result.address first = result.address second →
          first = second) ∧
      (∀ byteLen dtype, validateStorage byteLen dtype result = .ok () →
        ∀ index, result.InBounds index →
          (result.address index + 1) * dtype.sizeBytes ≤ byteLen) ∧
      (∀ axis start stop extent, result.shape.dimensions[axis]? = some extent → start < stop →
        stop ≤ extent → result.shape.isEmpty = false →
          ∃ sliced, result.slice axis start stop = .ok sliced ∧
            ∀ byteLen dtype, validateStorage byteLen dtype result = .ok () →
              validateStorage byteLen dtype sliced = .ok ()) ∧
      (∀ first second, first < result.shape.rank → second < result.shape.rank →
        ∃ transposed, result.transpose first second = .ok transposed ∧
          ∀ byteLen dtype, validateStorage byteLen dtype result = .ok () →
            validateStorage byteLen dtype transposed = .ok ()) ∧
      (∀ requested, requested.elementCount = result.shape.elementCount →
        result.isContiguous = true →
          ∃ reshaped, result.reshape requested = .ok reshaped ∧
            ∀ byteLen dtype, validateStorage byteLen dtype result = .ok () →
              validateStorage byteLen dtype reshaped = .ok ()) := by
  refine ⟨dimensions_applyAll h, ?_, isContiguous_iff result, fun hapart first second hfirst hsecond =>
    address_injective hapart hfirst hsecond, fun byteLen dtype hvalid index =>
      element_bytes_le hvalid, ?_, ?_, ?_⟩
  · intro index hindex
    obtain ⟨hbounds, haddress⟩ := address_applyAll h hindex
    obtain ⟨hstart, hstop, hfits⟩ := address_bounds hindex
    exact ⟨hbounds, haddress, hstart, hstop,
      checkedPlace_of_le (Nat.le_trans (Nat.le_of_lt hstop) hfits)⟩
  · intro axis start stop extent hextent hstart hstop hempty
    obtain ⟨sliced, hsliced, hcount, hspan⟩ := slice_ok hextent hstart hstop hempty
    exact ⟨sliced, hsliced, fun byteLen dtype hvalid =>
      validateStorage_of_le hvalid sliced.offset_le_spanEnd hspan hcount⟩
  · intro first second hfirst hsecond
    obtain ⟨transposed, htransposed, hcount, _, hspan⟩ := transpose_ok hfirst hsecond
    exact ⟨transposed, htransposed, fun byteLen dtype hvalid =>
      validateStorage_of_le hvalid transposed.offset_le_spanEnd (Nat.le_of_eq hspan)
        (Nat.le_of_eq hcount)⟩
  · intro requested hcount hcontiguous
    obtain ⟨reshaped, hreshaped, hspan⟩ := reshape_ok hcount hcontiguous
    have hcount' : reshaped.shape.elementCount ≤ result.shape.elementCount := by
      obtain ⟨_, ⟨_, rfl⟩ | ⟨_, hshape, _⟩⟩ := reshape_eq_ok hreshaped
      · exact Nat.le_refl _
      · rw [hshape, hcount]
    exact ⟨reshaped, hreshaped, fun byteLen dtype hvalid =>
      validateStorage_of_le hvalid reshaped.offset_le_spanEnd (Nat.le_of_eq hspan) hcount'⟩

/-- Two rows of three, taken as three rows of two, turned round and cut. -/
theorem chain_spec_rows :
    ∃ rows view : Layout, rows.shape.dimensions = [2, 3] ∧
      rows.applyAll [.reshape ⟨[3, 2], 6, rfl, by decide⟩, .transpose 0 1, .slice 1 1 3] =
        .ok view ∧
      view.shape.dimensions = [2, 2] ∧ view.InBounds [1, 0] ∧
      rows.sourceAll [.reshape ⟨[3, 2], 6, rfl, by decide⟩, .transpose 0 1, .slice 1 1 3] [1, 0] =
        [1, 0] ∧
      view.address [1, 0] = rows.address [1, 0] ∧ view.address [1, 0] < view.spanEndElements := by
  have hrows : storageSpanEnd ⟨[2, 3], 6, rfl, by decide⟩ ⟨[3, 1]⟩ 0 = .ok 6 := by decide
  have hsource : (⟨_, _, 0, 6, rfl, hrows⟩ : Layout).sourceAll
      [.reshape ⟨[3, 2], 6, rfl, by decide⟩, .transpose 0 1, .slice 1 1 3] [1, 0] = [1, 0] := by
    decide +revert
  have hview : storageSpanEnd ⟨[2, 2], 4, rfl, by decide⟩ ⟨[1, 2]⟩ 2 = .ok 6 := by decide
  have hchain : (⟨_, _, 0, 6, rfl, hrows⟩ : Layout).applyAll
      [.reshape ⟨[3, 2], 6, rfl, by decide⟩, .transpose 0 1, .slice 1 1 3] =
      .ok ⟨_, _, 2, 6, rfl, hview⟩ := rfl
  have hindex : Digits [2, 2] [1, 0] :=
    .cons (by decide) (.cons (by decide) .nil)
  obtain ⟨hextents, haddresses, _⟩ := chain_spec hchain
  obtain ⟨_, haddress, _, hstop, _⟩ := haddresses [1, 0] hindex
  rw [hsource] at haddress
  exact ⟨_, _, rfl, hchain, hextents, hindex, hsource, haddress, hstop⟩

end Chains

end Layout

end Riley.Tensor
