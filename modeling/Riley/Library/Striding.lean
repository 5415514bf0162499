import Mathlib
import Riley.Library.MixedRadix

/-!
Places of a strided layout: every digit of an index is multiplied by the stride of its
axis. The strides of nested loops place an index at its number, and strides that outgrow
what lies below them keep indices apart, in whatever order the axes come.
-/

namespace Riley.Striding

open MixedRadix

variable {extents strides index : List Nat}

/-- Where an index lies, counted from the first one. -/
def place : List Nat → List Nat → Nat
  | stride :: strides, digit :: index => digit * stride + place strides index
  | _, _ => 0

/-- The last place. -/
def reach : List Nat → List Nat → Nat
  | extent :: extents, stride :: strides => (extent - 1) * stride + reach extents strides
  | _, _ => 0

@[simp] theorem place_nil (index : List Nat) : place [] index = 0 := rfl

@[simp] theorem place_cons (stride : Nat) (strides : List Nat) (digit : Nat) (index : List Nat) :
    place (stride :: strides) (digit :: index) = digit * stride + place strides index := rfl

theorem place_le_reach (h : Digits extents index) (hrank : extents.length = strides.length) :
    place strides index ≤ reach extents strides := by
  induction h generalizing strides with
  | nil => cases strides <;> exact Nat.zero_le _
  | @cons extent digit extents index hdigit _ ih =>
      cases strides with
      | nil => exact Nat.zero_le _
      | cons stride strides =>
          have hhead : digit * stride ≤ (extent - 1) * stride :=
            Nat.mul_le_mul_right _ (by omega)
          have htail := ih (Nat.succ.inj hrank)
          rw [place_cons, reach]
          omega

/-- Part of an axis, moved to its start, reaches no further than the axis. -/
theorem reach_set {axis extent stride start part : Nat} (hextent : extents[axis]? = some extent)
    (hstride : strides[axis]? = some stride) (hpart : 0 < part) (hle : start + part ≤ extent) :
    start * stride + reach (extents.set axis part) strides ≤ reach extents strides := by
  induction extents generalizing axis strides with
  | nil => simp at hextent
  | cons head extents ih =>
      cases strides with
      | nil => simp at hstride
      | cons first strides =>
          cases axis with
          | zero =>
              simp only [List.getElem?_cons_zero, Option.some.injEq] at hextent hstride
              subst hextent hstride
              have hmoved : start * first + (part - 1) * first ≤ (head - 1) * first := by
                rw [← Nat.add_mul]
                exact Nat.mul_le_mul_right _ (by omega)
              rw [List.set_cons_zero, reach, reach]
              omega
          | succ axis =>
              simp only [List.getElem?_cons_succ] at hextent hstride
              have htail := ih hextent hstride
              rw [List.set_cons_succ, reach, reach]
              omega

theorem prod_set_le {axis extent part : Nat} (hextent : extents[axis]? = some extent)
    (hle : part ≤ extent) : (extents.set axis part).prod ≤ extents.prod := by
  induction extents generalizing axis with
  | nil => simp at hextent
  | cons head extents ih =>
      cases axis with
      | zero =>
          simp only [List.getElem?_cons_zero, Option.some.injEq] at hextent
          subst hextent
          simpa using Nat.mul_le_mul_right extents.prod hle
      | succ axis =>
          simp only [List.getElem?_cons_succ] at hextent
          simpa using Nat.mul_le_mul_left head (ih hextent)

section Sums

theorem place_eq_sum (strides index : List Nat) :
    place strides index = ((strides.zip index).map fun entry => entry.2 * entry.1).sum := by
  induction strides generalizing index with
  | nil => rfl
  | cons stride strides ih =>
      cases index with
      | nil => rfl
      | cons digit index => simp [ih]

theorem reach_eq_sum (extents strides : List Nat) :
    reach extents strides =
      ((extents.zip strides).map fun entry => (entry.1 - 1) * entry.2).sum := by
  induction extents generalizing strides with
  | nil => rfl
  | cons extent extents ih =>
      cases strides with
      | nil => rfl
      | cons stride strides => simp [reach, ih]

/-- Moving along one axis. -/
theorem place_modify {axis stride : Nat} (more : Nat) (hindex : axis < index.length)
    (hstride : strides[axis]? = some stride) :
    place strides (index.modify axis (· + more)) = place strides index + more * stride := by
  induction strides generalizing index axis with
  | nil => cases hstride
  | cons head strides ih =>
      cases index with
      | nil => cases hindex
      | cons digit index =>
          cases axis with
          | zero =>
              obtain rfl : head = stride := Option.some.inj hstride
              simp only [List.modify_zero_cons, place_cons, Nat.add_mul]
              omega
          | succ axis =>
              have hrest := ih (Nat.lt_of_succ_lt_succ hindex) hstride
              simp only [List.modify_succ_cons, place_cons, hrest]
              omega

end Sums

section Nested

/-- The strides of nested loops. -/
def weights : List Nat → List Nat
  | [] => []
  | _ :: extents => extents.prod :: weights extents

/-- The strides of nested loops, but for axes of one item, whose strides do not count. -/
def Canonical : List Nat → List Nat → Prop
  | extent :: extents, stride :: strides =>
      (1 < extent → stride = extents.prod) ∧ Canonical extents strides
  | _, _ => True

@[simp] theorem length_weights (extents : List Nat) : (weights extents).length = extents.length := by
  induction extents with
  | nil => rfl
  | cons extent extents ih => simp [weights, ih]

theorem canonical_weights (extents : List Nat) : Canonical extents (weights extents) := by
  induction extents with
  | nil => trivial
  | cons extent extents ih => exact ⟨fun _ => rfl, ih⟩

theorem place_canonical (h : Canonical extents strides) (hrank : extents.length = strides.length)
    (hindex : Digits extents index) : place strides index = number extents index := by
  induction hindex generalizing strides with
  | nil =>
      cases strides with
      | nil => rfl
      | cons stride strides => cases hrank
  | @cons extent digit extents index hdigit _ ih =>
      cases strides with
      | nil => cases hrank
      | cons stride strides =>
          rw [place_cons, number_cons, ih h.2 (Nat.succ.inj hrank)]
          by_cases hextent : 1 < extent
          · rw [h.1 hextent]
          · obtain rfl : digit = 0 := by omega
            rw [Nat.zero_mul, Nat.zero_mul]

/-- The index of the first item. -/
theorem digits_zeros (hpos : ∀ extent ∈ extents, 0 < extent) :
    Digits extents (List.replicate extents.length 0) := by
  induction extents with
  | nil => exact .nil
  | cons extent extents ih =>
      exact .cons (hpos extent List.mem_cons_self)
        (ih fun other hmem => hpos other (List.mem_cons_of_mem _ hmem))

theorem number_zeros (extents : List Nat) (count : Nat) :
    number extents (List.replicate count 0) = 0 := by
  induction extents generalizing count with
  | nil => rfl
  | cons extent extents ih =>
      cases count with
      | zero => rfl
      | succ count => simp [List.replicate_succ, ih]

theorem place_zeros (strides : List Nat) (count : Nat) :
    place strides (List.replicate count 0) = 0 := by
  induction strides generalizing count with
  | nil => rfl
  | cons stride strides ih =>
      cases count with
      | zero => rfl
      | succ count => simp [List.replicate_succ, ih]

/-- Only those strides place every index at its number. -/
theorem canonical_iff (hpos : ∀ extent ∈ extents, 0 < extent)
    (hrank : extents.length = strides.length) :
    Canonical extents strides ↔
      ∀ index, Digits extents index → place strides index = number extents index := by
  refine ⟨fun h index => place_canonical h hrank, ?_⟩
  induction extents generalizing strides with
  | nil => exact fun _ => trivial
  | cons extent extents ih =>
      intro h
      cases strides with
      | nil => cases hrank
      | cons stride strides =>
          have htailPos : ∀ extent ∈ extents, 0 < extent := fun other hmem =>
            hpos other (List.mem_cons_of_mem _ hmem)
          refine ⟨fun hextent => ?_, ih htailPos (Nat.succ.inj hrank) fun index hindex => ?_⟩
          · have hone := h (1 :: List.replicate extents.length 0) (.cons hextent (digits_zeros htailPos))
            simpa [place_zeros, number_zeros] using hone
          · have hzero := h (0 :: index) (.cons (hpos extent List.mem_cons_self) hindex)
            simpa using hzero

/-- Such a layout ends where the count of its items says. -/
theorem reach_canonical (h : Canonical extents strides) (hpos : ∀ extent ∈ extents, 0 < extent)
    (hrank : extents.length = strides.length) : reach extents strides + 1 = extents.prod := by
  induction extents generalizing strides with
  | nil => cases strides <;> rfl
  | cons extent extents ih =>
      cases strides with
      | nil => cases hrank
      | cons stride strides =>
          have htail := ih h.2 (fun other hmem => hpos other (List.mem_cons_of_mem _ hmem))
            (Nat.succ.inj hrank)
          have hextent := hpos extent List.mem_cons_self
          rw [reach, Nat.add_assoc, htail, List.prod_cons]
          by_cases hwide : 1 < extent
          · rw [h.1 hwide, ← Nat.succ_mul, Nat.succ_eq_add_one, Nat.sub_add_cancel hextent]
          · obtain rfl : extent = 1 := by omega
            simp

end Nested

section Swaps

variable {α β : Type}

/-- Two items change places, if both are there. -/
def swap (items : List α) (first second : Nat) : List α :=
  match items[first]?, items[second]? with
  | some a, some b => (items.set first b).set second a
  | _, _ => items

theorem swap_eq {items : List α} {first second : Nat} (hfirst : first < items.length)
    (hsecond : second < items.length) :
    swap items first second = (items.set first items[second]).set second items[first] := by
  rw [swap, List.getElem?_eq_getElem hfirst, List.getElem?_eq_getElem hsecond]

@[simp] theorem length_swap (items : List α) (first second : Nat) :
    (swap items first second).length = items.length := by
  unfold swap
  split <;> simp

theorem swap_perm (items : List α) (first second : Nat) :
    (swap items first second).Perm items := by
  unfold swap
  split
  · next a b hfirst hsecond =>
      obtain ⟨hlt, rfl⟩ := List.getElem?_eq_some_iff.mp hfirst
      obtain ⟨hlt', rfl⟩ := List.getElem?_eq_some_iff.mp hsecond
      exact List.set_set_perm hlt hlt'
  · exact .refl _

/-- Where an item is found after the swap. -/
theorem getElem?_swap {items : List α} {first second : Nat} (hfirst : first < items.length)
    (hsecond : second < items.length) (index : Nat) :
    (swap items first second)[index]? =
      if index = second then items[first]?
      else if index = first then items[second]? else items[index]? := by
  rw [swap_eq hfirst hsecond, List.getElem?_set, List.getElem?_set]
  by_cases hleft : second = index
  · subst hleft
    simp [hfirst, hsecond]
  · by_cases hright : first = index
    · subst hright
      have hne : ¬ first = second := fun heq => hleft heq.symm
      simp [hleft, hne, hfirst, hsecond]
    · have hne : ¬ index = second := fun heq => hleft heq.symm
      have hne' : ¬ index = first := fun heq => hright heq.symm
      simp [hleft, hright, hne, hne']

theorem swap_swap {items : List α} {first second : Nat} (hfirst : first < items.length)
    (hsecond : second < items.length) :
    swap (swap items first second) first second = items := by
  apply List.ext_getElem?
  intro index
  have hfirst' : first < (swap items first second).length := by rwa [length_swap]
  have hsecond' : second < (swap items first second).length := by rwa [length_swap]
  simp only [getElem?_swap hfirst' hsecond', getElem?_swap hfirst hsecond]
  by_cases hleft : index = second
  · subst hleft
    by_cases heq : first = index <;> simp [heq]
  · by_cases hright : index = first
    · subst hright
      simp [hleft]
    · simp [hleft, hright]

theorem swap_zip {items : List α} {others : List β} {first second : Nat}
    (hlength : items.length = others.length) (hfirst : first < items.length)
    (hsecond : second < items.length) :
    (swap items first second).zip (swap others first second) =
      swap (items.zip others) first second := by
  have hfirst' : first < others.length := by rwa [← hlength]
  have hsecond' : second < others.length := by rwa [← hlength]
  have hzip : (items.zip others).length = items.length := by simp [hlength]
  have hfirstZip : first < (items.zip others).length := by rwa [hzip]
  have hsecondZip : second < (items.zip others).length := by rwa [hzip]
  apply List.ext_getElem?
  intro index
  rw [getElem?_swap hfirstZip hsecondZip]
  simp only [List.zip, List.getElem?_zipWith, getElem?_swap hfirst hsecond,
    getElem?_swap hfirst' hsecond']
  by_cases hleft : index = second
  · simp [hleft]
  · by_cases hright : index = first
    · subst hright
      simp [hleft]
    · simp [hleft, hright]

/-- Swapping the strides is swapping the digits. -/
theorem place_swap {first second : Nat} (hlength : strides.length = index.length)
    (hfirst : first < strides.length) (hsecond : second < strides.length) :
    place (swap strides first second) index = place strides (swap index first second) := by
  have hback : swap (swap index first second) first second = index :=
    swap_swap (by rwa [← hlength]) (by rwa [← hlength])
  have hzip := @swap_zip _ _ strides (swap index first second) first second
    (by rw [length_swap, hlength]) hfirst hsecond
  rw [hback] at hzip
  rw [place_eq_sum, place_eq_sum, hzip]
  exact ((swap_perm _ first second).map _).sum_nat

theorem reach_swap {first second : Nat} (hlength : extents.length = strides.length)
    (hfirst : first < extents.length) (hsecond : second < extents.length) :
    reach (swap extents first second) (swap strides first second) = reach extents strides := by
  rw [reach_eq_sum, reach_eq_sum, swap_zip hlength hfirst hsecond]
  exact ((swap_perm _ first second).map _).sum_nat

theorem digits_swap {first second : Nat}
    (h : Digits (swap extents first second) index) (hfirst : first < extents.length)
    (hsecond : second < extents.length) : Digits extents (swap index first second) := by
  obtain ⟨hlength, hall⟩ := digits_iff.mp h
  rw [length_swap] at hlength
  have hfirst' : first < index.length := by rwa [← hlength]
  have hsecond' : second < index.length := by rwa [← hlength]
  refine digits_iff.mpr ⟨by rw [length_swap, hlength], ?_⟩
  intro place extent digit hextent hdigit
  rw [getElem?_swap hfirst' hsecond'] at hdigit
  by_cases hleft : place = second
  · subst hleft
    rw [if_pos rfl] at hdigit
    refine hall first extent digit ?_ hdigit
    rw [getElem?_swap hfirst hsecond]
    by_cases heq : first = place
    · rw [if_pos heq, heq, hextent]
    · rw [if_neg heq, if_pos rfl, hextent]
  · rw [if_neg hleft] at hdigit
    by_cases hright : place = first
    · subst hright
      rw [if_pos rfl] at hdigit
      refine hall second extent digit ?_ hdigit
      rw [getElem?_swap hfirst hsecond, if_pos rfl, hextent]
    · rw [if_neg hright] at hdigit
      refine hall place extent digit ?_ hdigit
      rw [getElem?_swap hfirst hsecond, if_neg hleft, if_neg hright, hextent]

end Swaps

section Apart

/-- Each stride is at least what the axes before it need. -/
def Separated : Nat → List (Nat × Nat) → Prop
  | _, [] => True
  | required, (stride, extent) :: axes => required ≤ stride ∧ Separated (stride * extent) axes

/-- Two indices over axes in some order; below them all lies a rest that needs less than
the first stride. -/
theorem eq_of_separated {required low low' : Nat} {axes : List (Nat × Nat)}
    {first second : List Nat} (h : Separated required axes) (hlow : low < required)
    (hlow' : low' < required) (hfirst : Digits (axes.map (·.2)) first)
    (hsecond : Digits (axes.map (·.2)) second)
    (heq : low + place (axes.map (·.1)) first = low' + place (axes.map (·.1)) second) :
    low = low' ∧ first = second := by
  induction axes generalizing required low low' first second with
  | nil =>
      cases hfirst
      cases hsecond
      exact ⟨heq, rfl⟩
  | cons axis axes ih =>
      obtain ⟨stride, extent⟩ := axis
      obtain ⟨hstride, hrest⟩ := h
      cases hfirst with
      | @cons _ digit _ first hdigit hfirst =>
      cases hsecond with
      | @cons _ digit' _ second hdigit' hsecond =>
          have hnext : ∀ low digit, low < required → digit < extent →
              low + digit * stride < stride * extent := by
            intro low digit hlow hdigit
            calc low + digit * stride
                < stride + digit * stride := Nat.add_lt_add_right (Nat.lt_of_lt_of_le hlow hstride) _
              _ = (digit + 1) * stride := by rw [Nat.succ_mul, Nat.add_comm]
              _ ≤ extent * stride := Nat.mul_le_mul_right _ hdigit
              _ = stride * extent := Nat.mul_comm _ _
          have hsum : low + digit * stride + place (axes.map (·.1)) first =
              low' + digit' * stride + place (axes.map (·.1)) second := by
            simp only [List.map_cons, place_cons] at heq
            omega
          obtain ⟨hhead, rfl⟩ := ih hrest (hnext low digit hlow hdigit)
            (hnext low' digit' hlow' hdigit') hfirst hsecond hsum
          have hlt := Nat.lt_of_lt_of_le hlow hstride
          have hlt' := Nat.lt_of_lt_of_le hlow' hstride
          have hpos := Nat.zero_lt_of_lt hlt
          have hdiv := congrArg (· / stride) hhead
          simp only [Nat.add_mul_div_right _ _ hpos, Nat.div_eq_of_lt hlt, Nat.div_eq_of_lt hlt',
            Nat.zero_add] at hdiv
          subst hdiv
          exact ⟨Nat.add_right_cancel hhead, rfl⟩

/-- An axis, with the digits of two indices. -/
structure Lane where
  extent : Nat
  stride : Nat
  first : Nat
  second : Nat

def lanes : List Nat → List Nat → List Nat → List Nat → List Lane
  | extent :: extents, stride :: strides, digit :: first, digit' :: second =>
      ⟨extent, stride, digit, digit'⟩ :: lanes extents strides first second
  | _, _, _, _ => []

theorem lanes_spec {first second : List Nat} (hfirst : Digits extents first)
    (hsecond : Digits extents second) (hrank : extents.length = strides.length) :
    (∀ lane ∈ lanes extents strides first second,
      lane.first < lane.extent ∧ lane.second < lane.extent) ∧
    (lanes extents strides first second).map (fun lane => (lane.extent, lane.stride)) =
      extents.zip strides ∧
    (lanes extents strides first second).map Lane.first = first ∧
    (lanes extents strides first second).map Lane.second = second ∧
    ((lanes extents strides first second).map fun lane => lane.first * lane.stride).sum =
      place strides first ∧
    ((lanes extents strides first second).map fun lane => lane.second * lane.stride).sum =
      place strides second := by
  induction hfirst generalizing strides second with
  | nil =>
      cases hsecond
      cases strides with
      | nil => exact ⟨nofun, rfl, rfl, rfl, rfl, rfl⟩
      | cons stride strides => cases hrank
  | @cons extent digit extents first hdigit hdigits ih =>
      cases hsecond with
      | @cons _ digit' _ second hdigit' hdigits' =>
      cases strides with
      | nil => cases hrank
      | cons stride strides =>
          obtain ⟨hbelow, haxes, hfirst, hsecond, hplace, hplace'⟩ :=
            ih hdigits' (Nat.succ.inj hrank)
          simp only [lanes, List.map_cons, List.sum_cons, List.zip_cons_cons, haxes, hfirst,
            hsecond, hplace, hplace', place_cons, List.forall_mem_cons]
          exact ⟨⟨⟨hdigit, hdigit'⟩, hbelow⟩, trivial, trivial, trivial, trivial, trivial⟩

/-- An axis of one item adds nothing. -/
theorem sum_filter_lanes {items : List Lane} (digit : Lane → Nat)
    (h : ∀ lane ∈ items, digit lane < lane.extent) :
    ((items.filter (1 < ·.extent)).map fun lane => digit lane * lane.stride).sum =
      (items.map fun lane => digit lane * lane.stride).sum := by
  induction items with
  | nil => rfl
  | cons lane items ih =>
      have hrest := ih fun other hmem => h other (List.mem_cons_of_mem _ hmem)
      by_cases hwide : 1 < lane.extent
      · simp [hwide, hrest]
      · have hzero : digit lane = 0 := by
          have := h lane List.mem_cons_self
          omega
        simp [hwide, hrest, hzero]

theorem place_map (items : List Lane) (digit : Lane → Nat) :
    place (items.map Lane.stride) (items.map digit) =
      (items.map fun lane => digit lane * lane.stride).sum := by
  induction items with
  | nil => rfl
  | cons lane items ih => simp [ih]

/-- Separated axes keep indices apart. -/
theorem place_injective {first second : List Nat} {axes : List (Nat × Nat)}
    (hrank : extents.length = strides.length)
    (haxes : axes.Perm (((extents.zip strides).filter (1 < ·.1)).map fun axis => (axis.2, axis.1)))
    (hseparated : Separated 1 axes) (hfirst : Digits extents first)
    (hsecond : Digits extents second) (heq : place strides first = place strides second) :
    first = second := by
  obtain ⟨hbelow, hzip, hfirstMap, hsecondMap, hplace, hplace'⟩ :=
    lanes_spec hfirst hsecond hrank
  let wide := (lanes extents strides first second).filter (1 < ·.extent)
  have hwide : axes.Perm (wide.map fun lane => (lane.stride, lane.extent)) := by
    have hmap : ((extents.zip strides).filter (1 < ·.1)).map (fun axis => (axis.2, axis.1)) =
        wide.map fun lane => (lane.stride, lane.extent) := by
      rw [← hzip, List.filter_map, List.map_map]
      rfl
    rwa [hmap] at haxes
  have hpairs : List.Forall₂ (fun axis lane => axis = (Lane.stride lane, Lane.extent lane))
      (wide.map fun lane => (lane.stride, lane.extent)) wide := by
    rw [List.forall₂_map_left_iff]
    exact List.forall₂_same.mpr fun _ _ => rfl
  -- The lanes, in the order of the axes.
  obtain ⟨ordered, hordered, hperm⟩ := List.perm_comp_forall₂ hwide hpairs
  have hmem : ∀ lane ∈ ordered, lane ∈ lanes extents strides first second := fun lane h =>
    List.mem_of_mem_filter (hperm.mem_iff.mp h)
  have hkeys : axes = ordered.map fun lane => (lane.stride, lane.extent) := by
    rw [← List.forall₂_eq_eq_eq, List.forall₂_map_right_iff]
    exact hordered
  have hextents : axes.map (·.2) = ordered.map Lane.extent := by
    rw [hkeys, List.map_map]
    rfl
  have hstrides : axes.map (·.1) = ordered.map Lane.stride := by
    rw [hkeys, List.map_map]
    rfl
  have hsum : ∀ digit : Lane → Nat,
      (∀ lane ∈ lanes extents strides first second, digit lane < lane.extent) →
        place (ordered.map Lane.stride) (ordered.map digit) =
          ((lanes extents strides first second).map fun lane => digit lane * lane.stride).sum := by
    intro digit hdigit
    rw [place_map, ← sum_filter_lanes digit hdigit]
    exact (hperm.map _).sum_nat
  have hsame : ordered.map Lane.first = ordered.map Lane.second := by
    refine (@eq_of_separated 1 0 0 axes _ _ hseparated Nat.one_pos Nat.one_pos ?_ ?_ ?_).2
    · rw [hextents, Digits, List.forall₂_map_left_iff, List.forall₂_map_right_iff]
      exact List.forall₂_same.mpr fun lane h => (hbelow lane (hmem lane h)).1
    · rw [hextents, Digits, List.forall₂_map_left_iff, List.forall₂_map_right_iff]
      exact List.forall₂_same.mpr fun lane h => (hbelow lane (hmem lane h)).2
    · rw [hstrides, hsum _ fun lane h => (hbelow lane h).1, hsum _ fun lane h => (hbelow lane h).2,
        hplace, hplace', heq]
  have hall : (lanes extents strides first second).map Lane.first =
      (lanes extents strides first second).map Lane.second := by
    apply List.map_congr_left
    intro lane hlane
    by_cases hextent : 1 < lane.extent
    · have hin : lane ∈ ordered :=
        hperm.mem_iff.mpr (List.mem_filter.mpr ⟨hlane, decide_eq_true hextent⟩)
      exact List.map_inj_left.mp hsame lane hin
    · have := hbelow lane hlane
      omega
  exact hfirstMap.symm.trans (hall.trans hsecondMap)

end Apart

end Riley.Striding
