import Mathlib.Tactic.Common
import Riley.Library.Offsets

/-!
Parts of a slab. They lie one behind the other, each at the next place of its alignment, and are
written over what was there; what they hold is read back, and nothing else changes.
-/

namespace Riley.Regions

section RoundUp

variable {value alignment limit : Nat}

/-- The next multiple of an alignment. -/
def roundUp (value alignment : Nat) : Nat :=
  if value % alignment = 0 then value else value + (alignment - value % alignment)

theorem le_roundUp (value alignment : Nat) : value ≤ roundUp value alignment := by
  unfold roundUp
  split
  · exact Nat.le_refl _
  · exact Nat.le_add_right _ _

theorem dvd_roundUp (h : 0 < alignment) : alignment ∣ roundUp value alignment := by
  unfold roundUp
  split
  · next hzero => exact Nat.dvd_of_mod_eq_zero hzero
  · have hlt := Nat.mod_lt value h
    have hdiv := Nat.div_add_mod value alignment
    refine ⟨value / alignment + 1, ?_⟩
    rw [Nat.mul_add, Nat.mul_one]
    omega

end RoundUp

section Places

/-- How long a part is, and of what its place is a multiple. -/
structure Part where
  length : Nat
  alignment : Nat
  deriving DecidableEq, Repr

/-- Where the parts begin. -/
def places (cursor : Nat) : List Part → List Nat
  | [] => []
  | part :: rest =>
      roundUp cursor part.alignment ::
        places (roundUp cursor part.alignment + part.length) rest

/-- Where the last part ends. -/
def stop (cursor : Nat) : List Part → Nat
  | [] => cursor
  | part :: rest => stop (roundUp cursor part.alignment + part.length) rest

variable {parts : List Part} {part later : Part} {cursor index other place place' : Nat}

theorem le_stop (cursor : Nat) (parts : List Part) : cursor ≤ stop cursor parts := by
  induction parts generalizing cursor with
  | nil => exact Nat.le_refl _
  | cons part rest ih =>
      have hround := le_roundUp cursor part.alignment
      have hrest := ih (roundUp cursor part.alignment + part.length)
      rw [stop]
      omega

theorem length_places (cursor : Nat) (parts : List Part) :
    (places cursor parts).length = parts.length := by
  induction parts generalizing cursor with
  | nil => rfl
  | cons part rest ih => simp [places, ih]

/-- A part begins behind the cursor, at a multiple of its alignment, and ends in the slab. -/
theorem place_spec (hpart : parts[index]? = some part)
    (hplace : (places cursor parts)[index]? = some place) :
    cursor ≤ place ∧ place + part.length ≤ stop cursor parts ∧
      (0 < part.alignment → part.alignment ∣ place) := by
  induction parts generalizing cursor index with
  | nil => cases hpart
  | cons first rest ih =>
      have hround := le_roundUp cursor first.alignment
      cases index with
      | zero =>
          cases hpart
          cases hplace
          exact ⟨hround, le_stop _ rest, dvd_roundUp⟩
      | succ index =>
          obtain ⟨hle, hstop, hdvd⟩ := ih hpart hplace
          exact ⟨by omega, hstop, hdvd⟩

/-- A part ends where a later one has not begun. -/
theorem places_apart (hpart : parts[index]? = some part)
    (hplace : (places cursor parts)[index]? = some place)
    (hplace' : (places cursor parts)[other]? = some place') (hlt : index < other) :
    place + part.length ≤ place' := by
  induction parts generalizing cursor index other with
  | nil => cases hpart
  | cons first rest ih =>
      cases other with
      | zero => exact absurd hlt (Nat.not_lt_zero _)
      | succ other =>
          cases index with
          | zero =>
              cases hpart
              cases hplace
              have hlater : (places (roundUp cursor part.alignment + part.length) rest)[other]? =
                  some place' := hplace'
              have hother : other < rest.length := by
                rw [← length_places (roundUp cursor part.alignment + part.length) rest]
                exact (List.getElem?_eq_some_iff.mp hlater).choose
              exact (place_spec (List.getElem?_eq_getElem hother) hplace').1
          | succ index => exact ih hpart hplace hplace' (Nat.lt_of_succ_lt_succ hlt)

end Places

section Writing

variable {α : Type} {items part : List α} {start index : Nat} {writes : List (Nat × List α)}

/-- A list with a part of it written over. -/
def splice (items : List α) (start : Nat) (part : List α) : List α :=
  items.take start ++ part ++ items.drop (start + part.length)

theorem length_splice (h : start + part.length ≤ items.length) :
    (splice items start part).length = items.length := by
  simp only [splice, List.length_append, List.length_take, List.length_drop]
  omega

/-- What is written over a part stands there, and all else stays. -/
theorem getElem?_splice (h : start + part.length ≤ items.length) :
    (splice items start part)[index]? =
      if start ≤ index ∧ index < start + part.length then part[index - start]?
      else items[index]? := by
  have hlength : (items.take start).length = start := by
    rw [List.length_take]
    omega
  rw [splice, List.append_assoc]
  rcases Nat.lt_or_ge index start with hbefore | hge
  · rw [List.getElem?_append_left (by omega), if_neg (by omega), List.getElem?_take_of_lt hbefore]
  · rw [List.getElem?_append_right (by omega), hlength]
    rcases Nat.lt_or_ge index (start + part.length) with hinside | hbehind
    · rw [List.getElem?_append_left (by omega), if_pos ⟨hge, hinside⟩]
    · rw [List.getElem?_append_right (by omega), if_neg (by omega), List.getElem?_drop]
      congr 1
      omega

/-- Parts written one after the other. -/
def spliceAll (items : List α) (writes : List (Nat × List α)) : List α :=
  writes.foldl (fun items write => splice items write.1 write.2) items

/-- The parts are written in order, inside of a length, and none over another. -/
structure Apart (length : Nat) (writes : List (Nat × List α)) : Prop where
  inside : ∀ write ∈ writes, write.1 + write.2.length ≤ length
  ordered : writes.Pairwise fun first second => first.1 + first.2.length ≤ second.1

theorem Apart.tail {length : Nat} {write : Nat × List α} (h : Apart length (write :: writes)) :
    Apart length writes :=
  ⟨fun other hmem => h.inside other (List.mem_cons_of_mem _ hmem), h.ordered.of_cons⟩

theorem length_spliceAll (h : Apart items.length writes) :
    (spliceAll items writes).length = items.length := by
  induction writes generalizing items with
  | nil => rfl
  | cons write rest ih =>
      have hlength := length_splice (h.inside write List.mem_cons_self)
      have hrest := @ih (splice items write.1 write.2) (by rw [hlength]; exact h.tail)
      exact hrest.trans hlength

/-- Outside of the parts nothing is written. -/
theorem getElem?_spliceAll_outside (h : Apart items.length writes)
    (houtside : ∀ write ∈ writes, index < write.1 ∨ write.1 + write.2.length ≤ index) :
    (spliceAll items writes)[index]? = items[index]? := by
  induction writes generalizing items with
  | nil => rfl
  | cons write rest ih =>
      have hinside := h.inside write List.mem_cons_self
      have hrest := @ih (splice items write.1 write.2)
        (by rw [length_splice hinside]; exact h.tail)
        fun other hmem => houtside other (List.mem_cons_of_mem _ hmem)
      have hwrite := houtside write List.mem_cons_self
      rw [spliceAll, List.foldl_cons]
      refine hrest.trans ?_
      rw [getElem?_splice hinside, if_neg (by omega)]

/-- Every part stands where it is written. -/
theorem slice_spliceAll (h : Apart items.length writes) {write : Nat × List α}
    (hmem : write ∈ writes) :
    Offsets.slice (spliceAll items writes) write.1 (write.1 + write.2.length) = some write.2 := by
  have hlength := length_spliceAll h
  have hinside := h.inside write hmem
  rw [Offsets.slice_of_le (Nat.le_add_right _ _) (by omega), Nat.add_sub_cancel_left]
  congr 1
  apply List.ext_getElem?
  intro index
  rcases Nat.lt_or_ge index write.2.length with hlt | hge
  · rw [List.getElem?_take_of_lt hlt, List.getElem?_drop]
    clear hlength
    induction writes generalizing items with
    | nil => cases hmem
    | cons first rest ih =>
        have hfirst := h.inside first List.mem_cons_self
        have happend : Apart (splice items first.1 first.2).length rest := by
          rw [length_splice hfirst]
          exact h.tail
        rw [spliceAll, List.foldl_cons]
        rcases List.mem_cons.mp hmem with rfl | hmem
        · have houtside : ∀ other ∈ rest, write.1 + index < other.1 ∨
              other.1 + other.2.length ≤ write.1 + index := by
            intro other hother
            have hle := List.rel_of_pairwise_cons h.ordered hother
            omega
          refine (getElem?_spliceAll_outside happend houtside).trans ?_
          rw [getElem?_splice hfirst, if_pos (by omega), Nat.add_sub_cancel_left]
        · exact ih happend hmem (by rw [length_splice hfirst]; exact hinside)
  · rw [List.getElem?_eq_none hge, List.getElem?_eq_none]
    rw [List.length_take]
    omega

end Writing

end Riley.Regions
