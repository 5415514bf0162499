import Mathlib.Tactic.Common

/-!
Lists laid end to end, and the offsets at which they begin. There is one more offset than
there are lists: the last one is the length of the whole.
-/

namespace Riley.Offsets

variable {α β : Type}

/-- Where the list of that index begins. -/
def offset (parts : List (List α)) (index : Nat) : Nat := (parts.take index).flatten.length

def offsets (parts : List (List α)) : List Nat :=
  (List.range (parts.length + 1)).map (offset parts)

@[simp] theorem length_offsets (parts : List (List α)) :
    (offsets parts).length = parts.length + 1 := by
  simp [offsets]

@[simp] theorem offsets_nil : offsets ([] : List (List α)) = [0] := rfl

theorem getElem?_offsets {parts : List (List α)} {index : Nat} (h : index ≤ parts.length) :
    (offsets parts)[index]? = some (offset parts index) := by
  rw [offsets, List.getElem?_map, List.getElem?_range (Nat.lt_succ_of_le h), Option.map_some]

theorem offset_append {parts : List (List α)} {index : Nat} (h : index ≤ parts.length)
    (more : List (List α)) : offset (parts ++ more) index = offset parts index := by
  rw [offset, offset, List.take_append_of_le_length h]

theorem offset_succ {parts : List (List α)} {index : Nat} {part : List α}
    (h : parts[index]? = some part) :
    offset parts (index + 1) = offset parts index + part.length := by
  obtain ⟨hlt, hpart⟩ := List.getElem?_eq_some_iff.mp h
  rw [offset, offset, List.take_succ_eq_append_getElem hlt, hpart, List.flatten_append,
    List.length_append, List.flatten_singleton]

theorem offset_le (parts : List (List α)) (index : Nat) :
    offset parts index ≤ parts.flatten.length := by
  conv => rhs; rw [← List.take_append_drop index parts]
  rw [List.flatten_append, List.length_append]
  exact Nat.le_add_right _ _

/-- Laying down one more list. -/
theorem offsets_concat (parts : List (List α)) (part : List α) :
    offsets (parts ++ [part]) = offsets parts ++ [parts.flatten.length + part.length] := by
  have hlast : offset (parts ++ [part]) (parts.length + 1) = parts.flatten.length + part.length := by
    rw [offset, List.take_of_length_le (by simp)]
    simp
  rw [offsets, List.length_append, List.length_singleton, List.range_succ, List.map_append,
    List.map_singleton, hlast, offsets]
  congr 1
  apply List.map_congr_left
  intro index hindex
  exact offset_append (Nat.lt_succ_iff.mp (List.mem_range.mp hindex)) [part]

/-- Lists of the same lengths begin at the same places. -/
theorem offset_congr {parts : List (List α)} {others : List (List β)}
    (h : parts.map List.length = others.map List.length) (index : Nat) :
    offset parts index = offset others index := by
  rw [offset, offset, List.length_flatten, List.length_flatten, List.map_take, List.map_take, h]

theorem offsets_congr {parts : List (List α)} {others : List (List β)}
    (h : parts.map List.length = others.map List.length) : offsets parts = offsets others := by
  have hlength : parts.length = others.length := by
    simpa using congrArg List.length h
  rw [offsets, offsets, hlength]
  apply List.map_congr_left
  intro index _
  exact offset_congr h index

/-- What stands between two offsets is the list that begins at the first. -/
theorem slice_offsets {parts : List (List α)} {index : Nat} {part : List α}
    (h : parts[index]? = some part) :
    (parts.flatten.take (offset parts (index + 1))).drop (offset parts index) = part := by
  obtain ⟨hlt, hpart⟩ := List.getElem?_eq_some_iff.mp h
  have hwhole : parts.flatten =
      (parts.take (index + 1)).flatten ++ (parts.drop (index + 1)).flatten := by
    rw [← List.flatten_append, List.take_append_drop]
  have hfront : (parts.take (index + 1)).flatten = (parts.take index).flatten ++ part := by
    rw [List.take_succ_eq_append_getElem hlt, hpart, List.flatten_append, List.flatten_singleton]
  rw [hwhole, offset, offset, List.take_left, hfront, List.drop_left]

/-- An item of a list, read off the whole. -/
theorem getElem?_flatten {parts : List (List α)} {index : Nat} {part : List α}
    (h : parts[index]? = some part) {place : Nat} (hplace : place < part.length) :
    parts.flatten[offset parts index + place]? = part[place]? := by
  have hpart := slice_offsets h
  have hstop := offset_succ h
  conv => rhs; rw [← hpart]
  rw [List.getElem?_drop, List.getElem?_take_of_lt (by omega)]

section Slices

/-- What stands between two places, if they are there in this order. -/
def slice (items : List α) (start stop : Nat) : Option (List α) :=
  if start ≤ stop ∧ stop ≤ items.length then some ((items.drop start).take (stop - start)) else none

theorem slice_eq_some {items part : List α} {start stop : Nat} :
    slice items start stop = some part ↔
      ∃ before after, items = before ++ part ++ after ∧ before.length = start ∧
        start + part.length = stop := by
  unfold slice
  constructor
  · intro h
    split at h
    · next hrange =>
        obtain rfl := Option.some.inj h
        have hlength : ((items.drop start).take (stop - start)).length = stop - start := by
          simp
          omega
        have hend : (items.drop start).drop (stop - start) = items.drop stop := by
          rw [List.drop_drop]
          congr 1
          omega
        refine ⟨items.take start, items.drop stop, ?_, by simp; omega, by omega⟩
        rw [← hend, List.append_assoc, List.take_append_drop, List.take_append_drop]
    · cases h
  · rintro ⟨before, after, rfl, rfl, rfl⟩
    rw [if_pos (by simp)]
    simp [List.append_assoc]

theorem slice_of_le {items : List α} {start stop : Nat} (h : start ≤ stop)
    (hstop : stop ≤ items.length) :
    slice items start stop = some ((items.drop start).take (stop - start)) := if_pos ⟨h, hstop⟩

theorem slice_eq_none {items : List α} {start stop : Nat} :
    slice items start stop = none ↔ ¬ (start ≤ stop ∧ stop ≤ items.length) := by
  unfold slice
  split <;> simp_all

end Slices

end Riley.Offsets
