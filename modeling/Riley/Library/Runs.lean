import Mathlib.Algebra.BigOperators.Intervals

/-!
Lists that are cut into runs of one length, and sums that are cut so.
-/

namespace Riley.Runs

variable {α : Type}

/-- The run at an index. -/
def run (items : List α) (width index : Nat) : List α := (items.drop (index * width)).take width

theorem length_run {items : List α} {width index : Nat} (h : (index + 1) * width ≤ items.length) :
    (run items width index).length = width := by
  rw [Nat.succ_mul] at h
  rw [run, List.length_take, List.length_drop]
  omega

@[simp] theorem run_nil (width index : Nat) : run ([] : List α) width index = [] := by
  rw [run, List.drop_nil, List.take_nil]

@[simp] theorem run_zero (items : List α) (index : Nat) : run items 0 index = [] := rfl

/-- The runs of a list are the list. -/
theorem flatMap_run {items : List α} {count width : Nat} (h : items.length = count * width) :
    (List.range count).flatMap (run items width) = items := by
  have htake : ∀ count, (List.range count).flatMap (run items width) =
      items.take (count * width) := by
    intro count
    induction count with
    | zero =>
        rw [Nat.zero_mul]
        rfl
    | succ count ih =>
        rw [List.range_succ, List.flatMap_append, ih, List.flatMap_singleton, run, Nat.succ_mul,
          List.take_add]
  rw [htake, ← h, List.take_length]

theorem length_flatMap_range {part : Nat → List α} {count width : Nat}
    (h : ∀ index < count, (part index).length = width) :
    ((List.range count).flatMap part).length = count * width := by
  induction count with
  | zero =>
      rw [Nat.zero_mul]
      rfl
  | succ count ih =>
      rw [List.range_succ, List.flatMap_append, List.flatMap_singleton, List.length_append,
        ih fun index hlt => h index (Nat.lt_succ_of_lt hlt), h count (Nat.lt_succ_self count),
        Nat.succ_mul]

/-- The runs of parts of one length are the parts. -/
theorem run_flatMap {part : Nat → List α} {count width index : Nat}
    (h : ∀ index < count, (part index).length = width) (hindex : index < count) :
    run ((List.range count).flatMap part) width index = part index := by
  have hsplit : List.range count =
      List.range index ++ index :: (List.range (count - (index + 1))).map (index + 1 + ·) := by
    have hcount : count = index + 1 + (count - (index + 1)) := by omega
    conv_lhs => rw [hcount, List.range_add, List.range_succ, List.append_assoc]
    rfl
  have hlength := length_flatMap_range fun other (hlt : other < index) =>
    h other (Nat.lt_trans hlt hindex)
  rw [run, hsplit, List.flatMap_append, List.flatMap_cons, ← hlength, List.drop_left,
    ← h index hindex, List.take_left]

/-- A run of a run is a run. -/
theorem run_run (items : List α) {count width inner : Nat} (outer : Nat) (h : inner < count) :
    run (run items (count * width) outer) width inner =
      run items width (outer * count + inner) := by
  have hle : (inner + 1) * width ≤ count * width := Nat.mul_le_mul_right width h
  rw [Nat.succ_mul] at hle
  rw [run, run, run, List.drop_take, List.take_take, List.drop_drop, Nat.add_mul, Nat.mul_assoc,
    Nat.min_eq_left (by omega)]

theorem range_mul (first second : Nat) :
    List.range (first * second) = (List.range first).flatMap fun outer =>
      (List.range second).map fun inner => outer * second + inner := by
  induction first with
  | zero =>
      rw [Nat.zero_mul]
      rfl
  | succ first ih =>
      rw [Nat.succ_mul, List.range_add, ih, List.range_succ, List.flatMap_append,
        List.flatMap_singleton]

/-- A sum over runs of one length. -/
theorem sum_range_mul {R : Type} [AddCommMonoid R] (count width : Nat) (term : Nat → R) :
    ∑ place ∈ Finset.range (count * width), term place =
      ∑ index ∈ Finset.range count, ∑ inner ∈ Finset.range width, term (index * width + inner) := by
  induction count with
  | zero => rw [Nat.zero_mul, Finset.sum_range_zero, Finset.sum_range_zero]
  | succ count ih => rw [Nat.succ_mul, Finset.sum_range_add, ih, Finset.sum_range_succ]

end Riley.Runs
