import Mathlib.Data.List.Sort
import Mathlib.Tactic.Common

/-!
Intervals that cover a range of places, each place once. Whether they do is decided by one
sweep over them in the order of their starts.
-/

namespace Riley.Tiling

/-- Whether a place is in an interval. -/
def Within (interval : Nat × Nat) (place : Nat) : Prop :=
  interval.1 ≤ place ∧ place < interval.2

/-- No place is in both intervals. -/
def Disjoint (first second : Nat × Nat) : Prop :=
  ∀ place, ¬ (Within first place ∧ Within second place)

/-- Intervals cover the places from `low` to `high`, and none of them begins amid
another. -/
structure Tiles (low high : Nat) (intervals : List (Nat × Nat)) : Prop where
  inside : ∀ interval ∈ intervals, low ≤ interval.1 ∧ interval.1 ≤ interval.2 ∧ interval.2 ≤ high
  disjoint : intervals.Pairwise Disjoint
  covered : ∀ place, low ≤ place → place < high → ∃ interval ∈ intervals, Within interval place
  onBounds : ∀ interval ∈ intervals, ∀ other ∈ intervals,
    ¬ (other.1 < interval.1 ∧ interval.1 < other.2)

/-- Intervals that begin where the one before ends. -/
def Chain : Nat → Nat → List (Nat × Nat) → Prop
  | low, high, [] => low = high
  | low, high, interval :: rest =>
      interval.1 = low ∧ interval.1 ≤ interval.2 ∧ Chain interval.2 high rest

/-- An interval comes before another one that begins or ends later. -/
def Before (first second : Nat × Nat) : Prop :=
  first.1 < second.1 ∨ first.1 = second.1 ∧ first.2 ≤ second.2

variable {low high : Nat} {interval : Nat × Nat} {intervals others : List (Nat × Nat)}

theorem Disjoint.symm {first second : Nat × Nat} (h : Disjoint first second) :
    Disjoint second first := fun place hplace => h place hplace.symm

theorem Tiles.perm (h : Tiles low high intervals) (hperm : intervals.Perm others) :
    Tiles low high others where
  inside := fun interval hmem => h.inside interval (hperm.mem_iff.mpr hmem)
  disjoint := hperm.pairwise h.disjoint Disjoint.symm
  covered := by
    intro place hlow hhigh
    obtain ⟨interval, hmem, hwithin⟩ := h.covered place hlow hhigh
    exact ⟨interval, hperm.mem_iff.mp hmem, hwithin⟩
  onBounds := fun interval hmem other hother =>
    h.onBounds interval (hperm.mem_iff.mpr hmem) other (hperm.mem_iff.mpr hother)

section Chains

theorem Chain.le (h : Chain low high intervals) : low ≤ high := by
  induction intervals generalizing low with
  | nil => exact Nat.le_of_eq h
  | cons interval rest ih =>
      obtain ⟨hstart, hle, hrest⟩ := h
      have := ih hrest
      omega

theorem Chain.inside (h : Chain low high intervals) :
    ∀ interval ∈ intervals, low ≤ interval.1 ∧ interval.1 ≤ interval.2 ∧ interval.2 ≤ high := by
  induction intervals generalizing low with
  | nil => simp
  | cons interval rest ih =>
      obtain ⟨hstart, hle, hrest⟩ := h
      have htail := hrest.le
      intro other hmem
      rcases List.mem_cons.mp hmem with rfl | hmem
      · omega
      · have := ih hrest other hmem
        omega

/-- A chain tiles what it runs over. -/
theorem Chain.tiles (h : Chain low high intervals) : Tiles low high intervals := by
  induction intervals generalizing low with
  | nil =>
      obtain rfl : low = high := h
      exact ⟨by simp, .nil, fun place hlow hhigh => by omega, by simp⟩
  | cons interval rest ih =>
      have hinside := h.inside
      obtain ⟨hstart, hle, hrest⟩ := h
      have htiles := ih hrest
      have hbehind : ∀ other ∈ rest, interval.2 ≤ other.1 := fun other hmem =>
        (htiles.inside other hmem).1
      refine ⟨hinside, ?_, ?_, ?_⟩
      · apply List.Pairwise.cons _ htiles.disjoint
        intro other hmem place hplace
        have := hbehind other hmem
        have hfirst := hplace.1.2
        have hsecond := hplace.2.1
        omega
      · intro place hlow hhigh
        by_cases hwithin : place < interval.2
        · exact ⟨interval, List.mem_cons_self, by omega, hwithin⟩
        · obtain ⟨other, hmem, hother⟩ := htiles.covered place (by omega) hhigh
          exact ⟨other, List.mem_cons_of_mem _ hmem, hother⟩
      · intro first hfirst second hsecond
        rcases List.mem_cons.mp hfirst with rfl | hfirstRest <;>
          rcases List.mem_cons.mp hsecond with rfl | hsecondRest
        · omega
        · have := hbehind second hsecondRest
          omega
        · have := hbehind first hfirstRest
          omega
        · exact htiles.onBounds first hfirstRest second hsecondRest

/-- What tiles a range starts with its beginning, if the first interval comes first. -/
theorem Tiles.uncons (h : Tiles low high (interval :: intervals))
    (hbefore : ∀ other ∈ intervals, Before interval other) :
    interval.1 = low ∧ interval.1 ≤ interval.2 ∧ Tiles interval.2 high intervals := by
  obtain ⟨hlow, hle, hhigh⟩ := h.inside interval List.mem_cons_self
  have hapart := List.pairwise_cons.mp h.disjoint
  have hstart : interval.1 = low := by
    by_contra hne
    obtain ⟨other, hmem, hwithin⟩ := h.covered low (Nat.le_refl _) (by omega)
    rcases List.mem_cons.mp hmem with rfl | hmem
    · exact hne (Nat.le_antisymm hwithin.1 hlow)
    · have hother := hbefore other hmem
      have hbegins := hwithin.1
      unfold Before at hother
      omega
  -- A later interval that began inside the first would overlap it or be cut by it.
  have hbehind : ∀ other ∈ intervals, interval.2 ≤ other.1 := by
    intro other hmem
    by_contra hinside
    have hcut := h.onBounds other (List.mem_cons_of_mem _ hmem) interval List.mem_cons_self
    have hother := hbefore other hmem
    unfold Before at hother
    have hsame : interval.1 = other.1 := by omega
    exact hapart.1 other hmem interval.1 ⟨⟨by omega, by omega⟩, ⟨by omega, by omega⟩⟩
  refine ⟨hstart, hle, ?_, hapart.2, ?_, ?_⟩
  · intro other hmem
    have hother := h.inside other (List.mem_cons_of_mem _ hmem)
    have := hbehind other hmem
    omega
  · intro place hplace hbelow
    obtain ⟨other, hmem, hwithin⟩ := h.covered place (by omega) hbelow
    rcases List.mem_cons.mp hmem with rfl | hmem
    · have := hwithin.2
      omega
    · exact ⟨other, hmem, hwithin⟩
  · intro first hfirst second hsecond
    exact h.onBounds first (List.mem_cons_of_mem _ hfirst) second
      (List.mem_cons_of_mem _ hsecond)

theorem Tiles.chain (h : Tiles low high intervals) (hle : low ≤ high)
    (hsorted : intervals.Pairwise Before) : Chain low high intervals := by
  induction intervals generalizing low with
  | nil =>
      by_contra hne
      obtain ⟨_, hmem, _⟩ := h.covered low (Nat.le_refl _) (Nat.lt_of_le_of_ne hle hne)
      cases hmem
  | cons interval rest ih =>
      obtain ⟨hbefore, hrest⟩ := List.pairwise_cons.mp hsorted
      obtain ⟨hstart, hordered, htiles⟩ := h.uncons hbefore
      have hhigh := (h.inside interval List.mem_cons_self).2.2
      exact ⟨hstart, hordered, ih htiles hhigh hrest⟩

/-- Intervals tile a range if and only if they are a chain once they are in order. -/
theorem tiles_iff_chain (hle : low ≤ high) (hperm : intervals.Perm others)
    (hsorted : others.Pairwise Before) : Tiles low high intervals ↔ Chain low high others :=
  ⟨fun h => (h.perm hperm).chain hle hsorted, fun h => h.tiles.perm hperm.symm⟩

end Chains

section Shifts

/-- An interval further on. -/
def shift (offset : Nat) (interval : Nat × Nat) : Nat × Nat :=
  (offset + interval.1, offset + interval.2)

theorem chain_shift (offset : Nat) :
    Chain (offset + low) (offset + high) (intervals.map (shift offset)) ↔
      Chain low high intervals := by
  induction intervals generalizing low with
  | nil => exact Nat.add_left_cancel_iff
  | cons interval rest ih =>
      rw [List.map_cons, Chain, Chain, ← @ih interval.2]
      simp only [shift, Nat.add_left_cancel_iff, Nat.add_le_add_iff_left]

theorem before_shift (offset : Nat) {first second : Nat × Nat}
    (h : Before first second) : Before (shift offset first) (shift offset second) := by
  simp only [Before, shift] at h ⊢
  omega

instance (first second : Nat × Nat) : Decidable (Before first second) :=
  inferInstanceAs (Decidable (_ ∨ _))

theorem exists_sorted (intervals : List (Nat × Nat)) :
    ∃ sorted, intervals.Perm sorted ∧ sorted.Pairwise Before := by
  have htrans : ∀ first second third : Nat × Nat, decide (Before first second) = true →
      decide (Before second third) = true → decide (Before first third) = true := by
    intro first second third hfirst hsecond
    simp only [decide_eq_true_eq] at hfirst hsecond ⊢
    unfold Before at *
    omega
  have htotal : ∀ first second : Nat × Nat,
      (decide (Before first second) || decide (Before second first)) = true := by
    intro first second
    simp only [Bool.or_eq_true, decide_eq_true_eq]
    unfold Before
    omega
  exact ⟨_, (List.mergeSort_perm _ _).symm,
    (List.pairwise_mergeSort htrans htotal intervals).imp of_decide_eq_true⟩

theorem tiles_shift (hle : low ≤ high) (offset : Nat) :
    Tiles (offset + low) (offset + high) (intervals.map (shift offset)) ↔
      Tiles low high intervals := by
  obtain ⟨sorted, hperm, hsorted⟩ := exists_sorted intervals
  have hshifted : (sorted.map (shift offset)).Pairwise Before :=
    List.pairwise_map.mpr (hsorted.imp (before_shift offset))
  rw [tiles_iff_chain hle hperm hsorted,
    tiles_iff_chain (Nat.add_le_add_left hle offset) (hperm.map _) hshifted, chain_shift]

end Shifts

end Riley.Tiling
