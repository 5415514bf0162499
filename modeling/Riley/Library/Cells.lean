import Mathlib.Tactic.Common

/-!
Numbers of 16 bits among bytes, the low byte first: reading one, writing one, and rewriting
many that lie one behind another. What is rewritten is all that changes.
-/

namespace Riley.Cells

section Words

def join (low high : UInt8) : UInt16 := UInt16.ofNat (low.toNat + 256 * high.toNat)

def low (value : UInt16) : UInt8 := UInt8.ofNat value.toNat

def high (value : UInt16) : UInt8 := UInt8.ofNat (value.toNat / 256)

@[simp] theorem join_low_high (value : UInt16) : join (low value) (high value) = value := by
  have hvalue := value.toNat_lt
  apply UInt16.toNat_inj.mp
  simp only [join, low, high, UInt16.toNat_ofNat', UInt8.toNat_ofNat']
  omega

@[simp] theorem low_join (first second : UInt8) : low (join first second) = first := by
  have hfirst := first.toNat_lt
  have hsecond := second.toNat_lt
  apply UInt8.toNat_inj.mp
  simp only [join, low, UInt16.toNat_ofNat', UInt8.toNat_ofNat']
  omega

@[simp] theorem high_join (first second : UInt8) : high (join first second) = second := by
  have hfirst := first.toNat_lt
  have hsecond := second.toNat_lt
  apply UInt8.toNat_inj.mp
  simp only [join, high, UInt16.toNat_ofNat', UInt8.toNat_ofNat']
  omega

end Words

def cell (bytes : List UInt8) (place : Nat) : Option UInt16 := do
  let first ← bytes[place]?
  let second ← bytes[place + 1]?
  some (join first second)

def setCell (bytes : List UInt8) (place : Nat) (value : UInt16) : List UInt8 :=
  (bytes.set place (low value)).set (place + 1) (high value)

/-- So many cells from a place on, each rewritten by its number. -/
def rewrite (f : Nat → UInt16 → UInt16) (start : Nat) : Nat → List UInt8 → List UInt8
  | 0, bytes => bytes
  | count + 1, bytes =>
      let before := rewrite f start count bytes
      match cell before (start + 2 * count) with
      | some value => setCell before (start + 2 * count) (f count value)
      | none => before

section Cell

variable {bytes others : List UInt8} {place : Nat} {value : UInt16}

theorem cell_eq_some :
    cell bytes place = some value ↔
      bytes[place]? = some (low value) ∧ bytes[place + 1]? = some (high value) := by
  unfold cell
  constructor
  · intro h
    obtain ⟨first, hfirst, h⟩ := Option.bind_eq_some_iff.mp h
    obtain ⟨second, hsecond, h⟩ := Option.bind_eq_some_iff.mp h
    obtain rfl := Option.some.inj h
    rw [low_join, high_join]
    exact ⟨hfirst, hsecond⟩
  · rintro ⟨hfirst, hsecond⟩
    simp [hfirst, hsecond]

theorem cell_exists (h : place + 1 < bytes.length) : ∃ value, cell bytes place = some value := by
  refine ⟨join bytes[place] bytes[place + 1], ?_⟩
  simp [cell, h, Nat.lt_of_succ_lt h]

theorem cell_congr (hfirst : others[place]? = bytes[place]?)
    (hsecond : others[place + 1]? = bytes[place + 1]?) : cell others place = cell bytes place := by
  simp only [cell, hfirst, hsecond]

@[simp] theorem length_setCell : (setCell bytes place value).length = bytes.length := by
  simp [setCell]

theorem getElem?_setCell_of_ne {other : Nat} (hfirst : other ≠ place)
    (hsecond : other ≠ place + 1) : (setCell bytes place value)[other]? = bytes[other]? := by
  rw [setCell, List.getElem?_set_ne (by omega), List.getElem?_set_ne (by omega)]

theorem cell_setCell (h : place + 1 < bytes.length) :
    cell (setCell bytes place value) place = some value := by
  rw [cell_eq_some]
  constructor
  · rw [setCell, List.getElem?_set_ne (by omega), List.getElem?_set_self (by omega)]
  · rw [setCell, List.getElem?_set_self (by simpa using h)]

section Parts

variable {before middle after : List UInt8}

theorem cell_append (h : place + 1 < middle.length) :
    cell (before ++ middle ++ after) (before.length + place) = cell middle place := by
  simp only [cell, List.append_assoc, Nat.add_assoc]
  rw [List.getElem?_append_right (Nat.le_add_right _ _),
    List.getElem?_append_right (Nat.le_add_right _ _), Nat.add_sub_cancel_left,
    Nat.add_sub_cancel_left, List.getElem?_append_left (by omega),
    List.getElem?_append_left (by omega)]

theorem setCell_append (h : place + 1 < middle.length) :
    setCell (before ++ middle ++ after) (before.length + place) value =
      before ++ setCell middle place value ++ after := by
  have hset : ∀ (bytes : List UInt8) (other : Nat) (byte : UInt8), other < bytes.length →
      (before ++ bytes ++ after).set (before.length + other) byte =
        before ++ bytes.set other byte ++ after := by
    intro bytes other byte hother
    rw [List.append_assoc, List.set_append_right _ _ (Nat.le_add_right _ _),
      Nat.add_sub_cancel_left, List.set_append_left _ _ hother, List.append_assoc]
  rw [setCell, hset _ _ _ (by omega), Nat.add_assoc, hset _ _ _ (by simpa using h), setCell]

end Parts

end Cell

section Rewriting

variable {f : Nat → UInt16 → UInt16} {start count : Nat} {bytes : List UInt8}

@[simp] theorem length_rewrite (f : Nat → UInt16 → UInt16) (start count : Nat)
    (bytes : List UInt8) : (rewrite f start count bytes).length = bytes.length := by
  induction count with
  | zero => rfl
  | succ count ih =>
      rw [rewrite]
      split
      · rw [length_setCell, ih]
      · exact ih

/-- What lies outside the cells stays. -/
theorem getElem?_rewrite {place : Nat} (h : place < start ∨ start + 2 * count ≤ place) :
    (rewrite f start count bytes)[place]? = bytes[place]? := by
  induction count with
  | zero => rfl
  | succ count ih =>
      rw [rewrite]
      split
      · rw [getElem?_setCell_of_ne (by omega) (by omega), ih (by omega)]
      · exact ih (by omega)

/-- A cell is rewritten once. -/
theorem cell_rewrite (hfits : start + 2 * count ≤ bytes.length) {index : Nat}
    (hindex : index < count) :
    cell (rewrite f start count bytes) (start + 2 * index) =
      (cell bytes (start + 2 * index)).map (f index) := by
  induction count with
  | zero => cases hindex
  | succ count ih =>
      have hbefore : cell (rewrite f start count bytes) (start + 2 * count) =
          cell bytes (start + 2 * count) :=
        cell_congr (getElem?_rewrite (by omega)) (getElem?_rewrite (by omega))
      obtain ⟨value, hvalue⟩ := @cell_exists bytes (start + 2 * count) (by omega)
      rw [rewrite, hbefore, hvalue]
      dsimp only
      by_cases hlast : index = count
      · subst hlast
        rw [hvalue, Option.map_some]
        exact cell_setCell (by rw [length_rewrite]; omega)
      · have hmember := ih (by omega) (by omega)
        rw [← hmember]
        exact cell_congr (getElem?_setCell_of_ne (by omega) (by omega))
          (getElem?_setCell_of_ne (by omega) (by omega))

theorem rewrite_congr {g : Nat → UInt16 → UInt16} (h : ∀ index < count, f index = g index) :
    rewrite f start count bytes = rewrite g start count bytes := by
  induction count with
  | zero => rfl
  | succ count ih =>
      rw [rewrite, rewrite, ih fun index hindex => h index (Nat.lt_succ_of_lt hindex),
        h count (Nat.lt_succ_self count)]

/-- Cells that are rewritten in two parts. -/
theorem rewrite_add (f : Nat → UInt16 → UInt16) (start first second : Nat) (bytes : List UInt8) :
    rewrite f start (first + second) bytes =
      rewrite (fun index => f (first + index)) (start + 2 * first) second
        (rewrite f start first bytes) := by
  induction second with
  | zero => rfl
  | succ second ih =>
      have hplace : start + 2 * (first + second) = start + 2 * first + 2 * second := by omega
      rw [← Nat.add_assoc, rewrite, rewrite, ih, hplace]

/-- Rewriting cells of a part of the bytes. -/
theorem rewrite_append (f : Nat → UInt16 → UInt16) {before middle after : List UInt8}
    (hfits : 2 * count ≤ middle.length) :
    before ++ rewrite f 0 count middle ++ after =
      rewrite f before.length count (before ++ middle ++ after) := by
  induction count with
  | zero => rfl
  | succ count ih =>
      have hlength := length_rewrite f 0 count middle
      obtain ⟨value, hvalue⟩ := @cell_exists (rewrite f 0 count middle) (2 * count) (by omega)
      rw [rewrite, rewrite, ← ih (by omega), Nat.zero_add,
        cell_append (by omega), hvalue]
      exact (setCell_append (by omega)).symm

end Rewriting

end Riley.Cells
