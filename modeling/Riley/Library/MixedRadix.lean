import Mathlib.Algebra.BigOperators.Group.List.Basic
import Mathlib.Tactic.Common

/-!
Numbers written with a radix of its own at each place, most significant place first. Digits
below their radices write each number below the product once, so cells of one width laid out
by their numbers fill a range without overlapping.
-/

namespace Riley.MixedRadix

/-- A digit below its radix at each place. -/
abbrev Digits : List Nat → List Nat → Prop := List.Forall₂ fun radix digit => digit < radix

def number : List Nat → List Nat → Nat
  | _ :: radices, digit :: digits => digit * radices.prod + number radices digits
  | _, _ => 0

variable {radices digits digits' : List Nat} {width : Nat}

@[simp] theorem number_nil (digits : List Nat) : number [] digits = 0 := rfl

@[simp] theorem number_cons (radix : Nat) (radices : List Nat) (digit : Nat) (digits : List Nat) :
    number (radix :: radices) (digit :: digits) =
      digit * radices.prod + number radices digits := rfl

/-- Digits, place by place. -/
theorem digits_iff : Digits radices digits ↔ radices.length = digits.length ∧
    ∀ (place radix digit : Nat), radices[place]? = some radix → digits[place]? = some digit →
      digit < radix := by
  rw [Digits, List.forall₂_iff_get]
  constructor
  · rintro ⟨hlength, hall⟩
    refine ⟨hlength, ?_⟩
    intro place radix digit hradix hdigit
    obtain ⟨hlt, rfl⟩ := List.getElem?_eq_some_iff.mp hradix
    obtain ⟨hlt', rfl⟩ := List.getElem?_eq_some_iff.mp hdigit
    exact hall place hlt hlt'
  · rintro ⟨hlength, hall⟩
    exact ⟨hlength, fun place hlt hlt' =>
      hall place _ _ (List.getElem?_eq_getElem hlt) (List.getElem?_eq_getElem hlt')⟩

theorem number_lt (h : Digits radices digits) : number radices digits < radices.prod := by
  induction h with
  | nil => exact Nat.one_pos
  | @cons radix digit radices digits hdigit _ ih =>
      rw [number_cons, List.prod_cons]
      calc digit * radices.prod + number radices digits
          < digit * radices.prod + radices.prod := Nat.add_lt_add_left ih _
        _ = (digit + 1) * radices.prod := (Nat.succ_mul _ _).symm
        _ ≤ radix * radices.prod := Nat.mul_le_mul_right _ hdigit

theorem number_injective (h : Digits radices digits) (h' : Digits radices digits')
    (heq : number radices digits = number radices digits') : digits = digits' := by
  induction h generalizing digits' with
  | nil =>
      cases h'
      rfl
  | @cons radix digit radices digits _ hdigits ih =>
      cases h' with
      | @cons _ digit' _ digits' _ hdigits' =>
          have hlt := number_lt hdigits
          have hlt' := number_lt hdigits'
          have hpos : 0 < radices.prod := Nat.zero_lt_of_lt hlt
          rw [number_cons, number_cons, Nat.mul_comm digit, Nat.mul_comm digit'] at heq
          have hhead : digit = digit' := by
            have hdiv := congrArg (· / radices.prod) heq
            simp only [Nat.mul_add_div hpos, Nat.div_eq_of_lt hlt, Nat.div_eq_of_lt hlt',
              Nat.add_zero] at hdiv
            exact hdiv
          subst hhead
          rw [ih hdigits' (Nat.add_left_cancel heq)]

/-- A cell ends inside the range of all cells. -/
theorem cell_le (h : Digits radices digits) :
    width * number radices digits + width ≤ width * radices.prod := by
  rw [← Nat.mul_succ]
  exact Nat.mul_le_mul_left _ (number_lt h)

/-- Cells with different digits lie one after the other. -/
theorem cells_apart (h : Digits radices digits) (h' : Digits radices digits')
    (hne : digits ≠ digits') :
    width * number radices digits + width ≤ width * number radices digits' ∨
      width * number radices digits' + width ≤ width * number radices digits := by
  have hnumbers : number radices digits ≠ number radices digits' :=
    fun heq => hne (number_injective h h' heq)
  rcases Nat.lt_or_gt_of_ne hnumbers with hlt | hgt
  · left
    rw [← Nat.mul_succ]
    exact Nat.mul_le_mul_left _ hlt
  · right
    rw [← Nat.mul_succ]
    exact Nat.mul_le_mul_left _ hgt

section Writing

/-- The digits of a number. -/
def digitsOf : List Nat → Nat → List Nat
  | [], _ => []
  | _ :: radices, value => value / radices.prod :: digitsOf radices (value % radices.prod)

theorem digits_digitsOf {value : Nat} (h : value < radices.prod) :
    Digits radices (digitsOf radices value) := by
  induction radices generalizing value with
  | nil => exact .nil
  | cons radix radices ih =>
      rw [List.prod_cons] at h
      have hpos : 0 < radices.prod := Nat.pos_of_mul_pos_left (Nat.zero_lt_of_lt h)
      exact .cons (Nat.div_lt_of_lt_mul (by rwa [Nat.mul_comm] at h)) (ih (Nat.mod_lt _ hpos))

theorem number_digitsOf {value : Nat} (h : value < radices.prod) :
    number radices (digitsOf radices value) = value := by
  induction radices generalizing value with
  | nil => exact (Nat.lt_one_iff.mp h).symm
  | cons radix radices ih =>
      rw [List.prod_cons] at h
      have hpos : 0 < radices.prod := Nat.pos_of_mul_pos_left (Nat.zero_lt_of_lt h)
      rw [digitsOf, number_cons, ih (Nat.mod_lt _ hpos), Nat.mul_comm, Nat.div_add_mod]

theorem digitsOf_number (h : Digits radices digits) :
    digitsOf radices (number radices digits) = digits :=
  number_injective (digits_digitsOf (number_lt h)) h (number_digitsOf (number_lt h))

/-- All digits, in the order of nested loops, the outermost place first. -/
def sequences : List Nat → List (List Nat)
  | [] => [[]]
  | radix :: radices =>
      (List.range radix).flatMap fun digit => (sequences radices).map (digit :: ·)

theorem mem_sequences : digits ∈ sequences radices ↔ Digits radices digits := by
  induction radices generalizing digits with
  | nil =>
      rw [sequences, List.mem_singleton]
      constructor
      · rintro rfl
        exact .nil
      · intro h
        cases h
        rfl
  | cons radix radices ih =>
      rw [sequences, List.mem_flatMap]
      constructor
      · rintro ⟨digit, hdigit, hmem⟩
        obtain ⟨rest, hrest, rfl⟩ := List.mem_map.mp hmem
        exact .cons (List.mem_range.mp hdigit) (ih.mp hrest)
      · intro h
        cases h with
        | cons hdigit hrest =>
            exact ⟨_, List.mem_range.mpr hdigit, List.mem_map.mpr ⟨_, ih.mpr hrest, rfl⟩⟩

/-- Nested loops count. -/
theorem map_number_sequences :
    (sequences radices).map (number radices) = List.range radices.prod := by
  induction radices with
  | nil => rfl
  | cons radix radices ih =>
      have hinner : ∀ digit, ((sequences radices).map (digit :: ·)).map
          (number (radix :: radices)) =
            (List.range radices.prod).map (digit * radices.prod + ·) := by
        intro digit
        rw [← ih, List.map_map, List.map_map]
        rfl
      have hcount : ∀ count, (List.range count).flatMap (fun digit =>
          (List.range radices.prod).map (digit * radices.prod + ·)) =
            List.range (count * radices.prod) := by
        intro count
        induction count with
        | zero => simp
        | succ count ihCount =>
            rw [List.range_succ, List.flatMap_append, ihCount, List.flatMap_singleton,
              Nat.succ_mul, List.range_add]
      rw [sequences, List.map_flatMap, List.prod_cons, ← hcount]
      simp only [hinner]

theorem length_sequences : (sequences radices).length = radices.prod := by
  have hlength := congrArg List.length (@map_number_sequences radices)
  rwa [List.length_map, List.length_range] at hlength

/-- The digits stand where they count. -/
theorem getElem?_sequences (h : Digits radices digits) :
    (sequences radices)[number radices digits]? = some digits := by
  have hlt := number_lt h
  have hin : number radices digits < (sequences radices).length := by
    rwa [length_sequences]
  have hnumbers := congrArg (·[number radices digits]?) (@map_number_sequences radices)
  simp only [List.getElem?_map, List.getElem?_eq_getElem hin, Option.map_some,
    List.getElem?_range hlt, Option.some.injEq] at hnumbers
  rw [List.getElem?_eq_getElem hin]
  exact congrArg some
    (number_injective (mem_sequences.mp (List.getElem_mem hin)) h hnumbers)

end Writing

end Riley.MixedRadix
