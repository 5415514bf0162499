import Mathlib.Data.List.Basic
import Mathlib.Data.List.Induction
import Mathlib.Tactic.Common

/-!
Numbers written in decimal. A numeral without needless zeros is the one of its value,
so that reading and writing are inverse to one another on such numerals.
-/

namespace Riley.Numerals

/-- Digits that do not begin with a zero, unless it is the only one. -/
structure Canonical (digits : List Char) : Prop where
  nonempty : digits ≠ []
  digit : ∀ c ∈ digits, c.isDigit = true
  leading : digits.length = 1 ∨ digits.head? ≠ some '0'

/-- The number that digits stand for. -/
def value (digits : List Char) : Nat := Nat.ofDigitChars 10 digits 0

theorem value_toDigits (n : Nat) : value (Nat.toDigits 10 n) = n := Nat.ofDigitChars_ten_toDigits

theorem value_snoc (digits : List Char) (last : Char) :
    value (digits ++ [last]) = 10 * value digits + (last.toNat - 48) := by
  rw [value, Nat.ofDigitChars_append, Nat.ofDigitChars_cons, Nat.ofDigitChars_nil]
  rfl

theorem digit_bounds {c : Char} (h : c.isDigit = true) : 48 ≤ c.toNat ∧ c.toNat ≤ 57 := by
  rw [Char.isDigit, Bool.and_eq_true, decide_eq_true_eq, decide_eq_true_eq] at h
  exact h

theorem digitChar_sub {c : Char} (h : c.isDigit = true) : Nat.digitChar (c.toNat - 48) = c := by
  obtain ⟨hlow, hhigh⟩ := digit_bounds h
  have htable : ∀ value < 10, Nat.digitChar value = Char.ofNat (48 + value) := by decide
  rw [htable _ (by omega), Nat.add_sub_cancel' hlow, Char.ofNat_toNat]

theorem toDigits_snoc {n digit : Nat} (hn : 0 < n) (hdigit : digit < 10) :
    Nat.toDigits 10 (10 * n + digit) = Nat.toDigits 10 n ++ [Nat.digitChar digit] := by
  have hdiv : (10 * n + digit) / 10 = n := by omega
  have hmod : (10 * n + digit) % 10 = digit := by omega
  rw [Nat.toDigits_of_base_le (by omega) (by omega), hdiv, hmod]

theorem value_pos {digits : List Char} (h : Canonical digits) (hzero : digits.head? ≠ some '0') :
    0 < value digits := by
  obtain ⟨hne, hdigit, _⟩ := h
  induction digits using List.reverseRecOn with
  | nil => exact absurd rfl hne
  | append_singleton init last ih =>
      rw [value_snoc]
      cases init with
      | nil =>
          obtain ⟨hlow, _⟩ := digit_bounds (hdigit last (by simp))
          have hlast : last.toNat ≠ 48 := by
            intro heq
            apply hzero
            rw [List.nil_append, List.head?_cons, ← Char.ofNat_toNat last, heq]
          omega
      | cons first rest =>
          have hpos := ih hzero (List.cons_ne_nil _ _)
            (fun c hmem => hdigit c (List.mem_append_left _ hmem)) (.inr hzero)
          omega

/-- A canonical numeral is written for its value. -/
theorem toDigits_value {digits : List Char} (h : Canonical digits) :
    Nat.toDigits 10 (value digits) = digits := by
  induction digits using List.reverseRecOn with
  | nil => exact absurd rfl h.nonempty
  | append_singleton init last ih =>
      have hlast := h.digit last (by simp)
      obtain ⟨hlow, hhigh⟩ := digit_bounds hlast
      rw [value_snoc]
      cases init with
      | nil =>
          have hsmall : 10 * value [] + (last.toNat - 48) = last.toNat - 48 := Nat.zero_add _
          rw [hsmall, Nat.toDigits_of_lt_base (by omega), digitChar_sub hlast, List.nil_append]
      | cons first rest =>
          have hlead : (first :: rest).head? ≠ some '0' := by
            rcases h.leading with hone | hlead
            · rw [List.length_append, List.length_cons, List.length_singleton] at hone
              omega
            · exact hlead
          have hinit : Canonical (first :: rest) :=
            ⟨List.cons_ne_nil _ _, fun c hmem => h.digit c (List.mem_append_left _ hmem),
              .inr hlead⟩
          rw [toDigits_snoc (value_pos hinit hlead) (by omega), ih hinit, digitChar_sub hlast]

theorem canonical_toDigits (n : Nat) : Canonical (Nat.toDigits 10 n) := by
  refine ⟨Nat.toDigits_ne_nil, fun c hmem => Nat.isDigit_of_mem_toDigits (by omega) (by omega) hmem,
    ?_⟩
  induction n using Nat.strongRecOn with
  | ind n ih =>
      rcases Nat.lt_or_ge n 10 with hlt | hge
      · rw [Nat.toDigits_of_lt_base hlt]
        exact .inl rfl
      · -- The first digit is the one of the number without its last digit.
        right
        rw [Nat.toDigits_of_base_le (by omega) hge,
          List.head?_append_of_ne_nil _ Nat.toDigits_ne_nil]
        rcases ih (n / 10) (by omega) with hone | hlead
        · intro hhead
          obtain ⟨first, hfirst⟩ := List.length_eq_one_iff.mp hone
          rw [hfirst, List.head?_cons, Option.some.injEq] at hhead
          have hvalue := value_toDigits (n / 10)
          rw [hfirst, hhead] at hvalue
          have hzero : value ['0'] = 0 := rfl
          omega
        · exact hlead

end Riley.Numerals
