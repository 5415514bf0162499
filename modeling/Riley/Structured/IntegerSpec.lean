import Mathlib.Tactic.IntervalCases
import Mathlib.Tactic.Ring
import Riley.Structured.Schema
import Riley.Structured.StringSpec

/-!
The integer rules derive the decimal texts of exactly the numbers between their
bounds. A range of digit strings of one length is compared digit by digit; a
range of numbers is the union of such ranges over the lengths in between.
-/

namespace Riley.Structured

open Computability Riley.Derivation Outcome
open Constraint (ByteClass Grammar GrammarElement Rules)
open Server (Json)
open Utf8 (Text)

section Decimal

/-- The number that digits stand for. -/
def numeral (digits : List Nat) : Nat :=
  digits.foldl (fun value byte => 10 * value + (byte - 0x30)) 0

theorem numeral_snoc (digits : List Nat) (last : Nat) :
    numeral (digits ++ [last]) = 10 * numeral digits + (last - 0x30) := by
  unfold numeral
  rw [List.foldl_append, List.foldl_cons, List.foldl_nil]

theorem numeral_cons (first : Nat) (rest : List Nat) :
    numeral (first :: rest) = (first - 0x30) * 10 ^ rest.length + numeral rest := by
  induction rest using List.reverseRecOn with
  | nil => simp [numeral]
  | append_singleton init last ih =>
      rw [← List.cons_append, numeral_snoc, numeral_snoc, ih, List.length_append, pow_add]
      simp only [List.length_singleton, pow_one]
      ring

theorem numeral_lt {digits : List Nat} (h : ∀ byte ∈ digits, IsDigit byte) :
    numeral digits < 10 ^ digits.length := by
  induction digits with
  | nil => exact Nat.one_pos
  | cons first rest ih =>
      obtain ⟨⟨_, hfirst⟩, hrest⟩ := List.forall_mem_cons.mp h
      have hlt := ih hrest
      rw [numeral_cons, List.length_cons, pow_succ]
      have hle : (first - 0x30) * 10 ^ rest.length ≤ 9 * 10 ^ rest.length :=
        Nat.mul_le_mul_right _ (by omega)
      omega

theorem toNat_digitChar {digit : Nat} (h : digit < 10) : (Nat.digitChar digit).toNat = 0x30 + digit := by
  interval_cases digit <;> rfl

theorem decimal_small {value : Nat} (h : value < 10) : decimal value = [0x30 + value] := by
  unfold decimal
  rw [Nat.toDigits_of_lt_base h, List.map_singleton, toNat_digitChar h]

theorem decimal_step {value : Nat} (h : 10 ≤ value) :
    decimal value = decimal (value / 10) ++ [0x30 + value % 10] := by
  unfold decimal
  rw [Nat.toDigits_of_base_le (by omega) h, List.map_append, List.map_singleton,
    toNat_digitChar (Nat.mod_lt _ (by omega))]

theorem decimal_digits (value : Nat) : ∀ byte ∈ decimal value, IsDigit byte := by
  induction value using Nat.strongRecOn with
  | ind value ih =>
      intro byte hbyte
      unfold IsDigit
      rcases Nat.lt_or_ge value 10 with h | h
      · rw [decimal_small h, List.mem_singleton] at hbyte
        omega
      · rw [decimal_step h, List.mem_append, List.mem_singleton] at hbyte
        rcases hbyte with hbyte | hbyte
        · exact ih (value / 10) (by omega) byte hbyte
        · omega

theorem numeral_decimal (value : Nat) : numeral (decimal value) = value := by
  induction value using Nat.strongRecOn with
  | ind value ih =>
      rcases Nat.lt_or_ge value 10 with h | h
      · rw [decimal_small h, numeral_cons]
        simp [numeral]
      · rw [decimal_step h, numeral_snoc, ih (value / 10) (by omega)]
        omega

theorem decimal_ne_nil (value : Nat) : decimal value ≠ [] := by
  unfold decimal
  rw [Ne, List.map_eq_nil_iff]
  exact Nat.toDigits_ne_nil

theorem length_decimal_le {value count : Nat} (h : 0 < count) :
    (decimal value).length ≤ count ↔ value < 10 ^ count := by
  unfold decimal
  rw [List.length_map]
  exact Nat.length_toDigits_le_iff (by omega) h

/-- One digit, or digits that do not begin with a zero, are the decimal text of their number. -/
theorem eq_decimal_numeral {digits : List Nat} (h : ∀ byte ∈ digits, IsDigit byte)
    (hsome : digits ≠ []) (hlead : digits.length = 1 ∨ 10 ^ (digits.length - 1) ≤ numeral digits) :
    digits = decimal (numeral digits) := by
  induction digits using List.reverseRecOn with
  | nil => exact absurd rfl hsome
  | append_singleton init last ih =>
      obtain ⟨hlow, hhigh⟩ := h last (by simp)
      rcases eq_or_ne init [] with rfl | hinit
      · have hvalue : numeral ([] ++ [last]) = last - 0x30 := by
          rw [numeral_snoc]
          simp [numeral]
        rw [hvalue, decimal_small (by omega), List.nil_append]
        congr 1
        omega
      · have hpos := List.length_pos_iff.mpr hinit
        obtain ⟨before, hbefore⟩ := Nat.exists_eq_add_of_le' hpos
        rw [List.length_append, List.length_singleton, numeral_snoc, Nat.add_sub_cancel, hbefore,
          pow_succ] at hlead
        have hlead' : 10 ^ before ≤ numeral init := by omega
        have hone := Nat.one_le_pow before 10 (by omega)
        have hdecimal := ih (fun byte hbyte => h byte (List.mem_append_left _ hbyte)) hinit
          (Or.inr (by rwa [hbefore, Nat.add_sub_cancel]))
        rw [numeral_snoc, decimal_step (by omega)]
        have hdiv : (10 * numeral init + (last - 0x30)) / 10 = numeral init := by omega
        have hmod : 0x30 + (10 * numeral init + (last - 0x30)) % 10 = last := by omega
        rw [hdiv, hmod, ← hdecimal]

end Decimal

section Ranges

variable {err : SchemaError → Prop}

/-- The digit strings of one length between two numbers. -/
def digitStrings (length low high : Nat) : Language UInt8 :=
  Set.ofPred fun word => word.length = length ∧ (∀ byte ∈ word, IsDigit byte.toNat) ∧
    low ≤ numeral (word.map UInt8.toNat) ∧ numeral (word.map UInt8.toNat) ≤ high

theorem mem_digitStrings {length low high : Nat} {word : List UInt8} :
    word ∈ digitStrings length low high ↔
      word.length = length ∧ (∀ byte ∈ word, IsDigit byte.toNat) ∧
        low ≤ numeral (word.map UInt8.toNat) ∧ numeral (word.map UInt8.toNat) ≤ high := Iff.rfl

/-- Digit strings compare by their first digits, then by the rest. -/
theorem digits_le {first first' base rest rest' : Nat} (hrest : rest < base)
    (hrest' : rest' < base) :
    first * base + rest ≤ first' * base + rest' ↔
      first < first' ∨ first = first' ∧ rest ≤ rest' := by
  rcases Nat.lt_trichotomy first first' with h | rfl | h
  · have hmul : (first + 1) * base ≤ first' * base := Nat.mul_le_mul_right base h
    rw [Nat.add_mul] at hmul
    omega
  · omega
  · have hmul : (first' + 1) * base ≤ first * base := Nat.mul_le_mul_right base h
    rw [Nat.add_mul] at hmul
    omega

theorem language_replicate (rules : Rules) (count : Nat) (element : GrammarElement) :
    language rules (List.replicate count element) = language rules [element] ^ count := by
  induction count with
  | zero => rw [List.replicate_zero, language_nil, pow_zero]
  | succ count ih => rw [List.replicate_succ, language_cons, ih, pow_succ']

@[simp] theorem language_digit (rules : Rules) : language rules [digit] = oneByte IsDigit :=
  language_class _ _

theorem numeral_zeros (count : Nat) : numeral (List.replicate count 0x30) = 0 := by
  induction count with
  | zero => rfl
  | succ count ih => rw [List.replicate_succ, numeral_cons, ih, Nat.sub_self, Nat.zero_mul]

theorem numeral_nines (count : Nat) : numeral (List.replicate count 0x39) = 10 ^ count - 1 := by
  induction count with
  | zero => rfl
  | succ count ih =>
      have hone := Nat.one_le_pow count 10 (by omega)
      rw [List.replicate_succ, numeral_cons, ih, List.length_replicate, pow_succ]
      omega

theorem numeral_map_lt {word : List UInt8} (h : ∀ byte ∈ word, IsDigit byte.toNat) :
    numeral (word.map UInt8.toNat) < 10 ^ word.length := by
  have hdigits : ∀ byte ∈ word.map UInt8.toNat, IsDigit byte := by
    intro byte hbyte
    obtain ⟨original, horiginal, rfl⟩ := List.mem_map.mp hbyte
    exact h original horiginal
  have hlt := numeral_lt hdigits
  rwa [List.length_map] at hlt

/-- A digit in front of so many digits. -/
def DigitString (count : Nat) (byte : UInt8) (tail : List UInt8) : Prop :=
  tail.length = count ∧ IsDigit byte.toNat ∧ ∀ byte ∈ tail, IsDigit byte.toNat

theorem DigitString.lt {count : Nat} {byte : UInt8} {tail : List UInt8}
    (h : DigitString count byte tail) : numeral (tail.map UInt8.toNat) < 10 ^ count :=
  h.1 ▸ numeral_map_lt h.2.2

theorem cons_mem_class {low high count least most : Nat} {byte : UInt8} {tail : List UInt8}
    (hlow : 0x30 ≤ low) (hhigh : high ≤ 0x39) :
    byte :: tail ∈ (oneByte fun byte => low ≤ byte ∧ byte ≤ high) * digitStrings count least most ↔
      DigitString count byte tail ∧ (low ≤ byte.toNat ∧ byte.toNat ≤ high) ∧
        least ≤ numeral (tail.map UInt8.toNat) ∧ numeral (tail.map UInt8.toNat) ≤ most := by
  rw [mem_oneByte_mul]
  constructor
  · rintro ⟨_, _, heq, hbyte, hcount, hdigits, hvalue⟩
    obtain ⟨rfl, rfl⟩ := List.cons.inj heq
    exact ⟨⟨hcount, ⟨hlow.trans hbyte.1, hbyte.2.trans hhigh⟩, hdigits⟩, hbyte, hvalue⟩
  · rintro ⟨⟨hcount, _, hdigits⟩, hbyte, hvalue⟩
    exact ⟨byte, tail, rfl, hbyte, hcount, hdigits, hvalue⟩

theorem cons_mem_digitStrings {low high count : Nat} {byte : UInt8} {tail : List UInt8} :
    byte :: tail ∈ digitStrings (count + 1) low high ↔
      DigitString count byte tail ∧
        low ≤ (byte.toNat - 0x30) * 10 ^ count + numeral (tail.map UInt8.toNat) ∧
        (byte.toNat - 0x30) * 10 ^ count + numeral (tail.map UInt8.toNat) ≤ high := by
  rw [mem_digitStrings, List.map_cons, numeral_cons, List.length_map, List.forall_mem_cons,
    List.length_cons, Nat.add_right_cancel_iff]
  unfold DigitString
  constructor
  · rintro ⟨rfl, ⟨hbyte, hdigits⟩, hvalue⟩
    exact ⟨⟨rfl, hbyte, hdigits⟩, hvalue⟩
  · rintro ⟨⟨rfl, hbyte, hdigits⟩, hvalue⟩
    exact ⟨rfl, ⟨hbyte, hdigits⟩, hvalue⟩

/-- All digit strings of one length. -/
theorem digitStrings_all (count : Nat) : digitStrings count 0 (10 ^ count - 1) = oneByte IsDigit ^ count := by
  ext word
  rw [mem_digitStrings, mem_oneByte_pow]
  constructor
  · rintro ⟨hcount, hdigits, _⟩
    exact ⟨hcount, hdigits⟩
  · rintro ⟨rfl, hdigits⟩
    exact ⟨rfl, hdigits, Nat.zero_le _, Nat.le_sub_one_of_lt (numeral_map_lt hdigits)⟩

theorem digitRange_nil (id : Nat) : digitRange [] [] id = alternative id [] := by
  rw [digitRange]
  intro _ _ _ _ hcons
  cases hcons

/-- Digit strings of equal length between two of them. -/
theorem builds_digitRange {count : Nat} {low high : List Nat} (hlow : low.length = count)
    (hhigh : high.length = count) (hlowDigits : ∀ byte ∈ low, IsDigit byte)
    (hhighDigits : ∀ byte ∈ high, IsDigit byte) (hle : numeral low ≤ numeral high) (id : Nat) :
    Builds (some id) (digitRange low high id)
      (fun _ rules added => choice rules added = digitStrings count (numeral low) (numeral high))
      err := by
  induction count generalizing low high id with
  | zero =>
      rw [List.length_eq_zero_iff] at hlow hhigh
      subst hlow hhigh
      rw [digitRange_nil]
      apply (builds_alternative id []).weaken
      rintro _ rules _ rfl
      rw [choice_cons, choice_nil, add_zero, language_nil]
      exact (pow_zero _).symm.trans (digitStrings_all 0).symm
  | succ count ih =>
      obtain ⟨lowFirst, lowRest, rfl⟩ := List.exists_cons_of_length_eq_add_one hlow
      obtain ⟨highFirst, highRest, rfl⟩ := List.exists_cons_of_length_eq_add_one hhigh
      obtain ⟨hlowFirst, hlowRest⟩ := List.forall_mem_cons.mp hlowDigits
      obtain ⟨hhighFirst, hhighRest⟩ := List.forall_mem_cons.mp hhighDigits
      rw [List.length_cons, Nat.add_right_cancel_iff] at hlow hhigh
      have hlowLt : numeral lowRest < 10 ^ count := hlow ▸ numeral_lt hlowRest
      have hhighLt : numeral highRest < 10 ^ count := hhigh ▸ numeral_lt hhighRest
      rw [digitRange]
      apply builds_ite
      · -- Every digit string of this length.
        rintro ⟨hzeros, hnines⟩
        have hlowest : lowFirst :: lowRest = List.replicate (count + 1) 0x30 :=
          List.eq_replicate_iff.mpr ⟨congrArg Nat.succ hlow, fun byte hbyte =>
            of_decide_eq_true (List.all_eq_true.mp hzeros byte hbyte)⟩
        have hhighest : highFirst :: highRest = List.replicate (count + 1) 0x39 :=
          List.eq_replicate_iff.mpr ⟨congrArg Nat.succ hhigh, fun byte hbyte =>
            of_decide_eq_true (List.all_eq_true.mp hnines byte hbyte)⟩
        rw [hlowest, hhighest, numeral_zeros, numeral_nines, digitStrings_all, hlow]
        apply (builds_alternative id _).weaken
        rintro _ rules _ rfl
        rw [choice_cons, choice_nil, add_zero, language_replicate, language_digit]
      · intro _
        apply builds_ite
        · rintro rfl
          rw [numeral_cons, numeral_cons, hlow, hhigh] at hle ⊢
          have hrest : numeral lowRest ≤ numeral highRest := by omega
          apply ((builds_newRule fun next =>
            ih hlow hhigh hlowRest hhighRest hrest next).after_call fun next =>
              builds_alternative id _).weaken
          rintro _ rules _ ⟨next, hnext, rfl⟩
          rw [choice_cons, choice_nil, add_zero, language_cons, language_class, language_rule, hnext]
          ext word
          cases word with
          | nil => simp [mem_digitStrings]
          | cons byte tail =>
              rw [cons_mem_class hlowFirst.1 hhighFirst.2, cons_mem_digitStrings]
              apply and_congr_right
              intro hstring
              have hbyte := hstring.2.1.1
              have hlowest := hlowFirst.1
              rw [digits_le hlowLt hstring.lt, digits_le hstring.lt hhighLt]
              omega
        · intro hdifferent
          rw [numeral_cons, numeral_cons, hlow, hhigh] at hle ⊢
          have hless : lowFirst < highFirst := by
            rw [digits_le hlowLt hhighLt] at hle
            have hlowest := hlowFirst.1
            have hlowest' := hhighFirst.1
            omega
          have hnines : numeral lowRest ≤ numeral (List.replicate count 0x39) := by
            rw [numeral_nines]
            omega
          have hzeros : numeral (List.replicate count 0x30) ≤ numeral highRest := by
            rw [numeral_zeros]
            exact Nat.zero_le _
          have hdigit : ∀ digit, IsDigit digit →
              ∀ byte ∈ List.replicate count digit, IsDigit byte := by
            intro digit hdigit byte hbyte
            rwa [List.eq_of_mem_replicate hbyte]
          have hnine : IsDigit 0x39 := ⟨by omega, le_rfl⟩
          have hzero : IsDigit 0x30 := ⟨le_rfl, by omega⟩
          apply ((builds_newRule fun first => ih hlow List.length_replicate hlowRest
            (hdigit 0x39 hnine) hnines first).after_call fun first =>
              (Builds.after_runIf (fun _ => builds_alternative id _)
                ((builds_newRule fun last => ih List.length_replicate hhigh
                  (hdigit 0x30 hzero) hhighRest hzeros last).after_call
                    fun last => builds_alternative id _)).after_alternative).weaken
          rintro _ rules _ ⟨first, hfirst, _, rfl, middle, _, rfl, hmiddle, last, hlast, rfl⟩
          rw [numeral_nines] at hfirst
          rw [numeral_zeros] at hlast
          have hmiddle' : choice rules middle =
              (oneByte fun byte => lowFirst + 1 ≤ byte ∧ byte ≤ highFirst - 1) *
                digitStrings count 0 (10 ^ count - 1) := by
            rcases hmiddle with ⟨_, rfl⟩ | ⟨hnone, rfl⟩
            · rw [choice_cons, choice_nil, add_zero, language_append, language_class,
                language_replicate, language_digit, digitStrings_all]
            · ext word
              rw [choice_nil, mem_oneByte_mul]
              constructor
              · exact fun h => absurd h (Language.notMem_zero word)
              · rintro ⟨byte, _, _, hbyte, _⟩
                omega
          rw [choice_cons, choice_append, hmiddle', choice_cons, choice_nil, add_zero,
            language_cons, language_class, language_rule, hfirst, language_cons _ (_ :: _),
            language_class, language_rule, hlast]
          ext word
          rw [Language.mem_add, Language.mem_add]
          cases word with
          | nil => simp [mem_digitStrings]
          | cons byte tail =>
              have hlowest := hlowFirst.1
              have hhighest := hhighFirst.2
              rw [cons_mem_class hlowest (by omega), cons_mem_class (by omega) (by omega),
                cons_mem_class (by omega) hhighest, cons_mem_digitStrings, ← and_or_left,
                ← and_or_left]
              apply and_congr_right
              intro hstring
              have hbyte := hstring.2.1.1
              have htail := hstring.lt
              rw [digits_le hlowLt htail, digits_le htail hhighLt]
              omega

/-- The decimal texts of the numbers between two bounds. -/
def naturalsBetween (low high : Nat) : Language UInt8 :=
  Set.ofPred fun word => ∃ value, low ≤ value ∧ value ≤ high ∧ word.map UInt8.toNat = decimal value

theorem decimal_length_mono {low high : Nat} (h : low ≤ high) :
    (decimal low).length ≤ (decimal high).length := by
  have hpos := List.length_pos_iff.mpr (decimal_ne_nil high)
  rw [length_decimal_le hpos]
  exact Nat.lt_of_le_of_lt h ((length_decimal_le hpos).mp le_rfl)

/-- The bounds of one length of `natural_range`. -/
structure LengthBounds (low high length : Nat) (least most : List Nat) : Prop where
  least_length : least.length = length
  most_length : most.length = length
  least_digits : ∀ byte ∈ least, IsDigit byte
  most_digits : ∀ byte ∈ most, IsDigit byte
  ordered : numeral least ≤ numeral most
  between : ∀ word : List UInt8, word ∈ digitStrings length (numeral least) (numeral most) ↔
    ∃ value, low ≤ value ∧ value ≤ high ∧ (decimal value).length = length ∧
      word.map UInt8.toNat = decimal value

theorem isDigit_replicate {count digit : Nat} (h : IsDigit digit) :
    ∀ byte ∈ List.replicate count digit, IsDigit byte := by
  intro byte hbyte
  rwa [List.eq_of_mem_replicate hbyte]

/-- The least number of one length that is no less than `low`. -/
theorem least_numeral {low length : Nat} (hlow : (decimal low).length ≤ length) :
    let least := if length = (decimal low).length then decimal low
      else 0x31 :: List.replicate (length - 1) 0x30
    least.length = length ∧ (∀ byte ∈ least, IsDigit byte) ∧
      (∀ high, low ≤ high → length ≤ (decimal high).length → numeral least ≤ high) ∧
      ∀ value, (length = 1 ∨ 10 ^ (length - 1) ≤ value) ∧ low ≤ value ↔ numeral least ≤ value := by
  intro least
  have hpos := List.length_pos_iff.mpr (decimal_ne_nil low)
  by_cases hsame : length = (decimal low).length
  · have hleast : least = decimal low := if_pos hsame
    rw [hleast, numeral_decimal]
    refine ⟨hsame.symm, decimal_digits low, fun _ h _ => h, fun value => ?_⟩
    constructor
    · exact And.right
    · intro h
      refine ⟨?_, h⟩
      rcases Nat.lt_or_ge 1 length with hlong | hshort
      · have hshorter : (decimal low).length ≤ length - 1 ↔ low < 10 ^ (length - 1) :=
          length_decimal_le (by omega)
        omega
      · omega
  · have hleast : least = 0x31 :: List.replicate (length - 1) 0x30 := if_neg hsame
    have hnumeral : numeral least = 10 ^ (length - 1) := by
      rw [hleast, numeral_cons, numeral_zeros, List.length_replicate]
      omega
    have hshorter : (decimal low).length ≤ length - 1 ↔ low < 10 ^ (length - 1) :=
      length_decimal_le (by omega)
    rw [hnumeral]
    refine ⟨?_, ?_, ?_, ?_⟩
    · rw [hleast, List.length_cons, List.length_replicate]
      omega
    · rw [hleast, List.forall_mem_cons]
      exact ⟨⟨by omega, by omega⟩, isDigit_replicate ⟨by omega, by omega⟩⟩
    · intro high _ hhigh
      have hlonger : (decimal high).length ≤ length - 1 ↔ high < 10 ^ (length - 1) :=
        length_decimal_le (by omega)
      omega
    · intro value
      omega

/-- The greatest number of one length that is no greater than `high`. -/
theorem most_numeral {high length : Nat} (hpos : 0 < length)
    (hhigh : length ≤ (decimal high).length) :
    let most := if length = (decimal high).length then decimal high
      else List.replicate length 0x39
    most.length = length ∧ (∀ byte ∈ most, IsDigit byte) ∧
      ∀ value < 10 ^ length, value ≤ high ↔ value ≤ numeral most := by
  intro most
  by_cases hsame : length = (decimal high).length
  · have hmost : most = decimal high := if_pos hsame
    rw [hmost, numeral_decimal]
    exact ⟨hsame.symm, decimal_digits high, fun _ _ => Iff.rfl⟩
  · have hmost : most = List.replicate length 0x39 := if_neg hsame
    have hlonger : (decimal high).length ≤ length ↔ high < 10 ^ length := length_decimal_le hpos
    rw [hmost, numeral_nines]
    refine ⟨List.length_replicate, isDigit_replicate ⟨by omega, by omega⟩, fun value hvalue => ?_⟩
    omega

theorem lengthBounds {low high length : Nat} (hle : low ≤ high)
    (hlow : (decimal low).length ≤ length) (hhigh : length ≤ (decimal high).length) :
    LengthBounds low high length
      (if length = (decimal low).length then decimal low
        else 0x31 :: List.replicate (length - 1) 0x30)
      (if length = (decimal high).length then decimal high else List.replicate length 0x39) := by
  have hpos : 0 < length := (List.length_pos_iff.mpr (decimal_ne_nil low)).trans_le hlow
  obtain ⟨hleastLength, hleastDigits, hleastHigh, hleast⟩ := least_numeral hlow
  obtain ⟨hmostLength, hmostDigits, hmost⟩ := most_numeral hpos hhigh
  have hleastLt := numeral_lt hleastDigits
  rw [hleastLength] at hleastLt
  refine ⟨hleastLength, hmostLength, hleastDigits, hmostDigits,
    (hmost _ hleastLt).mp (hleastHigh high hle hhigh), fun word => ?_⟩
  rw [mem_digitStrings]
  constructor
  · rintro ⟨hlength, hdigits, hge, hword⟩
    have hlt := numeral_map_lt hdigits
    rw [hlength] at hlt
    obtain ⟨hcanonical, hlowest⟩ := (hleast _).mpr hge
    have hdecimal : word.map UInt8.toNat = decimal (numeral (word.map UInt8.toNat)) := by
      apply eq_decimal_numeral
      · intro byte hbyte
        obtain ⟨original, horiginal, rfl⟩ := List.mem_map.mp hbyte
        exact hdigits original horiginal
      · apply List.ne_nil_of_length_pos
        rw [List.length_map, hlength]
        exact hpos
      · rwa [List.length_map, hlength]
    refine ⟨_, hlowest, (hmost _ hlt).mpr hword, ?_, hdecimal⟩
    rw [← hdecimal, List.length_map, hlength]
  · rintro ⟨value, hlowest, hhighest, hlength, hword⟩
    have hlt : value < 10 ^ length := (length_decimal_le hpos).mp hlength.le
    have hvalue : numeral (word.map UInt8.toNat) = value := by rw [hword, numeral_decimal]
    rw [hvalue, ← hmost value hlt, ← hleast value]
    refine ⟨?_, ?_, ⟨?_, hlowest⟩, hhighest⟩
    · rw [← List.length_map (f := UInt8.toNat), hword, hlength]
    · intro byte hbyte
      apply decimal_digits value
      rw [← hword]
      exact List.mem_map_of_mem hbyte
    · rcases Nat.lt_or_ge 1 length with hlong | hshort
      · have hshorter : (decimal value).length ≤ length - 1 ↔ value < 10 ^ (length - 1) :=
          length_decimal_le (by omega)
        omega
      · omega

/-- Numbers between two bounds, one length after the other. -/
theorem builds_naturalRange {low high : Nat} (hle : low ≤ high) (id : Nat) :
    Builds (some id) (naturalRange id low high)
      (fun _ rules added => choice rules added = naturalsBetween low high) err := by
  have heach : ∀ length ∈ List.range' (decimal low).length
      ((decimal high).length + 1 - (decimal low).length),
      LengthBounds low high length
        (if length = (decimal low).length then decimal low
          else 0x31 :: List.replicate (length - 1) 0x30)
        (if length = (decimal high).length then decimal high else List.replicate length 0x39) := by
    intro length hlength
    rw [List.mem_range'_1] at hlength
    exact lengthBounds hle (by omega) (by omega)
  apply (builds_forEach _ fun length hlength =>
    (builds_newRule fun branch => builds_digitRange (heach length hlength).least_length
      (heach length hlength).most_length (heach length hlength).least_digits
      (heach length hlength).most_digits (heach length hlength).ordered branch).after_call
        fun branch => builds_alternative id [.rule branch]).weaken
  rintro _ rules _ ⟨parts, rfl, hparts⟩
  have hchoices := hparts.imp (R := _) (S := fun length part => choice rules part =
      digitStrings length
        (numeral (if length = (decimal low).length then decimal low
          else 0x31 :: List.replicate (length - 1) 0x30))
        (numeral (if length = (decimal high).length then decimal high
          else List.replicate length 0x39))) (by
    rintro length _ ⟨branch, hbranch, rfl⟩
    rw [choice_cons, choice_nil, add_zero, language_rule, hbranch])
  ext word
  rw [mem_choice_flatten hchoices]
  constructor
  · rintro ⟨length, hlength, hword⟩
    obtain ⟨value, hlow, hhigh, _, hdecimal⟩ := ((heach length hlength).between word).mp hword
    exact ⟨value, hlow, hhigh, hdecimal⟩
  · rintro ⟨value, hlow, hhigh, hdecimal⟩
    have hlength : (decimal value).length ∈ List.range' (decimal low).length
        ((decimal high).length + 1 - (decimal low).length) := by
      have hshort := decimal_length_mono hlow
      have hlong := decimal_length_mono hhigh
      rw [List.mem_range'_1]
      omega
    exact ⟨_, hlength, ((heach _ hlength).between word).mpr ⟨value, hlow, hhigh, rfl, hdecimal⟩⟩

end Ranges

section Numbers

variable {err : SchemaError → Prop}

theorem builds_digits (id : Nat) (base : List GrammarElement) :
    Builds (some id)
      (do
        alternative id [digit, .rule id]
        alternative id base)
      (fun _ rules added => rules.getD id [] = added →
        language rules [.rule id] = (oneByte IsDigit)∗ * language rules base) err := by
  apply (builds_alternative id base).after_alternative.weaken
  rintro _ rules _ ⟨_, rfl, rfl⟩ hbodies
  have hboth : ∀ body, body ∈ rules.getD id [] ↔ body = [digit] ++ [.rule id] ∨ body = base := by
    intro body
    rw [hbodies, List.mem_pair]
    rfl
  rw [language_loop _ _ hboth, language_digit]

/-- A number is a zero, or digits that do not begin with one. -/
theorem naturalTexts_eq :
    naturalTexts = exactly "0".toList +
      (oneByte fun byte => 0x31 ≤ byte ∧ byte ≤ 0x39) * (oneByte IsDigit)∗ := by
  have hzero : Utf8.encode "0".toList = [0x30] := by decide
  ext word
  rw [Language.mem_add, mem_exactly, mem_oneByte_mul, hzero]
  constructor
  · rintro ⟨value, hword⟩
    cases word with
    | nil => exact absurd hword.symm (decimal_ne_nil value)
    | cons byte tail =>
        have hdigits : ∀ digit ∈ byte :: tail, IsDigit digit.toNat := by
          intro digit hdigit
          apply decimal_digits value
          rw [← hword]
          exact List.mem_map_of_mem hdigit
        obtain ⟨hbyte, htail⟩ := List.forall_mem_cons.mp hdigits
        rcases Nat.lt_or_ge 0x30 byte.toNat with hlead | hlead
        · exact Or.inr ⟨byte, tail, rfl, ⟨hlead, hbyte.2⟩, mem_oneByte_kstar.mpr htail⟩
        · have hbyte' : byte.toNat = 0x30 := Nat.le_antisymm hlead hbyte.1
          have hvalue : value = numeral (tail.map UInt8.toNat) := by
            rw [← numeral_decimal value, ← hword, List.map_cons, numeral_cons, hbyte', Nat.sub_self,
              Nat.zero_mul, Nat.zero_add]
          have hlt := numeral_map_lt htail
          have hlength : (decimal value).length = tail.length + 1 := by
            rw [← hword, List.length_map, List.length_cons]
          have hnil : tail = [] := by
            by_contra hsome
            have hshorter : (decimal value).length ≤ tail.length ↔ value < 10 ^ tail.length :=
              length_decimal_le (List.length_pos_iff.mpr hsome)
            omega
          have hsame : byte = 0x30 := UInt8.toNat_inj.mp hbyte'
          rw [hnil, hsame]
          exact Or.inl rfl
  · rintro (rfl | ⟨byte, tail, rfl, hbyte, htail⟩)
    · have hdecimal : decimal 0 = [0x30] := decimal_small (by omega)
      exact ⟨0, hdecimal.symm⟩
    · rw [mem_oneByte_kstar] at htail
      refine ⟨numeral ((byte :: tail).map UInt8.toNat), eq_decimal_numeral ?_ nofun (Or.inr ?_)⟩
      · intro digit hdigit
        obtain ⟨original, horiginal, rfl⟩ := List.mem_map.mp hdigit
        rcases List.mem_cons.mp horiginal with rfl | horiginal
        · exact ⟨by omega, hbyte.2⟩
        · exact htail original horiginal
      · rw [List.map_cons, numeral_cons, List.length_cons, Nat.add_sub_cancel]
        exact Nat.le_add_right_of_le (Nat.le_mul_of_pos_left _ (by omega))

theorem builds_natural :
    Builds none natural (fun id rules _ => language rules [.rule id] = naturalTexts) err := by
  apply builds_shared rfl
  apply ((builds_newRule fun digits => builds_digits digits []).after_call fun digits =>
    builds_newRule fun id =>
      (builds_alternative id [class_ 0x31 0x39, .rule digits]).after_alternative).weaken
  rintro id rules _ ⟨digits, hdigits, _, hbodies, rfl⟩
  have hstar := hdigits rfl
  rw [language_nil, mul_one] at hstar
  rw [language_rule, hbodies, choice_cons, choice_cons, choice_nil, add_zero, language_text,
    language_cons, language_class, hstar, naturalTexts_eq]

theorem builds_integer :
    Builds none integer (fun id rules _ => language rules [.rule id] = integerTexts) err := by
  apply builds_shared rfl
  apply (builds_natural.after_call fun natural =>
    builds_newRule fun id => (builds_alternative id _).after_alternative).weaken
  rintro id rules _ ⟨natural, hnatural, _, hbodies, rfl⟩
  rw [language_rule, hbodies, choice_cons, choice_cons, choice_nil, add_zero, language_append,
    language_text, hnatural]
  rfl

end Numbers

end Riley.Structured
