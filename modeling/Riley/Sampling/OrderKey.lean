import Mathlib.Algebra.Order.Field.Basic
import Mathlib.Data.Int.Cast.Lemmas
import Mathlib.Algebra.Order.Ring.Cast
import Mathlib.Order.Monotone.Basic
import Mathlib.Tactic.Ring
import Riley.Sampling.Greedy

/-!
The keys of finite logits are in the order of the numbers that the logits denote.
-/

namespace Riley.Sampling

section Masks

/-- The bits of a field of a word. -/
theorem and_field (word low width : Nat) :
    word &&& (2 ^ width - 1) * 2 ^ low = word / 2 ^ low % 2 ^ width * 2 ^ low := by
  apply Nat.eq_of_testBit_eq
  intro place
  rw [Nat.testBit_and, Nat.testBit_mul_two_pow, Nat.testBit_mul_two_pow,
    Nat.testBit_two_pow_sub_one, Nat.testBit_mod_two_pow, Nat.testBit_div_two_pow]
  by_cases hle : low ≤ place
  · rw [Nat.sub_add_cancel hle]
    simp [hle, Bool.and_comm]
  · simp [hle]

theorem toNat_lt (bits : UInt16) : bits.toNat < 65536 := bits.toBitVec.isLt

theorem and_signBit (bits : UInt16) : bits &&& 0x8000 = 0 ↔ bits.toNat < 32768 := by
  have hlt := toNat_lt bits
  have hfield := and_field bits.toNat 15 1
  rw [← UInt16.toNat_inj, UInt16.toNat_and]
  change bits.toNat &&& 32768 = 0 ↔ bits.toNat < 32768
  change bits.toNat &&& 32768 = bits.toNat / 32768 % 2 * 32768 at hfield
  rw [hfield]
  omega

/-- The two tests for infinities and what is not a number agree. -/
theorem isNonFinite_eq (bits : UInt16) : isNonFinite bits = !isFiniteBf16 bits := by
  have hfield := and_field bits.toNat 7 8
  change bits.toNat &&& 32640 = bits.toNat / 128 % 256 * 128 at hfield
  have hiff : bits &&& 0x7f80 = 0x7f80 ↔ exponentField bits = 255 := by
    rw [← UInt16.toNat_inj, UInt16.toNat_and]
    change bits.toNat &&& 32640 = 32640 ↔ bits.toNat / 128 % 256 = 255
    rw [hfield]
    omega
  unfold isNonFinite isFiniteBf16
  simp only [hiff, ne_eq, decide_not, Bool.not_not]

end Masks

/-- The key as a number. -/
def keyOf (bits : Nat) : Nat :=
  if bits = 32768 then 32768 else if bits < 32768 then bits + 32768 else 65535 - bits

theorem toNat_orderKey (bits : UInt16) : (orderKey bits).toNat = keyOf bits.toNat := by
  have hlt := toNat_lt bits
  unfold orderKey keyOf
  by_cases hzero : bits = 0x8000
  · rw [hzero]
    rfl
  · have hne : bits.toNat ≠ 32768 := fun heq => hzero (UInt16.toNat_inj.mp heq)
    simp only [hzero, if_false, hne]
    by_cases hsign : bits.toNat < 32768
    · have hor := Nat.two_pow_add_eq_or_of_lt (i := 15) hsign 1
      rw [if_pos ((and_signBit bits).mpr hsign), if_pos hsign, UInt16.toNat_or, Nat.or_comm]
      exact hor.symm.trans (Nat.add_comm _ _)
    · rw [if_neg (fun h => hsign ((and_signBit bits).mp h)), if_neg hsign, UInt16.toNat_not]
      rfl

section Magnitude

/-- The magnitude of the bits below the sign. -/
def magnitudeOf (bits : Nat) : Nat :=
  if bits / 128 = 0 then bits % 128 else (128 + bits % 128) * 2 ^ (bits / 128 - 1)

theorem magnitude_eq (bits : UInt16) : magnitude bits = magnitudeOf (bits.toNat % 32768) := by
  have hexponent : bits.toNat % 32768 / 128 = bits.toNat / 128 % 256 := by omega
  have hmantissa : bits.toNat % 32768 % 128 = bits.toNat % 128 := by omega
  unfold magnitude magnitudeOf exponentField mantissaField
  rw [hexponent, hmantissa]

theorem magnitudeOf_strictMono : StrictMono magnitudeOf := by
  apply strictMono_nat_of_lt_succ
  intro bits
  unfold magnitudeOf
  by_cases hlast : bits % 128 = 127
  · -- The mantissa runs over into the exponent.
    have hnext : (bits + 1) / 128 = bits / 128 + 1 := by omega
    have hzero : (bits + 1) % 128 = 0 := by omega
    rw [hnext, hzero, hlast, if_neg (Nat.succ_ne_zero _), Nat.add_sub_cancel]
    split
    · next hsub =>
        rw [hsub]
        decide
    · next hnormal =>
        obtain ⟨exponent, hexponent⟩ := Nat.exists_eq_succ_of_ne_zero hnormal
        rw [hexponent, Nat.succ_sub_one, Nat.pow_succ]
        have hpos := Nat.two_pow_pos exponent
        omega
  · have hsame : (bits + 1) / 128 = bits / 128 := by omega
    have hmore : (bits + 1) % 128 = bits % 128 + 1 := by omega
    rw [hsame, hmore]
    split
    · exact Nat.lt_succ_self _
    · exact Nat.mul_lt_mul_of_pos_right (by omega) (Nat.two_pow_pos _)

theorem magnitudeOf_lt (first second : Nat) :
    magnitudeOf first < magnitudeOf second ↔ first < second :=
  magnitudeOf_strictMono.lt_iff_lt

theorem magnitudeOf_eq_zero (bits : Nat) : magnitudeOf bits = 0 ↔ bits = 0 :=
  magnitudeOf_strictMono.injective.eq_iff' rfl

end Magnitude

/-- Keys and signed magnitudes have one order. -/
theorem signedMagnitude_lt (first second : UInt16) :
    signedMagnitude first < signedMagnitude second ↔ orderKey first < orderKey second := by
  have hfirst := toNat_lt first
  have hsecond := toNat_lt second
  have hmod : ∀ bits : UInt16, bits.toNat % 32768 =
      if 32768 ≤ bits.toNat then bits.toNat - 32768 else bits.toNat := by
    intro bits
    have hbound := toNat_lt bits
    split <;> omega
  rw [UInt16.lt_iff_toNat_lt, toNat_orderKey, toNat_orderKey]
  unfold signedMagnitude isNegative keyOf
  rw [magnitude_eq, magnitude_eq, hmod first, hmod second]
  simp only [decide_eq_true_eq]
  -- Where the signs differ, only the two zeros are equal.
  split <;> split
  · have hback := magnitudeOf_lt (second.toNat - 32768) (first.toNat - 32768)
    split_ifs <;> omega
  · have hleft := magnitudeOf_eq_zero (first.toNat - 32768)
    have hright := magnitudeOf_eq_zero second.toNat
    split_ifs <;> omega
  · have hleft := magnitudeOf_eq_zero first.toNat
    have hright := magnitudeOf_eq_zero (second.toNat - 32768)
    split_ifs <;> omega
  · have hsame := magnitudeOf_lt first.toNat second.toNat
    split_ifs <;> omega

variable {K : Type} [Field K] [LinearOrder K] [IsStrictOrderedRing K]

theorem decode_lt (first second : UInt16) :
    decodeFiniteBf16 K first < decodeFiniteBf16 K second ↔ orderKey first < orderKey second := by
  have hpos : (0 : K) < 2 ^ 133 := pow_pos two_pos 133
  unfold decodeFiniteBf16
  rw [div_lt_div_iff_of_pos_right hpos, Int.cast_lt]
  exact signedMagnitude_lt first second

/-- No finite logit has the key that stands for a masked token. -/
theorem orderKey_pos {bits : UInt16} (h : isFiniteBf16 bits = true) : 0 < orderKey bits := by
  have hlt := toNat_lt bits
  have hexponent : bits.toNat / 128 % 256 ≠ 255 := of_decide_eq_true h
  rw [UInt16.lt_iff_toNat_lt, toNat_orderKey]
  change 0 < keyOf bits.toNat
  unfold keyOf
  split_ifs <;> omega

end Riley.Sampling
