import Mathlib
import Riley.Structured.IntegerSpec

/-!
Integer schemas against their bounds. A range with both of its bounds is exact; a
missing bound stands at eighteen digits, unless there is no bound at all or the
only one is zero from below.
-/

namespace Riley.Structured

open Computability Riley.Derivation Outcome
open Constraint (Grammar GrammarElement Rules)
open Server (Json)
open Utf8 (Text)

/-- The decimal text of an integer: no sign but a minus, no leading zeros. -/
def Renders (number : Int) (word : List UInt8) : Prop :=
  0 ≤ number ∧ word.map UInt8.toNat = decimal number.natAbs ∨
    number < 0 ∧ ∃ digits, word = 0x2d :: digits ∧ digits.map UInt8.toNat = decimal number.natAbs

/-- The texts of the integers between two bounds. -/
def integersBetween (low high : Int) : Language UInt8 :=
  Set.ofPred fun word => ∃ number, low ≤ number ∧ number ≤ high ∧ Renders number word

theorem mem_integersBetween {low high : Int} {word : List UInt8} :
    word ∈ integersBetween low high ↔
      ∃ number, low ≤ number ∧ number ≤ high ∧ Renders number word := Iff.rfl

/-- The texts that `integer_range` admits. -/
def rangeTexts (minimum maximum : Option Int) : Language UInt8 :=
  if minimum = none ∧ maximum = none then integerTexts
  else if minimum = some 0 ∧ maximum = none then naturalTexts
  else integersBetween (minimum.getD (-MISSING_BOUND)) (maximum.getD MISSING_BOUND)

/-- Bounds that no integer meets, missing ones included. -/
def Crossed (minimum maximum : Option Int) : Prop :=
  ¬ (minimum = none ∧ maximum = none) ∧ ¬ (minimum = some 0 ∧ maximum = none) ∧
    maximum.getD MISSING_BOUND < minimum.getD (-MISSING_BOUND)

section Ranges

variable {err : SchemaError → Prop}

theorem mem_minus_mul {texts : Language UInt8} {word : List UInt8} :
    word ∈ exactly "-".toList * texts ↔ ∃ digits, word = 0x2d :: digits ∧ digits ∈ texts := by
  have hminus : Utf8.encode "-".toList = [0x2d] := by decide
  rw [mem_exactly_mul, hminus]
  rfl

/-- The texts of a range, its numbers from zero on and its negative ones apart. -/
theorem mem_integersBetween_split {low high : Int} {word : List UInt8} :
    word ∈ integersBetween low high ↔
      0 ≤ high ∧ word ∈ naturalsBetween (max low 0).natAbs high.natAbs ∨
        low < 0 ∧ word ∈ exactly "-".toList *
          naturalsBetween (if high < 0 then high.natAbs else 1) low.natAbs := by
  rw [mem_integersBetween, mem_minus_mul]
  constructor
  · rintro ⟨number, hlow, hhigh, ⟨hsign, hword⟩ | ⟨hsign, digits, rfl, hdigits⟩⟩
    · exact Or.inl ⟨by omega, number.natAbs, by omega, by omega, hword⟩
    · refine Or.inr ⟨by omega, digits, rfl, number.natAbs, ?_, by omega, hdigits⟩
      split <;> omega
  · rintro (⟨hsign, value, hlow, hhigh, hword⟩ | ⟨hsign, digits, rfl, value, hlow, hhigh, hdigits⟩)
    · exact ⟨value, by omega, by omega, Or.inl ⟨by omega, hword⟩⟩
    · split at hlow
      · exact ⟨-value, by omega, by omega, Or.inr ⟨by omega, digits, rfl, by rwa [Int.natAbs_neg]⟩⟩
      · exact ⟨-value, by omega, by omega, Or.inr ⟨by omega, digits, rfl, by rwa [Int.natAbs_neg]⟩⟩

theorem builds_integerRange {minimum maximum : Option Int}
    (herr : Crossed minimum maximum → err (.unsupported "minimum above maximum")) :
    Builds none (integerRange minimum maximum)
      (fun id rules _ => language rules [.rule id] = rangeTexts minimum maximum) err := by
  unfold rangeTexts
  apply builds_ite
  · intro hfree
    rw [if_pos hfree]
    exact builds_integer
  · intro hbounded
    rw [if_neg hbounded]
    apply builds_ite
    · intro hnatural
      rw [if_pos hnatural]
      exact builds_natural
    · intro hother
      rw [if_neg hother]
      apply Builds.after_check fun hcrossed => herr ⟨hbounded, hother, hcrossed⟩
      intro hordered
      generalize minimum.getD (-MISSING_BOUND) = low at hordered
      generalize maximum.getD MISSING_BOUND = high at hordered
      have hnearest : low < 0 → (if high < 0 then high.natAbs else 1) ≤ low.natAbs := by
        intro hlow
        split <;> omega
      apply (builds_newRule fun id => Builds.after_runIf
        (fun hsign => builds_naturalRange (show (max low 0).natAbs ≤ high.natAbs by omega) id)
        (builds_runIf fun hlow => (builds_newRule fun negative =>
          builds_naturalRange (hnearest hlow) negative).after_call fun negative =>
            builds_alternative id _)).weaken
      rintro id rules _ ⟨left, right, hbodies, hleft, hright⟩
      ext word
      rw [language_rule, hbodies, choice_append, Language.mem_add, mem_integersBetween_split]
      apply or_congr
      · rcases hleft with ⟨hsign, hchoice⟩ | ⟨hsign, rfl⟩
        · rw [hchoice]
          exact (and_iff_right hsign).symm
        · simp [hsign, Language.notMem_zero]
      · rcases hright with ⟨hsign, negative, hnegative, rfl⟩ | ⟨hsign, rfl⟩
        · rw [choice_cons, choice_nil, add_zero, language_append, language_text, language_rule,
            hnegative]
          exact (and_iff_right hsign).symm
        · simp [hsign, Language.notMem_zero]

/-- Crossed bounds, and no others, are what `integer_range` fails on. -/
theorem integerRange_ok (minimum maximum : Option Int) (before : SchemaCompiler) :
    (∃ id now, integerRange minimum maximum before = .ok id now) ↔ ¬ Crossed minimum maximum := by
  constructor
  · rintro ⟨id, now, hrun⟩ ⟨hbounded, hother, hcrossed⟩
    have hfails : wp (integerRange minimum maximum) (fun _ _ => False) (fun _ _ => True) before := by
      unfold integerRange
      rw [if_neg hbounded, if_neg hother]
      exact wp_check (fun _ => trivial) fun hpass => absurd hcrossed hpass
    exact (wp_elim hfails).1 id now hrun
  · intro hordered
    have hbuilt : wp (integerRange minimum maximum) _ (fun _ _ => False) before :=
      builds_integerRange (fun hcrossed => absurd hcrossed hordered) before nofun
    obtain ⟨id, now, hrun, _⟩ := wp_ok_iff.mp hbuilt
    exact ⟨id, now, hrun⟩

theorem integerTexts_eq {word : List UInt8} :
    word ∈ integerTexts ↔ word = [0x2d, 0x30] ∨ ∃ number, Renders number word := by
  have hzero : decimal 0 = [0x30] := decimal_small (by omega)
  unfold integerTexts
  rw [Language.mem_add, mem_minus_mul]
  constructor
  · rintro (⟨value, hword⟩ | ⟨digits, rfl, value, hdigits⟩)
    · exact Or.inr ⟨value, Or.inl ⟨by omega, hword⟩⟩
    · rcases Nat.eq_zero_or_pos value with rfl | hpos
      · rw [hzero] at hdigits
        have hsame : digits = [0x30] := List.map_injective_iff.mpr
          (fun _ _ => UInt8.toNat_inj.mp) hdigits
        exact Or.inl (congrArg _ hsame)
      · exact Or.inr ⟨-value, Or.inr ⟨by omega, digits, rfl, by rwa [Int.natAbs_neg]⟩⟩
  · rintro (rfl | ⟨number, ⟨_, hword⟩ | ⟨_, digits, rfl, hdigits⟩⟩)
    · exact Or.inr ⟨[0x30], rfl, 0, hzero.symm⟩
    · exact Or.inl ⟨_, hword⟩
    · exact Or.inr ⟨digits, rfl, _, hdigits⟩

theorem naturalTexts_iff {word : List UInt8} :
    word ∈ naturalTexts ↔ ∃ number, 0 ≤ number ∧ Renders number word := by
  constructor
  · rintro ⟨value, hword⟩
    exact ⟨value, by omega, Or.inl ⟨by omega, hword⟩⟩
  · rintro ⟨number, hsign, ⟨_, hword⟩ | ⟨hnegative, _⟩⟩
    · exact ⟨_, hword⟩
    · omega

end Ranges

section Schemas

variable (object : List (Text × Json))

/-- A bound of the schema, where it is a 64-bit integer. -/
def boundOf (key : String) : Option Int := (lookup key object).bind asI64

/-- Every bound of the schema is a 64-bit integer. -/
def BoundsReadable : Prop :=
  ∀ key ∈ ["minimum", "exclusiveMinimum", "maximum", "exclusiveMaximum"], ∀ value,
    lookup key object = some value → (asI64 value).isSome

def MeetsLower (number : Int) : Prop :=
  (∀ bound ∈ boundOf object "minimum", bound ≤ number) ∧
    ∀ bound ∈ boundOf object "exclusiveMinimum", bound < number

def MeetsUpper (number : Int) : Prop :=
  (∀ bound ∈ boundOf object "maximum", number ≤ bound) ∧
    ∀ bound ∈ boundOf object "exclusiveMaximum", number < bound

def NoLower : Prop := lookup "minimum" object = none ∧ lookup "exclusiveMinimum" object = none

def NoUpper : Prop := lookup "maximum" object = none ∧ lookup "exclusiveMaximum" object = none

/-- The integers that the schema admits: they meet all of its bounds, and where all bounds
of one side are missing they have at most eighteen digits on that side, unless the other
side has none either or is zero from below. -/
structure Admitted (number : Int) : Prop where
  lower : MeetsLower object number
  upper : MeetsUpper object number
  below : NoLower object → NoUpper object ∨ -MISSING_BOUND ≤ number
  above : NoUpper object → NoLower object ∨ (∀ other, MeetsLower object other ↔ 0 ≤ other) ∨
    number ≤ MISSING_BOUND

variable {object}

theorem asI64_range {value : Json} {bound : Int} (h : asI64 value = some bound) :
    i64Min ≤ bound ∧ bound ≤ i64Max := by
  unfold asI64 at h
  split at h
  · simp only [bind, Option.bind_eq_some_iff] at h
    obtain ⟨_, _, hbound⟩ := h
    split at hbound
    next hrange =>
      cases hbound
      refine ⟨hrange.2, ?_⟩
      unfold i64Max
      omega
    · cases hbound
  · simp only [bind, Option.bind_eq_some_iff] at h
    obtain ⟨_, _, hbound⟩ := h
    split at hbound
    next hrange =>
      cases hbound
      refine ⟨?_, hrange⟩
      unfold i64Min
      omega
    · cases hbound

theorem boundOf_range {key : String} {bound : Int} (h : boundOf object key = some bound) :
    i64Min ≤ bound ∧ bound ≤ i64Max := by
  obtain ⟨_, _, hvalue⟩ := Option.bind_eq_some_iff.mp h
  exact asI64_range hvalue

theorem integerBound_eq (key : String) :
    integerBound object key =
      if ∃ value, lookup key object = some value ∧ asI64 value = none then
        .error (.unsupported s!"non-integer {key} on an integer")
      else .ok (boundOf object key) := by
  unfold integerBound boundOf
  cases hvalue : lookup key object with
  | none => simp
  | some value => cases hbound : asI64 value <;> simp [hbound]

/-- The bounds of the schema as the compiler takes them together. -/
def lowerBound (object : List (Text × Json)) : Option Int :=
  tightest max (boundOf object "minimum")
    ((boundOf object "exclusiveMinimum").map (saturatingAdd · 1))

def upperBound (object : List (Text × Json)) : Option Int :=
  tightest min (boundOf object "maximum")
    ((boundOf object "exclusiveMaximum").map (saturatingAdd · (-1)))

theorem integerBounds_ok {bounds : Option Int × Option Int} :
    integerBounds object = .ok bounds ↔
      BoundsReadable object ∧ bounds = (lowerBound object, upperBound object) := by
  have hkey : ∀ key bound, integerBound object key = .ok bound ↔
      (∀ value, lookup key object = some value → (asI64 value).isSome) ∧
        bound = boundOf object key := by
    intro key bound
    rw [integerBound_eq]
    split
    next hbad =>
      obtain ⟨value, hvalue, hnone⟩ := hbad
      constructor
      · exact nofun
      · intro h
        have := h.1 value hvalue
        rw [hnone] at this
        cases this
    next hgood =>
      rw [Except.ok.injEq, eq_comm]
      constructor
      · intro h
        refine ⟨fun value hvalue => ?_, h⟩
        exact Option.isSome_iff_ne_none.mpr fun hnone => hgood ⟨value, hvalue, hnone⟩
      · exact And.right
  unfold integerBounds exclusiveBound BoundsReadable lowerBound upperBound
  simp only [except_bind_eq_ok, hkey, Except.ok.injEq, List.forall_mem_cons, List.not_mem_nil]
  constructor
  · rintro ⟨_, ⟨hminimum, rfl⟩, _, ⟨_, ⟨habove, rfl⟩, rfl⟩, _, ⟨hmaximum, rfl⟩, _,
      ⟨_, ⟨hbelow, rfl⟩, rfl⟩, rfl⟩
    exact ⟨⟨hminimum, habove, hmaximum, hbelow, nofun⟩, rfl⟩
  · rintro ⟨⟨hminimum, habove, hmaximum, hbelow, _⟩, rfl⟩
    exact ⟨_, ⟨hminimum, rfl⟩, _, ⟨_, ⟨habove, rfl⟩, rfl⟩, _, ⟨hmaximum, rfl⟩, _,
      ⟨_, ⟨hbelow, rfl⟩, rfl⟩, rfl⟩

theorem meetsLower_iff (hextreme : boundOf object "exclusiveMinimum" ≠ some i64Max)
    (number : Int) :
    MeetsLower object number ↔ ∀ bound ∈ lowerBound object, bound ≤ number := by
  unfold MeetsLower lowerBound
  cases hexclusive : boundOf object "exclusiveMinimum" with
  | none => cases boundOf object "minimum" <;> simp [tightest]
  | some bound =>
      have hrange := boundOf_range hexclusive
      have hnext : saturatingAdd bound 1 = bound + 1 := by
        have hmax : bound ≠ i64Max := fun h => hextreme (hexclusive.trans (congrArg some h))
        unfold saturatingAdd i64Min i64Max at *
        omega
      cases boundOf object "minimum" with
      | none =>
          simp only [tightest, Option.map_some, hnext, Option.mem_def]
          simp
      | some least =>
          simp only [tightest, Option.map_some, hnext, Option.mem_def]
          simp

theorem meetsUpper_iff (hextreme : boundOf object "exclusiveMaximum" ≠ some i64Min)
    (number : Int) :
    MeetsUpper object number ↔ ∀ bound ∈ upperBound object, number ≤ bound := by
  unfold MeetsUpper upperBound
  cases hexclusive : boundOf object "exclusiveMaximum" with
  | none => cases boundOf object "maximum" <;> simp [tightest]
  | some bound =>
      have hrange := boundOf_range hexclusive
      have hnext : saturatingAdd bound (-1) = bound - 1 := by
        have hmin : bound ≠ i64Min := fun h => hextreme (hexclusive.trans (congrArg some h))
        unfold saturatingAdd i64Min i64Max at *
        omega
      cases boundOf object "maximum" with
      | none =>
          simp only [tightest, Option.map_some, hnext, Option.mem_def]
          simp
      | some most =>
          simp only [tightest, Option.map_some, hnext, Option.mem_def]
          simp

theorem boundOf_none (hreadable : BoundsReadable object) {key : String}
    (hkey : key ∈ ["minimum", "exclusiveMinimum", "maximum", "exclusiveMaximum"]) :
    boundOf object key = none ↔ lookup key object = none := by
  unfold boundOf
  cases hvalue : lookup key object with
  | none => simp
  | some value =>
      have hsome := hreadable key hkey value hvalue
      simp [Option.isSome_iff_ne_none.mp hsome]

theorem tightest_none {pick : Int → Int → Int} {first second : Option Int} :
    tightest pick first second = none ↔ first = none ∧ second = none := by
  cases first <;> cases second <;> simp [tightest]

theorem lowerBound_none (hreadable : BoundsReadable object) :
    lowerBound object = none ↔ NoLower object := by
  unfold lowerBound NoLower
  rw [tightest_none, Option.map_eq_none_iff, boundOf_none hreadable (by simp),
    boundOf_none hreadable (by simp)]

theorem upperBound_none (hreadable : BoundsReadable object) :
    upperBound object = none ↔ NoUpper object := by
  unfold upperBound NoUpper
  rw [tightest_none, Option.map_eq_none_iff, boundOf_none hreadable (by simp),
    boundOf_none hreadable (by simp)]

/-- The admitted integers by the two bounds as the compiler takes them. -/
theorem admitted_iff (hreadable : BoundsReadable object)
    (hleast : boundOf object "exclusiveMinimum" ≠ some i64Max)
    (hmost : boundOf object "exclusiveMaximum" ≠ some i64Min) (number : Int) :
    Admitted object number ↔
      (∀ bound ∈ lowerBound object, bound ≤ number) ∧
      (∀ bound ∈ upperBound object, number ≤ bound) ∧
      (lowerBound object = none → upperBound object = none ∨ -MISSING_BOUND ≤ number) ∧
      (upperBound object = none → lowerBound object = none ∨ lowerBound object = some 0 ∨
        number ≤ MISSING_BOUND) := by
  have hzero : (∀ other, MeetsLower object other ↔ 0 ≤ other) ↔ lowerBound object = some 0 := by
    simp only [meetsLower_iff hleast]
    cases lowerBound object with
    | none =>
        simp only [Option.mem_def]
        constructor
        · intro h
          exact absurd ((h (-1)).mp nofun) (by omega)
        · exact nofun
    | some bound =>
        simp only [Option.mem_def, Option.some.injEq, forall_eq']
        constructor
        · intro h
          have hself := (h bound).mp le_rfl
          have hnone := (h 0).mpr le_rfl
          omega
        · rintro rfl other
          exact Iff.rfl
  rw [← meetsLower_iff hleast, ← meetsUpper_iff hmost, lowerBound_none hreadable,
    upperBound_none hreadable, ← hzero]
  exact ⟨fun h => ⟨h.lower, h.upper, h.below, h.above⟩,
    fun ⟨hlower, hupper, hbelow, habove⟩ => ⟨hlower, hupper, hbelow, habove⟩⟩

/-- The texts of the range are those of the admitted integers, and minus zero where there
is no bound at all. -/
theorem mem_rangeTexts (hreadable : BoundsReadable object)
    (hleast : boundOf object "exclusiveMinimum" ≠ some i64Max)
    (hmost : boundOf object "exclusiveMaximum" ≠ some i64Min) (word : List UInt8) :
    word ∈ rangeTexts (lowerBound object) (upperBound object) ↔
      (∃ number, Admitted object number ∧ Renders number word) ∨
        NoLower object ∧ NoUpper object ∧ word = [0x2d, 0x30] := by
  simp only [admitted_iff hreadable hleast hmost]
  rw [← lowerBound_none hreadable, ← upperBound_none hreadable]
  generalize lowerBound object = lower
  generalize upperBound object = upper
  unfold rangeTexts
  split
  next hfree =>
    obtain ⟨rfl, rfl⟩ := hfree
    rw [integerTexts_eq, or_comm]
    simp
  next hbounded =>
    split
    next hnatural =>
      obtain ⟨rfl, rfl⟩ := hnatural
      rw [naturalTexts_iff]
      simp
    next hother =>
      rw [mem_integersBetween]
      constructor
      · rintro ⟨number, hlow, hhigh, hword⟩
        refine Or.inl ⟨number, ⟨?_, ?_, ?_, ?_⟩, hword⟩
        · rintro bound rfl
          exact hlow
        · rintro bound rfl
          exact hhigh
        · rintro rfl
          exact Or.inr hlow
        · rintro rfl
          exact Or.inr (Or.inr hhigh)
      · rintro (⟨number, ⟨hlow, hhigh, hbelow, habove⟩, hword⟩ | ⟨rfl, rfl, _⟩)
        · refine ⟨number, ?_, ?_, hword⟩
          · cases lower with
            | none =>
                rcases hbelow rfl with rfl | hbelow
                · exact absurd ⟨rfl, rfl⟩ hbounded
                · exact hbelow
            | some bound => exact hlow bound rfl
          · cases upper with
            | none =>
                rcases habove rfl with rfl | rfl | habove
                · exact absurd ⟨rfl, rfl⟩ hbounded
                · exact absurd ⟨rfl, rfl⟩ hother
                · exact habove
            | some bound => exact hhigh bound rfl
        · exact absurd ⟨rfl, rfl⟩ hbounded

/-- Bounds cross when no integer is admitted. -/
theorem not_crossed_iff (hreadable : BoundsReadable object)
    (hleast : boundOf object "exclusiveMinimum" ≠ some i64Max)
    (hmost : boundOf object "exclusiveMaximum" ≠ some i64Min) :
    ¬ Crossed (lowerBound object) (upperBound object) ↔ ∃ number, Admitted object number := by
  simp only [admitted_iff hreadable hleast hmost]
  generalize lowerBound object = lower
  generalize upperBound object = upper
  unfold Crossed MISSING_BOUND
  cases lower with
  | none =>
      cases upper with
      | none => simp
      | some most =>
          simp
          constructor
          · intro h
            exact ⟨most, le_rfl, by omega⟩
          · rintro ⟨number, hhigh, hlow⟩
            omega
  | some least =>
      cases upper with
      | none =>
          simp
          constructor
          · intro h
            by_cases hzero : least = 0
            · exact ⟨0, by omega, Or.inl hzero⟩
            · exact ⟨least, le_rfl, Or.inr (h hzero)⟩
          · rintro ⟨number, hlow, h⟩ hzero
            rcases h with h | h
            · exact absurd h hzero
            · omega
      | some most =>
          simp
          constructor
          · intro h
            exact ⟨least, le_rfl, h⟩
          · rintro ⟨number, hlow, hhigh⟩
            omega

theorem integerSchema_run {before now : SchemaCompiler} {id : Nat} :
    integerSchema object before = .ok id now ↔
      BoundsReadable object ∧
        integerRange (lowerBound object) (upperBound object) before = .ok id now := by
  unfold integerSchema
  constructor
  · intro hrun
    cases hbounds : integerBounds object with
    | error e =>
        rw [hbounds] at hrun
        cases hrun
    | ok bounds =>
        rw [hbounds] at hrun
        obtain ⟨hreadable, rfl⟩ := integerBounds_ok.mp hbounds
        exact ⟨hreadable, hrun⟩
  · rintro ⟨hreadable, hrun⟩
    rw [integerBounds_ok.mpr ⟨hreadable, rfl⟩]
    exact hrun

/-- The integers of a schema. A range with both bounds is exact; so is a schema, with
eighteen digits for a side that has no bound, as long as no exclusive bound is at the end of
the 64-bit integers. -/
theorem integerSchema_exact (object : List (Text × Json)) (before : SchemaCompiler) :
    (∀ low high : Int,
      ((∃ id now, integerRange (some low) (some high) before = .ok id now) ↔ low ≤ high) ∧
      ∀ (id : Nat) (now : SchemaCompiler) (g : Grammar),
        integerRange (some low) (some high) before = .ok id now → Compiled g.rules before now →
        ∀ word, g.Yields [.rule id] word ↔
          ∃ number, low ≤ number ∧ number ≤ high ∧ Renders number word) ∧
    (boundOf object "exclusiveMinimum" ≠ some i64Max →
      boundOf object "exclusiveMaximum" ≠ some i64Min →
      ((∃ id now, integerSchema object before = .ok id now) ↔
        BoundsReadable object ∧ ∃ number, Admitted object number) ∧
      ∀ (id : Nat) (now : SchemaCompiler) (g : Grammar),
        integerSchema object before = .ok id now → Compiled g.rules before now →
        ∀ word, g.Yields [.rule id] word ↔
          (∃ number, Admitted object number ∧ Renders number word) ∨
            NoLower object ∧ NoUpper object ∧ word = [0x2d, 0x30]) := by
  have hlanguage : ∀ {minimum maximum : Option Int} {id : Nat} {now : SchemaCompiler} {g : Grammar},
      integerRange minimum maximum before = .ok id now → Compiled g.rules before now →
      ∀ word, g.Yields [.rule id] word ↔ word ∈ rangeTexts minimum maximum := by
    intro minimum maximum id now g hrun hg word
    have hbuilds : Builds none (integerRange minimum maximum) _ fun _ => True :=
      builds_integerRange fun _ => trivial
    rw [yields_iff, hbuilds.compiled hrun hg]
  refine ⟨fun low high => ⟨?_, ?_⟩, fun hleast hmost => ⟨?_, ?_⟩⟩
  · rw [integerRange_ok]
    unfold Crossed
    simp
  · intro id now g hrun hg word
    rw [hlanguage hrun hg word, rangeTexts, if_neg nofun, if_neg nofun]
    exact mem_integersBetween
  · simp only [integerSchema_run, exists_and_left]
    apply and_congr_right
    intro hreadable
    rw [integerRange_ok, not_crossed_iff hreadable hleast hmost]
  · intro id now g hrun hg word
    obtain ⟨hreadable, hrange⟩ := integerSchema_run.mp hrun
    rw [hlanguage hrange hg word, mem_rangeTexts hreadable hleast hmost]

/-- The integers from -3 to 12, of which 12 is written with two digits. -/
theorem integerSchema_exact_single :
    let object := [("minimum".toList, Json.number "-3".toList),
      ("exclusiveMaximum".toList, Json.number "13".toList)]
    ∃ (id : Nat) (now : SchemaCompiler) (g : Grammar),
      integerSchema object (SchemaCompiler.new .null) = .ok id now ∧
      (∀ word, g.Yields [.rule id] word ↔
        (∃ number, Admitted object number ∧ Renders number word) ∨
          NoLower object ∧ NoUpper object ∧ word = [0x2d, 0x30]) ∧
      g.Yields [.rule id] [0x31, 0x32] := by
  intro object
  have hminimum : boundOf object "minimum" = some (-3) := by decide
  have hleast : boundOf object "exclusiveMinimum" = none := by decide
  have hmaximum : boundOf object "maximum" = none := by decide
  have hmost : boundOf object "exclusiveMaximum" = some 13 := by decide
  have hadmitted : Admitted object 12 := by
    refine ⟨⟨?_, ?_⟩, ⟨?_, ?_⟩, fun h => absurd h.1 nofun, fun h => absurd h.2 nofun⟩
    · rw [hminimum]
      simp
    · rw [hleast]
      exact nofun
    · rw [hmaximum]
      exact nofun
    · rw [hmost]
      simp
  have hcompiles : compiles (integerSchema object) .null = true := by decide +kernel
  obtain ⟨id, now, g, hrun, hg⟩ := exists_compiled hcompiles
  have hexact := ((integerSchema_exact object (SchemaCompiler.new .null)).2
    (by rw [hleast]; exact nofun) (by rw [hmost]; simp [i64Min])).2 id now g hrun hg
  have hrenders : Renders 12 [0x31, 0x32] := .inl ⟨by decide, by decide⟩
  exact ⟨id, now, g, hrun, hexact, (hexact _).mpr (.inl ⟨12, hadmitted, hrenders⟩)⟩

/-- A single bound of nineteen digits is refused, although integers meet it. -/
theorem integerSchema_one_sided :
    let object := [("minimum".toList, Json.number "1000000000000000000".toList)]
    (∃ now, integerSchema object (SchemaCompiler.new .null) =
      .error (.unsupported "minimum above maximum") now) ∧
      MeetsLower object 1000000000000000000 ∧ MeetsUpper object 1000000000000000000 := by
  intro object
  have hminimum : boundOf object "minimum" = some 1000000000000000000 := by decide
  refine ⟨⟨_, rfl⟩, ⟨?_, nofun⟩, nofun, nofun⟩
  rw [hminimum]
  simp

end Schemas

end Riley.Structured
