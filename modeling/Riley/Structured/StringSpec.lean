import Riley.Structured.Building

/-!
The string rules derive exactly the JSON strings, with a `\u` escape counted as
one character each, and a repetition as many items as its bounds allow.
-/

namespace Riley.Structured

open Computability Riley.Derivation Outcome
open Constraint (GrammarElement Rules)
open Utf8 (Text)

section Products

variable {test : Nat → Prop} {rest : Language UInt8} {text : Text} {word : List UInt8}

@[simp] theorem mem_oneByte :
    word ∈ oneByte test ↔ ∃ byte : UInt8, word = [byte] ∧ test byte.toNat := Iff.rfl

@[simp] theorem mem_exactly : word ∈ exactly text ↔ word = Utf8.encode text := Iff.rfl

@[simp] theorem mem_oneByte_mul :
    word ∈ oneByte test * rest ↔
      ∃ (byte : UInt8) (tail : List UInt8), word = byte :: tail ∧ test byte.toNat ∧ tail ∈ rest := by
  rw [Language.mem_mul]
  constructor
  · rintro ⟨_, ⟨byte, rfl, htest⟩, tail, htail, rfl⟩
    exact ⟨byte, tail, rfl, htest, htail⟩
  · rintro ⟨byte, tail, rfl, htest, htail⟩
    exact ⟨[byte], ⟨byte, rfl, htest⟩, tail, htail, rfl⟩

@[simp] theorem mem_exactly_mul :
    word ∈ exactly text * rest ↔ ∃ tail, word = Utf8.encode text ++ tail ∧ tail ∈ rest := by
  rw [Language.mem_mul]
  constructor
  · rintro ⟨_, rfl, tail, htail, rfl⟩
    exact ⟨tail, rfl, htail⟩
  · rintro ⟨tail, rfl, htail⟩
    exact ⟨_, rfl, tail, htail, rfl⟩

theorem mem_oneByte_pow {count : Nat} :
    word ∈ oneByte test ^ count ↔ word.length = count ∧ ∀ byte ∈ word, test byte.toNat := by
  induction count generalizing word with
  | zero =>
      rw [pow_zero, Language.mem_one, List.length_eq_zero_iff]
      constructor
      · rintro rfl
        exact ⟨rfl, nofun⟩
      · exact And.left
  | succ count ih =>
      rw [pow_succ', mem_oneByte_mul]
      constructor
      · rintro ⟨byte, tail, rfl, htest, htail⟩
        obtain ⟨hlength, htests⟩ := ih.mp htail
        exact ⟨congrArg Nat.succ hlength, List.forall_mem_cons.mpr ⟨htest, htests⟩⟩
      · rintro ⟨hlength, htests⟩
        cases word with
        | nil => cases hlength
        | cons byte tail =>
            obtain ⟨htest, htail⟩ := List.forall_mem_cons.mp htests
            exact ⟨byte, tail, rfl, htest, ih.mpr ⟨Nat.succ.inj hlength, htail⟩⟩

theorem mem_oneByte_kstar : word ∈ (oneByte test)∗ ↔ ∀ byte ∈ word, test byte.toNat := by
  rw [Language.kstar_eq_iSup_pow, Language.mem_iSup]
  simp only [mem_oneByte_pow]
  exact ⟨fun ⟨_, _, htests⟩ => htests, fun htests => ⟨_, rfl, htests⟩⟩

end Products

section Multibyte

theorem toNat_ofNat_of_valid {code : Nat} (h : code.isValidChar) : (Char.ofNat code).toNat = code := by
  unfold Char.ofNat
  rw [dif_pos h]
  rfl

theorem toNat_valid (c : Char) : c.toNat < 0xd800 ∨ 0xdfff < c.toNat ∧ c.toNat < 0x110000 := c.valid

theorem utf8_two {first second : UInt8} (hfirst : 0xc2 ≤ first.toNat ∧ first.toNat ≤ 0xdf)
    (hsecond : 0x80 ≤ second.toNat ∧ second.toNat ≤ 0xbf) : [first, second] ∈ multibyteTexts := by
  let code := (first.toNat - 0xc0) * 64 + (second.toNat - 0x80)
  have hcode : (Char.ofNat code).toNat = code :=
    toNat_ofNat_of_valid (Or.inl (by omega))
  refine ⟨Char.ofNat code, by omega, ?_⟩
  have hval : (Char.ofNat code).val.toNat = code := hcode
  unfold String.utf8EncodeChar
  simp only [hval]
  rw [if_neg (by omega), if_pos (by omega)]
  simp only [List.cons.injEq, ← UInt8.toNat_inj, UInt8.toNat_ofNat', and_true]
  omega

theorem utf8_three {first second third : UInt8}
    (hfirst : 0xe0 ≤ first.toNat ∧ first.toNat ≤ 0xef)
    (hsecond : 0x80 ≤ second.toNat ∧ second.toNat ≤ 0xbf)
    (hthird : 0x80 ≤ third.toNat ∧ third.toNat ≤ 0xbf)
    (hlong : first.toNat = 0xe0 → 0xa0 ≤ second.toNat)
    (hvalid : first.toNat = 0xed → second.toNat ≤ 0x9f) :
    [first, second, third] ∈ multibyteTexts := by
  let code := (first.toNat - 0xe0) * 4096 + (second.toNat - 0x80) * 64 + (third.toNat - 0x80)
  have hcode : (Char.ofNat code).toNat = code := by
    apply toNat_ofNat_of_valid
    show code < 0xd800 ∨ 0xdfff < code ∧ code < 0x110000
    omega
  refine ⟨Char.ofNat code, by omega, ?_⟩
  have hval : (Char.ofNat code).val.toNat = code := hcode
  unfold String.utf8EncodeChar
  simp only [hval]
  rw [if_neg (by omega), if_neg (by omega), if_pos (by omega)]
  simp only [List.cons.injEq, ← UInt8.toNat_inj, UInt8.toNat_ofNat', and_true]
  omega

theorem utf8_four {first second third fourth : UInt8}
    (hfirst : 0xf0 ≤ first.toNat ∧ first.toNat ≤ 0xf4)
    (hsecond : 0x80 ≤ second.toNat ∧ second.toNat ≤ 0xbf)
    (hthird : 0x80 ≤ third.toNat ∧ third.toNat ≤ 0xbf)
    (hfourth : 0x80 ≤ fourth.toNat ∧ fourth.toNat ≤ 0xbf)
    (hlong : first.toNat = 0xf0 → 0x90 ≤ second.toNat)
    (hvalid : first.toNat = 0xf4 → second.toNat ≤ 0x8f) :
    [first, second, third, fourth] ∈ multibyteTexts := by
  let code := (first.toNat - 0xf0) * 262144 + (second.toNat - 0x80) * 4096 +
    (third.toNat - 0x80) * 64 + (fourth.toNat - 0x80)
  have hcode : (Char.ofNat code).toNat = code := by
    apply toNat_ofNat_of_valid
    show code < 0xd800 ∨ 0xdfff < code ∧ code < 0x110000
    omega
  refine ⟨Char.ofNat code, by omega, ?_⟩
  have hval : (Char.ofNat code).val.toNat = code := hcode
  unfold String.utf8EncodeChar
  simp only [hval]
  rw [if_neg (by omega), if_neg (by omega), if_neg (by omega)]
  simp only [List.cons.injEq, ← UInt8.toNat_inj, UInt8.toNat_ofNat', and_true]
  omega

/-- The lead bytes and what may follow each of them. -/
theorem utf8_table {c : Char} (hc : 0x80 ≤ c.toNat) :
    (∃ first second : UInt8, String.utf8EncodeChar c = [first, second] ∧
      (0xc2 ≤ first.toNat ∧ first.toNat ≤ 0xdf) ∧
      (0x80 ≤ second.toNat ∧ second.toNat ≤ 0xbf)) ∨
    (∃ first second third : UInt8, String.utf8EncodeChar c = [first, second, third] ∧
      (0xe0 ≤ first.toNat ∧ first.toNat ≤ 0xef) ∧
      (0x80 ≤ second.toNat ∧ second.toNat ≤ 0xbf) ∧
      (0x80 ≤ third.toNat ∧ third.toNat ≤ 0xbf) ∧
      (first.toNat = 0xe0 → 0xa0 ≤ second.toNat) ∧
      (first.toNat = 0xed → second.toNat ≤ 0x9f)) ∨
    ∃ first second third fourth : UInt8,
      String.utf8EncodeChar c = [first, second, third, fourth] ∧
      (0xf0 ≤ first.toNat ∧ first.toNat ≤ 0xf4) ∧
      (0x80 ≤ second.toNat ∧ second.toNat ≤ 0xbf) ∧
      (0x80 ≤ third.toNat ∧ third.toNat ≤ 0xbf) ∧
      (0x80 ≤ fourth.toNat ∧ fourth.toNat ≤ 0xbf) ∧
      (first.toNat = 0xf0 → 0x90 ≤ second.toNat) ∧
      (first.toNat = 0xf4 → second.toNat ≤ 0x8f) := by
  have hvalid := toNat_valid c
  have hval : c.val.toNat = c.toNat := rfl
  unfold String.utf8EncodeChar
  simp only [hval]
  rw [if_neg (by omega)]
  split
  · refine Or.inl ⟨_, _, rfl, ?_⟩
    simp only [UInt8.toNat_ofNat']
    omega
  · split
    · refine Or.inr (Or.inl ⟨_, _, _, rfl, ?_⟩)
      simp only [UInt8.toNat_ofNat']
      omega
    · refine Or.inr (Or.inr ⟨_, _, _, _, rfl, ?_⟩)
      simp only [UInt8.toNat_ofNat']
      omega

/-- Bytes between two bounds. -/
abbrev between (first last : Nat) : Language UInt8 :=
  oneByte fun byte => first ≤ byte ∧ byte ≤ last

theorem multibyteTexts_eq :
    multibyteTexts =
      between 0xc2 0xdf * between 0x80 0xbf +
      (between 0xe0 0xe0 * (between 0xa0 0xbf * between 0x80 0xbf) +
      (between 0xe1 0xec * (between 0x80 0xbf * between 0x80 0xbf) +
      (between 0xed 0xed * (between 0x80 0x9f * between 0x80 0xbf) +
      (between 0xee 0xef * (between 0x80 0xbf * between 0x80 0xbf) +
      (between 0xf0 0xf0 * (between 0x90 0xbf * (between 0x80 0xbf * between 0x80 0xbf)) +
      (between 0xf1 0xf3 * (between 0x80 0xbf * (between 0x80 0xbf * between 0x80 0xbf)) +
      between 0xf4 0xf4 * (between 0x80 0x8f * (between 0x80 0xbf * between 0x80 0xbf)))))))) := by
  ext word
  simp only [Language.mem_add, mem_oneByte_mul, mem_oneByte]
  constructor
  · rintro ⟨c, hc, rfl⟩
    rcases utf8_table hc with ⟨first, second, hbytes, hfirst, hsecond⟩ |
      ⟨first, second, third, hbytes, hfirst, hsecond, hthird, hlong, hvalid⟩ |
      ⟨first, second, third, fourth, hbytes, hfirst, hsecond, hthird, hfourth, hlong, hvalid⟩
    · rw [hbytes]
      exact Or.inl ⟨first, _, rfl, hfirst, second, rfl, hsecond⟩
    · rw [hbytes]
      have hlead : first.toNat = 0xe0 ∨ (0xe1 ≤ first.toNat ∧ first.toNat ≤ 0xec) ∨
          first.toNat = 0xed ∨ 0xee ≤ first.toNat := by omega
      rcases hlead with h | h | h | h
      · exact Or.inr (Or.inl ⟨first, _, rfl, by omega, second, _, rfl, by omega, third, rfl, hthird⟩)
      · exact Or.inr (Or.inr (Or.inl
          ⟨first, _, rfl, h, second, _, rfl, hsecond, third, rfl, hthird⟩))
      · exact Or.inr (Or.inr (Or.inr (Or.inl
          ⟨first, _, rfl, by omega, second, _, rfl, by omega, third, rfl, hthird⟩)))
      · exact Or.inr (Or.inr (Or.inr (Or.inr (Or.inl
          ⟨first, _, rfl, by omega, second, _, rfl, hsecond, third, rfl, hthird⟩))))
    · rw [hbytes]
      have hlead : first.toNat = 0xf0 ∨ (0xf1 ≤ first.toNat ∧ first.toNat ≤ 0xf3) ∨
          first.toNat = 0xf4 := by omega
      rcases hlead with h | h | h
      · exact Or.inr (Or.inr (Or.inr (Or.inr (Or.inr (Or.inl ⟨first, _, rfl, by omega,
          second, _, rfl, by omega, third, _, rfl, hthird, fourth, rfl, hfourth⟩)))))
      · exact Or.inr (Or.inr (Or.inr (Or.inr (Or.inr (Or.inr (Or.inl ⟨first, _, rfl, h,
          second, _, rfl, hsecond, third, _, rfl, hthird, fourth, rfl, hfourth⟩))))))
      · exact Or.inr (Or.inr (Or.inr (Or.inr (Or.inr (Or.inr (Or.inr ⟨first, _, rfl, by omega,
          second, _, rfl, by omega, third, _, rfl, hthird, fourth, rfl, hfourth⟩))))))
  · rintro (⟨first, _, rfl, hfirst, second, rfl, hsecond⟩ |
      ⟨first, _, rfl, hfirst, second, _, rfl, hsecond, third, rfl, hthird⟩ |
      ⟨first, _, rfl, hfirst, second, _, rfl, hsecond, third, rfl, hthird⟩ |
      ⟨first, _, rfl, hfirst, second, _, rfl, hsecond, third, rfl, hthird⟩ |
      ⟨first, _, rfl, hfirst, second, _, rfl, hsecond, third, rfl, hthird⟩ |
      ⟨first, _, rfl, hfirst, second, _, rfl, hsecond, third, _, rfl, hthird, fourth, rfl, hfourth⟩ |
      ⟨first, _, rfl, hfirst, second, _, rfl, hsecond, third, _, rfl, hthird, fourth, rfl, hfourth⟩ |
      ⟨first, _, rfl, hfirst, second, _, rfl, hsecond, third, _, rfl, hthird, fourth, rfl, hfourth⟩)
    · exact utf8_two hfirst hsecond
    · apply utf8_three (by omega) (by omega) hthird <;> omega
    · apply utf8_three (by omega) hsecond hthird <;> omega
    · apply utf8_three (by omega) (by omega) hthird <;> omega
    · apply utf8_three (by omega) hsecond hthird <;> omega
    · apply utf8_four (by omega) (by omega) hthird hfourth <;> omega
    · apply utf8_four (by omega) hsecond hthird hfourth <;> omega
    · apply utf8_four (by omega) (by omega) hthird hfourth <;> omega

end Multibyte

section Shared

variable {err : SchemaError → Prop}

theorem builds_multibyteChar :
    Builds none multibyteChar
      (fun id rules _ => language rules [.rule id] = multibyteTexts) err := by
  apply builds_shared rfl
  apply (builds_newRule fun id =>
    (builds_alternative id _).after_alternative.after_alternative.after_alternative
      |>.after_alternative.after_alternative.after_alternative.after_alternative).weaken
  rintro id rules _ ⟨_, hbodies, _, rfl, _, rfl, _, rfl, _, rfl, _, rfl, _, rfl, rfl⟩
  rw [language_rule, hbodies, multibyteTexts_eq]
  simp only [choice_cons, choice_nil, add_zero, language_cons _ (_ :: _), language_class]

theorem utf8_ascii {c : Char} (hc : c.toNat < 0x80) :
    String.utf8EncodeChar c = [UInt8.ofNat c.toNat] := by
  have hval : c.val.toNat = c.toNat := rfl
  unfold String.utf8EncodeChar
  simp only [hval]
  rw [if_pos (by omega)]

theorem language_plainClass (rules : Rules) :
    language rules [.bytes plainClass] = oneByte fun byte =>
      0x20 ≤ byte ∧ byte ≤ 0x7f ∧ byte ≠ 0x22 ∧ byte ≠ 0x5c := by
  rw [language_bytes]
  ext word
  apply exists_congr
  intro byte
  apply and_congr_right
  intro _
  unfold plainClass
  simp only [contains_union, contains_range]
  omega

theorem language_simpleEscape (rules : Rules) :
    language rules [.bytes simpleEscape] = oneByte fun byte => ∃ c, (byte, c) ∈ shortEscapes := by
  rw [language_bytes]
  ext word
  apply exists_congr
  intro byte
  apply and_congr_right
  intro _
  unfold simpleEscape shortEscapes
  simp only [contains_union, contains_byte, List.mem_cons, Prod.mk.injEq, List.not_mem_nil, or_false,
    exists_or, or_assoc, exists_and_left, exists_eq, and_true]

theorem language_hexClass (rules : Rules) :
    language rules [.bytes hexClass] = oneByte IsHex := by
  rw [language_bytes]
  ext word
  apply exists_congr
  intro byte
  apply and_congr_right
  intro _
  unfold hexClass IsHex
  simp only [contains_union, contains_range, or_assoc]

theorem unitTexts_eq (rules : Rules) :
    unitTexts =
      language rules [.bytes plainClass] +
      (exactly "\\".toList * language rules [.bytes simpleEscape] +
      (exactly "\\u".toList * language rules [.bytes hexClass] ^ 4 + multibyteTexts)) := by
  rw [language_plainClass, language_simpleEscape, language_hexClass]
  ext word
  simp only [Language.mem_add, mem_exactly_mul, mem_oneByte_pow, mem_oneByte]
  constructor
  · rintro ⟨unit, hunit⟩
    cases hunit with
    | @plain c h =>
        obtain ⟨hspace, hquote, hslash⟩ := h
        rcases Nat.lt_or_ge c.toNat 0x80 with hlow | hhigh
        · rw [utf8_ascii hlow]
          refine Or.inl ⟨_, rfl, ?_⟩
          have hbyte : (UInt8.ofNat c.toNat).toNat = c.toNat := by
            rw [UInt8.toNat_ofNat']
            omega
          rw [hbyte]
          have hquote' : c.toNat ≠ 0x22 := fun h => hquote (Char.toNat_inj.mp h)
          have hslash' : c.toNat ≠ 0x5c := fun h => hslash (Char.toNat_inj.mp h)
          omega
        · exact Or.inr (Or.inr (Or.inr ⟨c, hhigh, rfl⟩))
    | @short letter c h => exact Or.inr (Or.inl ⟨[letter], rfl, letter, rfl, c, h⟩)
    | @code digits hlength hhex => exact Or.inr (Or.inr (Or.inl ⟨digits, rfl, hlength, hhex⟩))
  · rintro (⟨byte, rfl, hspace, hlow, hquote, hslash⟩ | ⟨_, rfl, letter, rfl, c, h⟩ |
      ⟨digits, rfl, hlength, hhex⟩ | ⟨c, hhigh, rfl⟩)
    · have hchar : (Char.ofNat byte.toNat).toNat = byte.toNat :=
        toNat_ofNat_of_valid (Or.inl (by omega))
      have hspell : Spells (.character (Char.ofNat byte.toNat)) _ := Spells.plain ⟨by omega,
        fun h => hquote (by rw [← hchar, h]; rfl), fun h => hslash (by rw [← hchar, h]; rfl)⟩
      rw [utf8_ascii (by omega), hchar, UInt8.ofNat_toNat] at hspell
      exact ⟨_, hspell⟩
    · exact ⟨_, Spells.short h⟩
    · exact ⟨_, Spells.code hlength hhex⟩
    · refine ⟨_, Spells.plain ⟨by omega, ?_, ?_⟩⟩
      · rintro rfl
        exact absurd hhigh (by decide)
      · rintro rfl
        exact absurd hhigh (by decide)

theorem builds_stringChar :
    Builds none stringChar (fun id rules _ => language rules [.rule id] = unitTexts) err := by
  apply builds_shared rfl
  apply (builds_newRule fun id =>
    (builds_multibyteChar.after_call fun multibyte =>
      builds_alternative id [.rule multibyte]).after_alternative.after_alternative
        |>.after_alternative).weaken
  rintro id rules _ ⟨_, hbodies, _, rfl, _, rfl, multibyte, hmultibyte, rfl⟩
  rw [language_rule, hbodies, unitTexts_eq rules]
  simp only [choice_cons, choice_nil, add_zero, language_append, language_text, hmultibyte,
    List.replicate, language_cons _ (_ :: _), pow_succ, pow_zero, one_mul, mul_assoc]

theorem builds_string :
    Builds none string (fun id rules _ => language rules [.rule id] = stringTexts) err := by
  apply builds_shared rfl
  apply (builds_stringChar.after_call fun character =>
    (builds_newRule fun tail => (builds_alternative tail []).after_alternative).after_call
      fun tail => builds_newRule fun id => builds_alternative id _).weaken
  rintro id rules _ ⟨character, hcharacter, tail, ⟨_, htail, rfl⟩, hbodies⟩
  have hloop : language rules [.rule tail] = unitTexts∗ := by
    have hbodies' : ∀ body, body ∈ rules.getD tail [] ↔
        body = [.rule character] ++ [.rule tail] ∨ body = [] := by
      intro body
      rw [htail, List.mem_pair]
      rfl
    rw [language_loop _ _ hbodies', hcharacter, language_nil, mul_one]
  rw [language_rule, hbodies, choice_cons, choice_nil, add_zero, language_append, language_append,
    language_text, hloop]
  rfl

end Shared

section Repetition

variable {err : SchemaError → Prop} {minimum : Nat} {maximum : Option Nat}

theorem builds_precede (item : Nat) (lead : List GrammarElement) (count after : Nat)
    (hcount : ∀ most ∈ maximum, count ≤ most) :
    Builds none (precede item lead minimum count after)
      (fun id rules _ =>
        language rules [.rule after] =
            followed (language rules [.rule item]) (language rules lead) minimum maximum (count + 1) →
          language rules [.rule id] =
            followed (language rules [.rule item]) (language rules lead) minimum maximum 1) err := by
  induction count generalizing after with
  | zero => exact builds_pure after fun _ h => h
  | succ count ih =>
      have hbody : ∀ next, Builds (some next)
          (do
            runIf (minimum ≤ count + 1) (alternative next [])
            alternative next (lead ++ [.rule item] ++ [.rule after])) _ err := fun next =>
        Builds.after_runIf (fun _ => builds_alternative next [])
          (builds_alternative next (lead ++ [.rule item] ++ [.rule after]))
      apply ((builds_newRule hbody).after_call fun next =>
        ih next fun most hmost => Nat.le_of_succ_le (hcount most hmost)).weaken
      rintro id rules _ ⟨next, ⟨left, _, hbodies, hleft, rfl⟩, hnext⟩ hafter
      apply hnext
      ext word
      rw [mem_followed_step, language_rule, hbodies, choice_append, Language.mem_add, choice_cons,
        choice_nil, add_zero, language_append, language_append, hafter]
      have hwithin : Within minimum maximum (count + 1) 0 ↔ minimum ≤ count + 1 :=
        ⟨fun h => h.1, fun h => ⟨h, hcount⟩⟩
      rw [hwithin]
      rcases hleft with ⟨henough, rfl⟩ | ⟨hfew, rfl⟩
      · simp [henough]
      · simp [hfew, Language.notMem_zero]

/-- What a maximum below the minimum or bounds above the limit are refused with. -/
structure RefusesBounds (minimum : Nat) (maximum : Option Nat) (err : SchemaError → Prop) :
    Prop where
  below : (∃ most ∈ maximum, most < minimum) → err (.unsupported "a maximum is below its minimum")
  above : (¬ ∃ most ∈ maximum, most < minimum) →
    (MAX_REPETITION < minimum ∨ ∃ most ∈ maximum, MAX_REPETITION < most) →
      err (.unsupported "repetition bounds above 1024")

/-- The rule behind the last item that the loop of `repetition` counts. -/
theorem language_first {rules : Rules} {item first : Nat} {lead : List GrammarElement}
    {more : Bodies} (hmore : rules.getD first [] = [] :: more)
    (hloop : maximum = none ∧ more = [lead ++ [.rule item] ++ [.rule first]] ∨
      ¬ maximum = none ∧ more = [])
    (hbounds : ∀ most ∈ maximum, minimum ≤ most) (hpositive : 0 < maximum.getD (max minimum 1)) :
    language rules [.rule first] =
      followed (language rules [.rule item]) (language rules lead) minimum maximum
        (maximum.getD (max minimum 1) - 1 + 1) := by
  rw [Nat.sub_add_cancel hpositive]
  rcases hloop with ⟨rfl, rfl⟩ | ⟨hsome, rfl⟩
  · have hbodies : ∀ body, body ∈ rules.getD first [] ↔
        body = lead ++ [.rule item] ++ [.rule first] ∨ body = [] := by
      intro body
      rw [hmore, List.mem_pair, or_comm]
    rw [language_loop _ _ hbodies, language_nil, mul_one, language_append, Option.getD_none,
      followed_unbounded (Nat.le_max_left _ _)]
  · obtain ⟨most, rfl⟩ := Option.ne_none_iff_exists'.mp hsome
    rw [language_rule, hmore, choice_cons, choice_nil, add_zero, language_nil, Option.getD_some,
      followed_full (hbounds most rfl)]

theorem builds_repetition (item : Nat) (separator : Option (List GrammarElement))
    (herr : RefusesBounds minimum maximum err) :
    Builds none (repetition item separator minimum maximum)
      (fun id rules _ => language rules [.rule id] =
        repeated (language rules [.rule item]) (language rules (separator.getD [])) minimum
          maximum) err := by
  apply Builds.after_check herr.below
  intro hbelow
  apply Builds.after_check (herr.above hbelow)
  intro _
  have hbounds : ∀ most ∈ maximum, minimum ≤ most := fun most hmost =>
    Nat.le_of_not_lt fun hlt => hbelow ⟨most, hmost, hlt⟩
  have hlast : ∀ most ∈ maximum, maximum.getD (max minimum 1) - 1 ≤ most := by
    rintro most hmost
    rw [Option.mem_def.mp hmost]
    exact Nat.sub_le _ _
  have hfirst : ∀ first, Builds (some first)
      (do
        alternative first []
        runIf (maximum = none)
          (alternative first (separator.getD [] ++ [.rule item] ++ [.rule first]))) _ err :=
    fun first => (builds_runIf fun _ => builds_alternative first
      (separator.getD [] ++ [.rule item] ++ [.rule first])).after_alternative
  have hid : ∀ after id, Builds (some id)
      (do
        runIf (minimum = 0) (alternative id [])
        runIf (0 < maximum.getD (max minimum 1)) (alternative id [.rule item, .rule after])) _ err :=
    fun after id => Builds.after_runIf (fun _ => builds_alternative id [])
      (builds_runIf fun _ => builds_alternative id [.rule item, .rule after])
  apply ((builds_newRule hfirst).after_call fun first =>
    (builds_precede item (separator.getD []) _ first hlast).after_call fun after =>
      builds_newRule (hid after)).weaken
  rintro id rules _ ⟨first, ⟨more, hmore, hloop⟩, after, hafter, start, rest, hbodies, hstart, hrest⟩
  have hzero : Within minimum maximum 0 0 ↔ minimum = 0 :=
    ⟨fun h => Nat.le_zero.mp h.1, fun h => ⟨Nat.le_of_eq h, fun _ _ => Nat.zero_le _⟩⟩
  ext word
  rw [mem_repeated_step, hzero, language_rule, hbodies, choice_append, Language.mem_add]
  apply or_congr
  · rcases hstart with ⟨hnone, rfl⟩ | ⟨hsome, rfl⟩
    · simp [hnone]
    · simp [hsome, Language.notMem_zero]
  · rcases hrest with ⟨hpositive, rfl⟩ | ⟨hempty, rfl⟩
    · have hfollow := hafter (language_first hmore hloop hbounds hpositive)
      rw [choice_cons, choice_nil, add_zero, language_cons _ (_ :: _), hfollow]
    · have hmax : maximum = some 0 := by
        cases maximum with
        | none => exact absurd (show 0 < max minimum 1 by omega) hempty
        | some most => exact congrArg some (Nat.eq_zero_of_not_pos hempty)
      have hnothing : followed (language rules [.rule item]) (language rules (separator.getD []))
          minimum maximum 1 = 0 := by
        ext word
        rw [mem_followed, hmax]
        constructor
        · rintro ⟨more, ⟨_, hmost⟩, _⟩
          have := hmost 0 rfl
          omega
        · exact fun h => absurd h (Language.notMem_zero _)
      rw [hnothing, mul_zero, choice_nil]

theorem builds_boundedString (herr : RefusesBounds minimum maximum err) :
    Builds none (boundedString minimum maximum)
      (fun id rules _ => language rules [.rule id] =
        quoteText * repeated unitTexts 1 minimum maximum * quoteText) err := by
  apply builds_ite
  · rintro ⟨rfl, rfl⟩
    apply builds_string.weaken
    intro id rules _ hid
    rw [hid, repeated_star]
    rfl
  · intro _
    apply (builds_stringChar.after_call fun character =>
      (builds_repetition character none herr).after_call fun body =>
        builds_newRule fun id => builds_alternative id _).weaken
    rintro id rules _ ⟨character, hcharacter, body, hbody, hbodies⟩
    rw [hcharacter, Option.getD_none, language_nil] at hbody
    rw [language_rule, hbodies, choice_cons, choice_nil, add_zero, language_append, language_append,
      language_text, hbody]
    rfl

end Repetition

end Riley.Structured
