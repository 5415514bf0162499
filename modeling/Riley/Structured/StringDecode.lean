import Mathlib
import Riley.Structured.StringSpec

/-!
The string grammar against the JSON strings whose decoded text keeps the length
bounds. The units of a body are determined by its bytes; decoding joins an escaped
surrogate pair into one character and fails on a surrogate alone, where the
grammar counts every unit as one character.
-/

namespace Riley.Structured

open Computability Riley.Derivation Outcome
open Constraint (Grammar GrammarElement)
open Utf8 (Text)

/-- How a list of units is spelled. -/
inductive Spelling : List StringUnit → List UInt8 → Prop
  | nil : Spelling [] []
  | cons {unit : StringUnit} {units : List StringUnit} {first rest : List UInt8}
      (hfirst : Spells unit first) (hrest : Spelling units rest) :
      Spelling (unit :: units) (first ++ rest)

def IsHigh (code : Nat) : Prop := 0xd800 ≤ code ∧ code ≤ 0xdbff

def IsLow (code : Nat) : Prop := 0xdc00 ≤ code ∧ code ≤ 0xdfff

instance isHighDecidable (code : Nat) : Decidable (IsHigh code) :=
  inferInstanceAs (Decidable (_ ∧ _))

instance isLowDecidable (code : Nat) : Decidable (IsLow code) :=
  inferInstanceAs (Decidable (_ ∧ _))

/-- The character of a surrogate pair. -/
def joinSurrogates (high low : Nat) : Char :=
  Char.ofNat (0x10000 + (high - 0xd800) * 0x400 + (low - 0xdc00))

/-- The text of the units of a string, if every escaped surrogate stands in a pair. -/
def decode : List StringUnit → Option Text
  | [] => some []
  | .character c :: rest => (decode rest).map (c :: ·)
  | .code high :: .code low :: rest =>
      if IsHigh high ∧ IsLow low then (decode rest).map (joinSurrogates high low :: ·)
      else if IsHigh high ∨ IsLow high then none
      else (decode (.code low :: rest)).map (Char.ofNat high :: ·)
  | .code value :: rest =>
      if IsHigh value ∨ IsLow value then none else (decode rest).map (Char.ofNat value :: ·)

def StringUnit.isHigh : StringUnit → Bool
  | .character _ => false
  | .code value => decide (IsHigh value)

/-- How many escapes of a body are the first of a surrogate pair, if none stands alone. -/
def surrogatePairs (units : List StringUnit) : Nat := units.countP StringUnit.isHigh

/-- The byte strings of a JSON string with so many characters. -/
def IsJsonString (minimum : Nat) (maximum : Option Nat) (word : List UInt8) : Prop :=
  ∃ body units text, word = [0x22] ++ body ++ [0x22] ∧ Spelling units body ∧
    decode units = some text ∧ Within minimum maximum 0 text.length

/-- Counting every escape as a character makes no difference to the bounds: a string with
a surrogate alone is outside of them, and in any other string the pairs may count once or
twice. -/
def PairsDoNotCount (minimum : Nat) (maximum : Option Nat) (word : List UInt8) : Prop :=
  ∀ body units, word = [0x22] ++ body ++ [0x22] → Spelling units body →
    (decode units = none → ¬ Within minimum maximum 0 units.length) ∧
    (decode units ≠ none → (Within minimum maximum 0 units.length ↔
      Within minimum maximum 0 (units.length - surrogatePairs units)))

section Spelling

theorem shortEscapes_letter {letter : Nat} {c c' : Char} (h : (letter, c) ∈ shortEscapes)
    (h' : (letter, c') ∈ shortEscapes) : c = c' := by
  have hunique : ∀ first ∈ shortEscapes, ∀ second ∈ shortEscapes, first.1 = second.1 →
      first.2 = second.2 := by decide
  exact hunique _ h _ h' rfl

theorem shortEscapes_not_u (c : Char) : (0x75, c) ∉ shortEscapes := by
  intro h
  have hletters : ∀ entry ∈ shortEscapes, entry.1 ≠ 0x75 := by decide
  exact hletters _ h rfl

theorem backslash_of_plain {c : Char} {rest rest' : List UInt8}
    (h : String.utf8EncodeChar c ++ rest = 0x5c :: rest') : c = '\\' := by
  have hfirst := Utf8.decodeFirst_append c rest
  have hslash : Utf8.decodeFirst (0x5c :: rest') = some '\\' := Utf8.decodeFirst_append '\\' rest'
  rw [h, hslash] at hfirst
  exact (Option.some.inj hfirst).symm

/-- No spelling begins with another. -/
theorem spells_unique {unit unit' : StringUnit} {first first' rest rest' : List UInt8}
    (h : Spells unit first) (h' : Spells unit' first') (heq : first ++ rest = first' ++ rest') :
    unit = unit' ∧ rest = rest' := by
  cases h with
  | @plain c hc =>
      cases h' with
      | @plain c' hc' =>
          have hfirst := Utf8.decodeFirst_append c rest
          rw [heq, Utf8.decodeFirst_append] at hfirst
          obtain rfl := Option.some.inj hfirst
          exact ⟨rfl, List.append_cancel_left heq⟩
      | short _ => exact absurd (backslash_of_plain heq) hc.2.2
      | code _ _ => exact absurd (backslash_of_plain heq) hc.2.2
  | @short letter c hmem =>
      cases h' with
      | plain hc' => exact absurd (backslash_of_plain heq.symm) hc'.2.2
      | @short letter' c' hmem' =>
          obtain ⟨-, hletter, hrest⟩ : True ∧ letter = letter' ∧ rest = rest' := by
            simpa using heq
          subst hletter
          exact ⟨congrArg _ (shortEscapes_letter hmem hmem'), hrest⟩
      | @code digits hlength hhex =>
          have hletter : letter = 0x75 := (List.cons.inj (List.cons.inj heq).2).1
          rw [hletter] at hmem
          exact absurd hmem (shortEscapes_not_u c)
  | @code digits hlength hhex =>
      cases h' with
      | plain hc' => exact absurd (backslash_of_plain heq.symm) hc'.2.2
      | @short letter' c' hmem' =>
          have hletter : (0x75 : UInt8) = letter' := (List.cons.inj (List.cons.inj heq).2).1
          rw [← hletter] at hmem'
          exact absurd hmem' (shortEscapes_not_u c')
      | @code digits' hlength' hhex' =>
          have hdigits : digits ++ rest = digits' ++ rest' :=
            (List.cons.inj (List.cons.inj heq).2).2
          obtain ⟨rfl, hrest⟩ := List.append_inj hdigits (hlength.trans hlength'.symm)
          exact ⟨rfl, hrest⟩

theorem spells_ne_nil {unit : StringUnit} {first : List UInt8} (h : Spells unit first) :
    first ≠ [] := by
  cases h with
  | plain _ => exact Utf8.utf8EncodeChar_ne_nil _
  | short _ => exact nofun
  | code _ _ => exact nofun

/-- The bytes of a body determine its units. -/
theorem Spelling.unique {units units' : List StringUnit} {body body' : List UInt8}
    (h : Spelling units body) (h' : Spelling units' body') (heq : body = body') :
    units = units' := by
  induction h generalizing units' body' with
  | nil =>
      cases h' with
      | nil => rfl
      | cons hfirst _ =>
          exact absurd (List.append_eq_nil_iff.mp heq.symm).1 (spells_ne_nil hfirst)
  | cons hfirst hrest ih =>
      cases h' with
      | nil => exact absurd (List.append_eq_nil_iff.mp heq).1 (spells_ne_nil hfirst)
      | cons hfirst' hrest' =>
          obtain ⟨rfl, htail⟩ := spells_unique hfirst hfirst' heq
          rw [ih hrest' htail]

theorem mem_unitTexts_pow {count : Nat} {body : List UInt8} :
    body ∈ unitTexts ^ count ↔ ∃ units, units.length = count ∧ Spelling units body := by
  induction count generalizing body with
  | zero =>
      rw [pow_zero, Language.mem_one]
      constructor
      · rintro rfl
        exact ⟨[], rfl, .nil⟩
      · rintro ⟨units, hunits, hspelling⟩
        obtain rfl := List.length_eq_zero_iff.mp hunits
        cases hspelling
        rfl
  | succ count ih =>
      rw [pow_succ', Language.mem_mul]
      constructor
      · rintro ⟨first, ⟨unit, hunit⟩, rest, hrest, rfl⟩
        obtain ⟨units, hunits, hspelling⟩ := ih.mp hrest
        exact ⟨unit :: units, congrArg Nat.succ hunits, .cons hunit hspelling⟩
      · rintro ⟨units, hunits, hspelling⟩
        cases hspelling with
        | nil => cases hunits
        | cons hfirst hrest =>
            exact ⟨_, ⟨_, hfirst⟩, _, ih.mpr ⟨_, Nat.succ.inj hunits, hrest⟩, rfl⟩

@[simp] theorem surrogatePairs_character (c : Char) (units : List StringUnit) :
    surrogatePairs (.character c :: units) = surrogatePairs units :=
  List.countP_cons_of_neg nofun

theorem surrogatePairs_high {value : Nat} (h : IsHigh value) (units : List StringUnit) :
    surrogatePairs (.code value :: units) = surrogatePairs units + 1 :=
  List.countP_cons_of_pos (decide_eq_true h)

theorem surrogatePairs_other {value : Nat} (h : ¬ IsHigh value) (units : List StringUnit) :
    surrogatePairs (.code value :: units) = surrogatePairs units :=
  List.countP_cons_of_neg fun hhigh => h (of_decide_eq_true hhigh)

theorem not_isHigh_of_isLow {value : Nat} (h : IsLow value) : ¬ IsHigh value := by
  unfold IsLow at h
  unfold IsHigh
  omega

/-- Every pair makes one character of two escapes. -/
theorem length_decode {units : List StringUnit} {text : Text} (h : decode units = some text) :
    text.length + surrogatePairs units = units.length := by
  induction units using decode.induct generalizing text with
  | case1 =>
      cases h
      rfl
  | case2 c rest ih =>
      rw [decode, Option.map_eq_some_iff] at h
      obtain ⟨tail, htail, rfl⟩ := h
      have hlength := ih htail
      rw [surrogatePairs_character, List.length_cons, List.length_cons]
      omega
  | case3 high low rest hpair ih =>
      rw [decode, if_pos hpair, Option.map_eq_some_iff] at h
      obtain ⟨tail, htail, rfl⟩ := h
      have hlength := ih htail
      rw [surrogatePairs_high hpair.1, surrogatePairs_other (not_isHigh_of_isLow hpair.2),
        List.length_cons, List.length_cons, List.length_cons]
      omega
  | case4 high low rest hpair hsurrogate =>
      rw [decode, if_neg hpair, if_pos hsurrogate] at h
      cases h
  | case5 high low rest hpair hsurrogate ih =>
      rw [decode, if_neg hpair, if_neg hsurrogate, Option.map_eq_some_iff] at h
      obtain ⟨tail, htail, rfl⟩ := h
      have hlength := ih htail
      rw [surrogatePairs_other fun hhigh => hsurrogate (Or.inl hhigh), List.length_cons,
        List.length_cons]
      omega
  | case6 value rest hnext hsurrogate =>
      rw [decode, if_pos hsurrogate] at h
      · cases h
      · exact hnext
  | case7 value rest hnext hsurrogate ih =>
      rw [decode, if_neg hsurrogate, Option.map_eq_some_iff] at h
      · obtain ⟨tail, htail, rfl⟩ := h
        have hlength := ih htail
        rw [surrogatePairs_other fun hhigh => hsurrogate (Or.inl hhigh), List.length_cons,
          List.length_cons]
        omega
      · exact hnext

end Spelling

section Claim

variable {minimum : Nat} {maximum : Option Nat} {word : List UInt8}

/-- The strings of the grammar count units. -/
theorem mem_stringTexts :
    word ∈ quoteText * repeated unitTexts 1 minimum maximum * quoteText ↔
      ∃ body units, word = [0x22] ++ body ++ [0x22] ∧ Spelling units body ∧
        Within minimum maximum 0 units.length := by
  have hquote : Utf8.encode "\"".toList = [0x22] := by decide
  rw [mul_assoc]
  unfold quoteText
  rw [mem_exactly_mul]
  constructor
  · rintro ⟨_, rfl, hbody⟩
    obtain ⟨body, ⟨count, hwithin, hjoined⟩, _, rfl, rfl⟩ := Language.mem_mul.mp hbody
    rw [joined_one] at hjoined
    obtain ⟨units, rfl, hspelling⟩ := mem_unitTexts_pow.mp hjoined
    rw [hquote]
    exact ⟨body, units, (List.append_assoc _ _ _).symm, hspelling, hwithin⟩
  · rintro ⟨body, units, rfl, hspelling, hwithin⟩
    refine ⟨body ++ [0x22], by rw [hquote, List.append_assoc], ?_⟩
    refine Language.mem_mul.mpr ⟨body, ⟨units.length, hwithin, ?_⟩, _, hquote.symm, rfl⟩
    rw [joined_one]
    exact mem_unitTexts_pow.mpr ⟨units, rfl, hspelling⟩

theorem quoted_inj {body body' : List UInt8}
    (h : [0x22] ++ body ++ [0x22] = [0x22] ++ body' ++ ([0x22] : List UInt8)) : body = body' := by
  rw [List.append_assoc, List.append_assoc] at h
  exact List.append_cancel_right (List.append_cancel_left h)

/-- Counting units accepts the right byte strings where the pairs do not count. -/
theorem stringTexts_iff :
    (word ∈ quoteText * repeated unitTexts 1 minimum maximum * quoteText ↔
      IsJsonString minimum maximum word) ↔ PairsDoNotCount minimum maximum word := by
  rw [mem_stringTexts]
  constructor
  · rintro hexact body units rfl hspelling
    have hleft : (∃ body' units', [0x22] ++ body ++ [0x22] = [0x22] ++ body' ++ [0x22] ∧
        Spelling units' body' ∧ Within minimum maximum 0 units'.length) ↔
          Within minimum maximum 0 units.length := by
      constructor
      · rintro ⟨body', units', hbody, hspelling', hwithin⟩
        rwa [hspelling.unique hspelling' (quoted_inj hbody)]
      · exact fun hwithin => ⟨body, units, rfl, hspelling, hwithin⟩
    rw [hleft] at hexact
    constructor
    · intro hnone hwithin
      obtain ⟨body', units', text, hbody, hspelling', hdecode, _⟩ := hexact.mp hwithin
      rw [← hspelling.unique hspelling' (quoted_inj hbody), hnone] at hdecode
      cases hdecode
    · intro hsome
      obtain ⟨text, htext⟩ := Option.ne_none_iff_exists'.mp hsome
      have hlength : units.length - surrogatePairs units = text.length := by
        have := length_decode htext
        omega
      rw [hexact, hlength]
      constructor
      · rintro ⟨body', units', text', hbody, hspelling', hdecode, hwithin⟩
        rw [← hspelling.unique hspelling' (quoted_inj hbody), htext] at hdecode
        rwa [Option.some.inj hdecode]
      · exact fun hwithin => ⟨body, units, text, rfl, hspelling, htext, hwithin⟩
  · intro hpairs
    constructor
    · rintro ⟨body, units, rfl, hspelling, hwithin⟩
      obtain ⟨halone, hcount⟩ := hpairs body units rfl hspelling
      cases htext : decode units with
      | none => exact absurd hwithin (halone htext)
      | some text =>
          have hlength := length_decode htext
          rw [hcount (by rw [htext]; exact nofun)] at hwithin
          exact ⟨body, units, text, rfl, hspelling, htext, by
            rwa [show text.length = units.length - surrogatePairs units by omega]⟩
    · rintro ⟨body, units, text, rfl, hspelling, htext, hwithin⟩
      obtain ⟨_, hcount⟩ := hpairs body units rfl hspelling
      have hlength := length_decode htext
      refine ⟨body, units, rfl, hspelling, ?_⟩
      rw [hcount (by rw [htext]; exact nofun)]
      rwa [show units.length - surrogatePairs units = text.length by omega]

/-- The bounds that a repetition accepts. -/
def BoundsFit (minimum : Nat) (maximum : Option Nat) : Prop :=
  minimum ≤ MAX_REPETITION ∧ ∀ most ∈ maximum, minimum ≤ most ∧ most ≤ MAX_REPETITION

theorem BoundsFit.refuses (h : BoundsFit minimum maximum) (err : SchemaError → Prop) :
    RefusesBounds minimum maximum err where
  below := by
    rintro ⟨most, hmost, hlt⟩
    exact absurd (h.2 most hmost).1 (Nat.not_le_of_lt hlt)
  above := by
    rintro - (hlt | ⟨most, hmost, hlt⟩)
    · exact absurd h.1 (Nat.not_le_of_lt hlt)
    · exact absurd (h.2 most hmost).2 (Nat.not_le_of_lt hlt)

theorem repetition_refuses (item : Nat) (separator : Option (List GrammarElement))
    (h : ¬ BoundsFit minimum maximum) (before : SchemaCompiler) :
    wp (repetition item separator minimum maximum) (fun _ _ => False) (fun _ _ => True) before := by
  apply wp_check fun _ => trivial
  intro hbelow
  apply wp_check fun _ => trivial
  intro habove
  refine absurd ⟨Nat.le_of_not_lt fun hlt => habove (Or.inl hlt), fun most hmost => ⟨?_, ?_⟩⟩ h
  · exact Nat.le_of_not_lt fun hlt => hbelow ⟨most, hmost, hlt⟩
  · exact Nat.le_of_not_lt fun hlt => habove (Or.inr ⟨most, hmost, hlt⟩)

/-- Refused bounds, and no others, are what `bounded_string` fails on. -/
theorem boundedString_ok (minimum : Nat) (maximum : Option Nat) (before : SchemaCompiler) :
    (∃ id now, boundedString minimum maximum before = .ok id now) ↔
      BoundsFit minimum maximum := by
  constructor
  · rintro ⟨id, now, hrun⟩
    by_contra hbounds
    have hfails : wp (boundedString minimum maximum) (fun _ _ => False) (fun _ _ => True) before := by
      unfold boundedString
      apply wp_ite
      · rintro ⟨rfl, rfl⟩
        exact absurd ⟨Nat.zero_le _, nofun⟩ hbounds
      · intro _
        have hcharacter := (builds_stringChar before nofun : wp stringChar _ (fun _ _ => True) _)
        apply wp_call hcharacter
        · intro character now _
          exact wp_call (repetition_refuses character none hbounds now) (fun _ _ => False.elim)
            fun _ _ _ => trivial
        · exact fun _ _ _ => trivial
    exact (wp_elim hfails).1 id now hrun
  · intro hbounds
    have hbuilt := builds_boundedString (hbounds.refuses fun _ => False) before nofun
    obtain ⟨id, now, hrun, _⟩ := wp_ok_iff.mp hbuilt
    exact ⟨id, now, hrun⟩

/-- The grammar of a string counts its units. -/
theorem yields_boundedString {before now : SchemaCompiler} {id : Nat} {g : Grammar}
    (hrun : boundedString minimum maximum before = .ok id now) (hg : Compiled g.rules before now) :
    g.Yields [.rule id] word ↔
      ∃ body units, word = [0x22] ++ body ++ [0x22] ∧ Spelling units body ∧
        Within minimum maximum 0 units.length := by
  have hrefuses : RefusesBounds minimum maximum fun _ => True :=
    ⟨fun _ => trivial, fun _ _ => trivial⟩
  rw [yields_iff, (builds_boundedString hrefuses).compiled hrun hg, mem_stringTexts]

/-- The string grammar of the bounds accepts a byte string exactly when it is a JSON string
within them, for the byte strings whose surrogate pairs do not count, and no others. -/
theorem boundedString_exact_iff (minimum : Nat) (maximum : Option Nat) (before : SchemaCompiler) :
    ((∃ id now, boundedString minimum maximum before = .ok id now) ↔
      BoundsFit minimum maximum) ∧
    ∀ (id : Nat) (now : SchemaCompiler) (g : Grammar),
      boundedString minimum maximum before = .ok id now → Compiled g.rules before now →
      ∀ word, (g.Yields [.rule id] word ↔ IsJsonString minimum maximum word) ↔
        PairsDoNotCount minimum maximum word := by
  refine ⟨boundedString_ok minimum maximum before, ?_⟩
  intro id now g hrun hg word
  rw [yields_boundedString hrun hg, ← mem_stringTexts]
  exact stringTexts_iff

/-- A grammar for strings of any length. -/
theorem exists_string_grammar :
    ∃ (id : Nat) (now : SchemaCompiler) (g : Grammar),
      boundedString 0 none (SchemaCompiler.new .null) = .ok id now ∧
      Compiled g.rules (SchemaCompiler.new .null) now := by
  apply exists_compiled
  decide +kernel

/-- The spelling of a string decides whether its pairs count. -/
theorem pairsDoNotCount_iff {body : List UInt8} {units : List StringUnit}
    (hspelling : Spelling units body) :
    PairsDoNotCount minimum maximum ([0x22] ++ body ++ [0x22]) ↔
      (decode units = none → ¬ Within minimum maximum 0 units.length) ∧
      (decode units ≠ none → (Within minimum maximum 0 units.length ↔
        Within minimum maximum 0 (units.length - surrogatePairs units))) := by
  constructor
  · exact fun h => h body units rfl hspelling
  · intro h body' units' hbody hspelling'
    rwa [← hspelling.unique hspelling' (quoted_inj hbody)]

/-- An escaped pair of surrogates. -/
def pairBody : List UInt8 :=
  [0x5c, 0x75, 0x64, 0x38, 0x33, 0x64] ++ ([0x5c, 0x75, 0x64, 0x65, 0x30, 0x30] ++ [])

theorem pairBody_spelling : Spelling [.code 0xd83d, .code 0xde00] pairBody := by
  have hhigh : Spells (.code (hexNumber [0x64, 0x38, 0x33, 0x64]))
      ([0x5c, 0x75] ++ [0x64, 0x38, 0x33, 0x64]) := .code rfl (by simp [IsHex])
  have hlow : Spells (.code (hexNumber [0x64, 0x65, 0x30, 0x30]))
      ([0x5c, 0x75] ++ [0x64, 0x65, 0x30, 0x30]) := .code rfl (by simp [IsHex])
  exact .cons hhigh (.cons hlow .nil)

theorem letterPair_spelling :
    Spelling [.character 'a', .code 0xd83d, .code 0xde00] ([0x61] ++ pairBody) :=
  .cons (.plain ⟨by decide, by decide, by decide⟩) pairBody_spelling

/-- In a string of one or two characters a pair by itself makes no difference; behind a
letter it is refused as a third character. -/
theorem boundedString_exact_iff_letter :
    ∃ (id : Nat) (now : SchemaCompiler) (g : Grammar),
      boundedString 1 (some 2) (SchemaCompiler.new .null) = .ok id now ∧
      (g.Yields [.rule id] ([0x22] ++ pairBody ++ [0x22]) ↔
        IsJsonString 1 (some 2) ([0x22] ++ pairBody ++ [0x22])) ∧
      ¬ (g.Yields [.rule id] ([0x22] ++ ([0x61] ++ pairBody) ++ [0x22]) ↔
        IsJsonString 1 (some 2) ([0x22] ++ ([0x61] ++ pairBody) ++ [0x22])) := by
  have hcompiles : compiles (boundedString 1 (some 2)) .null = true := by decide +kernel
  obtain ⟨id, now, g, hrun, hg⟩ := exists_compiled hcompiles
  have hexact := (boundedString_exact_iff 1 (some 2) _).2 id now g hrun hg
  refine ⟨id, now, g, hrun, (hexact _).mpr ?_, fun hsame => ?_⟩
  · rw [pairsDoNotCount_iff pairBody_spelling]
    have hdecode : decode [.code 0xd83d, .code 0xde00] ≠ none := by decide
    have hpairs : surrogatePairs [.code 0xd83d, .code 0xde00] = 1 := by decide
    refine ⟨fun hnone => absurd hnone hdecode, fun _ => ?_⟩
    simp [Within, hpairs]
  · have hpairs : surrogatePairs [.character 'a', .code 0xd83d, .code 0xde00] = 1 := by decide
    have hcounts := (pairsDoNotCount_iff letterPair_spelling).mp ((hexact _).mp hsame)
    have hwithin := (hcounts.2 (by decide)).mpr
    simp [Within, hpairs] at hwithin

/-- A string that is nothing but a high surrogate is accepted. -/
theorem boundedString_lone_surrogate :
    ∃ (id : Nat) (now : SchemaCompiler) (g : Grammar),
      boundedString 0 none (SchemaCompiler.new .null) = .ok id now ∧
      Compiled g.rules (SchemaCompiler.new .null) now ∧
      g.Yields [.rule id] [0x22, 0x5c, 0x75, 0x64, 0x38, 0x30, 0x30, 0x22] ∧
      ¬ IsJsonString 0 none [0x22, 0x5c, 0x75, 0x64, 0x38, 0x30, 0x30, 0x22] := by
  obtain ⟨id, now, g, hrun, hg⟩ := exists_string_grammar
  have hspells : Spells (.code 0xd800) [0x5c, 0x75, 0x64, 0x38, 0x30, 0x30] := by
    have hcode : Spells (.code (hexNumber [0x64, 0x38, 0x30, 0x30]))
        ([0x5c, 0x75] ++ [0x64, 0x38, 0x30, 0x30]) := Spells.code rfl (by simp [IsHex])
    exact hcode
  have hspelling : Spelling [.code 0xd800] [0x5c, 0x75, 0x64, 0x38, 0x30, 0x30] :=
    Spelling.cons hspells Spelling.nil
  refine ⟨id, now, g, hrun, hg, ?_, ?_⟩
  · exact (yields_boundedString hrun hg).mpr ⟨_, _, rfl, hspelling, Nat.zero_le _, nofun⟩
  · rintro ⟨body, units, text, hbody, hspelling', hdecode, _⟩
    have halone : decode [.code 0xd800] = none := by decide
    rw [← hspelling.unique hspelling' (quoted_inj hbody), halone] at hdecode
    cases hdecode

end Claim

end Riley.Structured
