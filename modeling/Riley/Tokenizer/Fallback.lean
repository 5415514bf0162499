import Riley.Tokenizer.Mistral

/-!
Fallback tokens: the bytes of a character are told by tokens of their own, which stay
together. Symbols that cover a text are tokens that stand for their own characters and
the fallback tokens of others.
-/

namespace Riley.Tokenizer

open Utf8 (Text)

section Fallback

theorem upperHex_injective {first second : Nat} (hfirst : first < 16) (hsecond : second < 16)
    (h : upperHex first = upperHex second) : first = second := by
  have htable : ∀ first ∈ List.range 16, ∀ second ∈ List.range 16,
      upperHex first = upperHex second → first = second := by
    decide
  exact htable first (List.mem_range.mpr hfirst) second (List.mem_range.mpr hsecond) h

theorem fallbackToken_injective {first second : UInt8}
    (h : fallbackToken first = fallbackToken second) : first = second := by
  unfold fallbackToken at h
  simp only [List.cons.injEq, true_and, and_true] at h
  have hfirst := first.toNat_lt
  have hsecond := second.toNat_lt
  have hhigh := upperHex_injective (by omega) (by omega) h.1
  have hlow := upperHex_injective (by omega) (by omega) h.2
  apply UInt8.toNat_inj.mp
  omega

/-- The lead byte of a character tells how many bytes it has. -/
theorem leadWidth_utf8EncodeChar (character : Char) :
    ∃ lead rest, String.utf8EncodeChar character = lead :: rest ∧
      leadWidth lead = some (rest.length + 1) := by
  have hbound : character.val.toNat < 0x110000 := by
    rcases character.valid with h | ⟨_, h⟩
    · exact Nat.lt_trans h (by decide)
    · exact h
  have hnat : ∀ value, value < 256 → (UInt8.ofNat value).toNat = value :=
    fun value hlt => UInt8.toNat_ofNat_of_lt' hlt
  unfold String.utf8EncodeChar leadWidth
  simp only [UInt8.le_iff_toNat_le, UInt8.reduceToNat]
  split
  · refine ⟨_, _, rfl, ?_⟩
    rw [hnat _ (by omega), if_pos (by omega)]
    rfl
  split
  · refine ⟨_, _, rfl, ?_⟩
    rw [hnat _ (by omega), if_neg (by omega), if_pos (by omega)]
    rfl
  split
  · refine ⟨_, _, rfl, ?_⟩
    rw [hnat _ (by omega), if_neg (by omega), if_neg (by omega), if_pos (by omega)]
    rfl
  · refine ⟨_, _, rfl, ?_⟩
    rw [hnat _ (by omega), if_neg (by omega), if_neg (by omega), if_neg (by omega),
      if_pos (by omega)]
    rfl

/-- The bytes that are left of a character end it. -/
theorem validUtf8BytesFrom_rest {pending bytes : Bytes} {width : Nat} {character : Char}
    (hpending : pending ≠ []) (hbytes : bytes ≠ [])
    (hsplit : pending ++ bytes = String.utf8EncodeChar character)
    (hwidth : (pending ++ bytes).length = width) (rest : Bytes) :
    validUtf8BytesFrom pending width (bytes ++ rest) = validUtf8BytesFrom [] width rest := by
  induction bytes generalizing pending with
  | nil => exact absurd rfl hbytes
  | cons byte bytes ih =>
      have hone : width ≠ 1 := by
        have hpos := List.length_pos_iff.mpr hpending
        rw [List.length_append, List.length_cons] at hwidth
        omega
      rw [List.cons_append, validUtf8BytesFrom, if_neg hpending]
      simp only [if_neg hone]
      cases bytes with
      | nil =>
          have hdecoded : Utf8.fromUtf8 (pending ++ [byte]) = .ok [character] := by
            rw [hsplit]
            have hencode := Utf8.fromUtf8_encode [character]
            rwa [Utf8.encode_cons, Utf8.encode_nil, List.append_nil] at hencode
          rw [if_pos hwidth, hdecoded, List.nil_append]
      | cons next bytes =>
          have hshort : (pending ++ [byte]).length ≠ width := by
            rw [← hwidth, List.length_append, List.length_append]
            simp
          rw [if_neg hshort]
          apply ih (List.append_ne_nil_of_right_ne_nil _ (List.cons_ne_nil _ _))
            (List.cons_ne_nil _ _)
          · rw [List.append_assoc]
            exact hsplit
          · rw [List.append_assoc]
            exact hwidth

theorem validUtf8BytesFrom_encode (text : Text) (width : Nat) :
    validUtf8BytesFrom [] width (Utf8.encode text) = true := by
  induction text generalizing width with
  | nil => rfl
  | cons character text ih =>
      obtain ⟨lead, rest, hencode, hlead⟩ := leadWidth_utf8EncodeChar character
      rw [Utf8.encode_cons, hencode, List.cons_append, validUtf8BytesFrom, if_pos rfl, hlead]
      cases rest with
      | nil => exact ih 1
      | cons next rest =>
          have hone : (next :: rest).length + 1 ≠ 1 := by simp
          have hshort : [lead].length ≠ (next :: rest).length + 1 := by simp
          simp only [if_neg hone, List.nil_append, if_neg hshort]
          have hrest := validUtf8BytesFrom_rest (List.cons_ne_nil lead []) (List.cons_ne_nil next rest)
            hencode.symm rfl (Utf8.encode text)
          exact hrest.trans (ih _)

/-- The bytes of a text are taken for valid. -/
theorem validUtf8Bytes_encode (text : Text) : validUtf8Bytes (Utf8.encode text) = true :=
  validUtf8BytesFrom_encode text 0

end Fallback

/-- A symbol that is not spelled as a fallback token. -/
def Plain (symbol : Text) : Prop := ∀ byte, symbol ≠ fallbackToken byte

/-- Symbols that cover a mapped text. The fallback tokens of a character are together. -/
inductive Covers : List Text → Text → Prop
  | nil : Covers [] []
  | token {symbol : Text} {symbols : List Text} {text : Text} (hplain : Plain symbol)
      (hrest : Covers symbols text) : Covers (symbol :: symbols) (symbol ++ text)
  | fallback {character : Char} {symbols : List Text} {text : Text}
      (hcharacter : character ≠ metaspace) (hrest : Covers symbols text) :
      Covers ((String.utf8EncodeChar character).map fallbackToken ++ symbols) (character :: text)

section Covering

variable {symbols before after : List Text} {symbol first second : Text} {text : Text}

theorem plain_singleton (character : Char) : Plain [character] := by
  intro byte heq
  cases heq

theorem Covers.append {symbols' : List Text} {text' : Text} (h : Covers symbols text)
    (h' : Covers symbols' text') : Covers (symbols ++ symbols') (text ++ text') := by
  induction h with
  | nil => exact h'
  | token hplain _ ih =>
      rw [List.append_assoc]
      exact .token hplain ih
  | fallback hcharacter _ ih =>
      rw [List.append_assoc]
      exact .fallback hcharacter ih

theorem exists_fallback_cons (character : Char) : ∃ (byte : UInt8) (rest : Bytes),
    (String.utf8EncodeChar character).map fallbackToken =
      fallbackToken byte :: rest.map fallbackToken := by
  obtain ⟨lead, rest, hencode, _⟩ := leadWidth_utf8EncodeChar character
  exact ⟨lead, rest, by rw [hencode]; rfl⟩

theorem Covers.cons_inv (h : Covers (symbol :: symbols) text) (hplain : Plain symbol) :
    ∃ rest, text = symbol ++ rest ∧ Covers symbols rest := by
  generalize hitems : symbol :: symbols = items at h
  cases h with
  | nil => cases hitems
  | token _ hrest =>
      cases hitems
      exact ⟨_, rfl, hrest⟩
  | @fallback character _ _ _ _ =>
      obtain ⟨byte, rest, hbytes⟩ := exists_fallback_cons character
      rw [hbytes] at hitems
      cases hitems
      exact absurd rfl (hplain byte)

/-- Merging two plain symbols to a plain one keeps what is covered. -/
theorem Covers.join (h : Covers (before ++ first :: second :: after) text) (hfirst : Plain first)
    (hsecond : Plain second) (hjoined : Plain (first ++ second)) :
    Covers (before ++ (first ++ second) :: after) text := by
  generalize hitems : before ++ first :: second :: after = items at h
  induction h generalizing before with
  | nil => exact absurd hitems (by simp)
  | @token symbol symbols text hplain hrest ih =>
      cases before with
      | nil =>
          cases hitems
          obtain ⟨rest, rfl, hafter⟩ := hrest.cons_inv hsecond
          rw [← List.append_assoc]
          exact .token hjoined hafter
      | cons item before =>
          cases hitems
          exact .token hplain (ih rfl)
  | @fallback character symbols text hcharacter hrest ih =>
      rcases List.append_eq_append_iff.mp hitems with ⟨middle, hbytes, hsymbols⟩ |
        ⟨middle, hbefore, hsymbols⟩
      · cases middle with
        | nil =>
            rw [List.append_nil] at hbytes
            rw [← hbytes]
            apply Covers.fallback hcharacter
            exact @ih [] hsymbols
        | cons item middle =>
            have hmem : first ∈ (String.utf8EncodeChar character).map fallbackToken := by
              rw [hbytes, (List.cons.inj hsymbols).1]
              exact List.mem_append_right _ List.mem_cons_self
            obtain ⟨byte, _, heq⟩ := List.mem_map.mp hmem
            exact absurd heq.symm (hfirst byte)
      · rw [hbefore, List.append_assoc]
        exact .fallback hcharacter (ih hsymbols.symm)

/-- A plain symbol stands in the text that is covered. -/
theorem Covers.stands (h : Covers symbols text) (hmem : symbol ∈ symbols) (hplain : Plain symbol) :
    symbol <:+: text := by
  induction h with
  | nil => exact absurd hmem List.not_mem_nil
  | token _ _ ih =>
      rcases List.mem_cons.mp hmem with rfl | hmem
      · exact (List.prefix_append _ _).isInfix
      · exact (ih hmem).trans (List.suffix_append _ _).isInfix
  | @fallback character _ _ _ _ ih =>
      rcases List.mem_append.mp hmem with hmem | hmem
      · obtain ⟨byte, _, heq⟩ := List.mem_map.mp hmem
        exact absurd heq.symm (hplain byte)
      · exact (ih hmem).trans (List.suffix_cons _ _).isInfix

/-- A run of fallback tokens is the bytes of a text. -/
theorem Covers.run (h : Covers symbols text) {isFallback : Text → Bool}
    (hfallback : ∀ symbol ∈ symbols, isFallback symbol = true ↔ ∃ byte, symbol = fallbackToken byte) :
    ∃ head tail, text = head ++ tail ∧ metaspace ∉ head ∧
      symbols.takeWhile isFallback = (Utf8.encode head).map fallbackToken ∧
      Covers (symbols.dropWhile isFallback) tail := by
  induction h with
  | nil => exact ⟨[], [], rfl, List.not_mem_nil, rfl, .nil⟩
  | @token symbol symbols text hplain hrest _ =>
      have hnot : isFallback symbol = false := by
        rw [Bool.eq_false_iff]
        intro htrue
        obtain ⟨byte, heq⟩ := (hfallback symbol List.mem_cons_self).mp htrue
        exact hplain byte heq
      refine ⟨[], _, rfl, List.not_mem_nil, ?_, ?_⟩
      · rw [List.takeWhile_cons, hnot]
        rfl
      · rw [List.dropWhile_cons, hnot]
        exact .token hplain hrest
  | @fallback character symbols text hcharacter _ ih =>
      obtain ⟨head, tail, rfl, hhead, htake, hdrop⟩ := ih fun symbol hmem =>
        hfallback symbol (List.mem_append_right _ hmem)
      have hall : ∀ symbol ∈ (String.utf8EncodeChar character).map fallbackToken,
          isFallback symbol = true := by
        intro symbol hmem
        obtain ⟨byte, _, rfl⟩ := List.mem_map.mp hmem
        exact (hfallback _ (List.mem_append_left _ hmem)).mpr ⟨byte, rfl⟩
      refine ⟨character :: head, tail, rfl, ?_, ?_, ?_⟩
      · rw [List.mem_cons, not_or]
        exact ⟨hcharacter.symm, hhead⟩
      · rw [List.takeWhile_append_of_pos hall, htake, Utf8.encode_cons, List.map_append]
      · rw [List.dropWhile_append_of_pos hall]
        exact hdrop

end Covering

end Riley.Tokenizer
