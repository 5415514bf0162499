import Mathlib.Tactic.Common

/-!
UTF-8 text inside byte strings. Every byte string begins with a longest text,
and what follows it starts no character. `fromUtf8` accepts the byte strings
that are all text and reports how many bytes are, otherwise.
-/

namespace Riley.Utf8

/-- A string of Unicode scalar values. -/
abbrev Text := List Char

def encode (text : Text) : List UInt8 := text.flatMap String.utf8EncodeChar

/-- The character that a byte string begins with. -/
def decodeFirst (bytes : List UInt8) : Option Char := bytes.toByteArray.utf8DecodeChar? 0

/-- The text that a byte string begins with, character by character. -/
def decodeLead : Nat → List UInt8 → Text
  | 0, _ => []
  | fuel + 1, bytes =>
      match decodeFirst bytes with
      | none => []
      | some c => c :: decodeLead fuel (bytes.drop c.utf8Size)

/-- The longest text that a byte string begins with. -/
def leading (bytes : List UInt8) : Text := decodeLead bytes.length bytes

/-- How many bytes of a byte string are text. -/
def validUpTo (bytes : List UInt8) : Nat := (encode (leading bytes)).length

/-- The text of a byte string, or how far it is one. -/
def fromUtf8 (bytes : List UInt8) : Except Nat Text :=
  if validUpTo bytes = bytes.length then .ok (leading bytes) else .error (validUpTo bytes)

/-- Whether a byte goes on with a character. -/
def isContinuation (byte : UInt8) : Bool := byte &&& 0xC0 == 0x80

/-- Whether two bytes begin a character of three or four bytes. -/
def opensLong (lead second : UInt8) : Bool :=
  if lead = 0xE0 then 0xA0 ≤ second && second ≤ 0xBF
  else if lead = 0xED then 0x80 ≤ second && second ≤ 0x9F
  else if lead = 0xF0 then 0x90 ≤ second && second ≤ 0xBF
  else if lead = 0xF4 then 0x80 ≤ second && second ≤ 0x8F
  else 0xE1 ≤ lead && lead ≤ 0xF3 && 0x80 ≤ second && second ≤ 0xBF

/-- How many bytes a broken character takes: as far as they begin one, or a single byte. -/
def brokenLength : List UInt8 → Nat
  | lead :: second :: rest =>
      if opensLong lead second then
        if 0xF0 ≤ lead && rest.head?.any isContinuation then 3 else 2
      else 1
  | _ => 1

/-- A byte string read as text, with a replacement for each broken character. -/
def lossyLead : Nat → List UInt8 → Text
  | 0, _ => []
  | _ + 1, [] => []
  | fuel + 1, byte :: rest =>
      match decodeFirst (byte :: rest) with
      | some c => c :: lossyLead fuel ((byte :: rest).drop c.utf8Size)
      | none => '\uFFFD' :: lossyLead fuel ((byte :: rest).drop (brokenLength (byte :: rest)))

def fromUtf8Lossy (bytes : List UInt8) : Text := lossyLead bytes.length bytes

/-- The text behind that many bytes, if a character ends there. -/
def dropBytes : Nat → Text → Option Text
  | 0, text => some text
  | _ + 1, [] => none
  | count + 1, c :: rest =>
      if c.utf8Size ≤ count + 1 then dropBytes (count + 1 - c.utf8Size) rest else none

section Encode

@[simp] theorem encode_nil : encode [] = [] := rfl

@[simp] theorem encode_cons (c : Char) (text : Text) :
    encode (c :: text) = String.utf8EncodeChar c ++ encode text := List.flatMap_cons

@[simp] theorem encode_append (first second : Text) :
    encode (first ++ second) = encode first ++ encode second := List.flatMap_append

theorem utf8EncodeChar_ne_nil (c : Char) : String.utf8EncodeChar c ≠ [] := by
  apply List.ne_nil_of_length_pos
  rw [String.length_utf8EncodeChar]
  exact c.utf8Size_pos

theorem encode_eq_nil {text : Text} : encode text = [] ↔ text = [] := by
  constructor
  · intro h
    cases text with
    | nil => rfl
    | cons c rest =>
        rw [encode_cons, List.append_eq_nil_iff] at h
        exact absurd h.1 (utf8EncodeChar_ne_nil c)
  · rintro rfl
    rfl

theorem length_le_encode (text : Text) : text.length ≤ (encode text).length := by
  induction text with
  | nil => exact Nat.le_refl _
  | cons c rest ih =>
      have hsize := c.utf8Size_pos
      rw [encode_cons, List.length_append, List.length_cons, String.length_utf8EncodeChar]
      omega

theorem dropBytes_append (text rest : Text) :
    dropBytes (encode text).length (text ++ rest) = some rest := by
  induction text with
  | nil => exact dropBytes.eq_1 rest
  | cons c text ih =>
      have hlength : (encode (c :: text)).length = c.utf8Size + (encode text).length := by
        rw [encode_cons, List.length_append, String.length_utf8EncodeChar]
      obtain ⟨count, hcount⟩ := Nat.exists_eq_add_of_le' c.utf8Size_pos
      have hsucc : c.utf8Size + (encode text).length = count + (encode text).length + 1 := by
        omega
      rw [hlength, hsucc, List.cons_append, dropBytes, if_pos (by omega), ← hsucc,
        Nat.add_sub_cancel_left, ih]

theorem decodeFirst_append (c : Char) (rest : List UInt8) :
    decodeFirst (String.utf8EncodeChar c ++ rest) = some c := by
  unfold decodeFirst
  rw [List.toByteArray_append]
  exact ByteArray.utf8DecodeChar?_utf8EncodeChar_append

theorem decodeFirst_eq_some {bytes : List UInt8} {c : Char} :
    decodeFirst bytes = some c ↔ ∃ rest, bytes = String.utf8EncodeChar c ++ rest := by
  constructor
  · intro h
    obtain ⟨rest, hrest⟩ := ByteArray.exists_of_utf8DecodeChar?_eq_some h
    refine ⟨rest.data.toList, List.toByteArray_inj.mp ?_⟩
    rw [hrest, List.toByteArray_append]
    congr 1
    apply ByteArray.ext
    rw [List.data_toByteArray]
  · rintro ⟨rest, rfl⟩
    exact decodeFirst_append c rest

end Encode

section Leading

theorem decodeLead_append (text : Text) {rest : List UInt8} (hrest : decodeFirst rest = none)
    (fuel : Nat) (hfuel : text.length ≤ fuel) : decodeLead fuel (encode text ++ rest) = text := by
  induction text generalizing fuel with
  | nil =>
      cases fuel with
      | zero => rfl
      | succ fuel =>
          simp only [decodeLead, encode_nil, List.nil_append, hrest]
  | cons c text ih =>
      rw [List.length_cons] at hfuel
      obtain ⟨fuel, rfl⟩ := Nat.exists_eq_add_of_le' (Nat.lt_of_lt_of_le (Nat.succ_pos _) hfuel)
      have hdrop : (String.utf8EncodeChar c ++ (encode text ++ rest)).drop c.utf8Size =
          encode text ++ rest := by
        rw [← String.length_utf8EncodeChar, List.drop_left]
      simp only [decodeLead, encode_cons, List.append_assoc, decodeFirst_append, hdrop]
      rw [ih fuel (by omega)]

/-- A text followed by bytes that start no character is the leading text. -/
theorem leading_eq {text : Text} {rest : List UInt8} (hrest : decodeFirst rest = none) :
    leading (encode text ++ rest) = text := by
  apply decodeLead_append text hrest
  rw [List.length_append]
  exact Nat.le_add_right_of_le (length_le_encode text)

theorem exists_leading (bytes : List UInt8) :
    ∃ text rest, bytes = encode text ++ rest ∧ decodeFirst rest = none := by
  induction hlength : bytes.length using Nat.strongRecOn generalizing bytes with
  | ind length ih =>
      cases hfirst : decodeFirst bytes with
      | none => exact ⟨[], bytes, rfl, hfirst⟩
      | some c =>
          obtain ⟨tail, rfl⟩ := decodeFirst_eq_some.mp hfirst
          have hpos := List.length_pos_iff.mpr (utf8EncodeChar_ne_nil c)
          rw [List.length_append] at hlength
          obtain ⟨text, rest, rfl, hrest⟩ := ih tail.length (by omega) tail rfl
          exact ⟨c :: text, rest, by rw [encode_cons, List.append_assoc], hrest⟩

/-- The leading text and the rest of a byte string. -/
theorem leading_spec (bytes : List UInt8) :
    ∃ rest, bytes = encode (leading bytes) ++ rest ∧ decodeFirst rest = none := by
  obtain ⟨text, rest, rfl, hrest⟩ := exists_leading bytes
  exact ⟨rest, by rw [leading_eq hrest], hrest⟩

theorem leading_append (text : Text) (bytes : List UInt8) :
    leading (encode text ++ bytes) = text ++ leading bytes := by
  obtain ⟨rest, hsplit, hrest⟩ := leading_spec bytes
  have hwhole : encode text ++ bytes = encode (text ++ leading bytes) ++ rest := by
    rw [encode_append, List.append_assoc, ← hsplit]
  rw [hwhole, leading_eq hrest]

theorem leading_encode (text : Text) : leading (encode text) = text := by
  have happend := leading_append text []
  rw [List.append_nil] at happend
  rw [happend]
  simp [leading, decodeLead]

theorem encode_injective : Function.Injective encode := by
  intro first second h
  rw [← leading_encode first, h, leading_encode]

theorem encode_prefix_encode {first second : Text} :
    encode first <+: encode second ↔ first <+: second := by
  constructor
  · rintro ⟨rest, h⟩
    refine ⟨leading rest, ?_⟩
    rw [← leading_append, h, leading_encode]
  · rintro ⟨rest, rfl⟩
    rw [encode_append]
    exact List.prefix_append _ _

theorem validUpTo_append (text : Text) (bytes : List UInt8) :
    validUpTo (encode text ++ bytes) = (encode text).length + validUpTo bytes := by
  unfold validUpTo
  rw [leading_append, encode_append, List.length_append]

theorem validUpTo_le (bytes : List UInt8) : validUpTo bytes ≤ bytes.length := by
  obtain ⟨rest, hsplit, _⟩ := leading_spec bytes
  have hlength := congrArg List.length hsplit
  rw [List.length_append] at hlength
  unfold validUpTo
  omega

theorem fromUtf8_encode (text : Text) : fromUtf8 (encode text) = .ok text := by
  unfold fromUtf8 validUpTo
  rw [leading_encode, if_pos rfl]

theorem encode_of_fromUtf8 {bytes : List UInt8} {text : Text} (h : fromUtf8 bytes = .ok text) :
    encode text = bytes := by
  obtain ⟨rest, hsplit, _⟩ := leading_spec bytes
  unfold fromUtf8 at h
  split at h
  · next hwhole =>
      cases h
      have hlength := congrArg List.length hsplit
      rw [List.length_append] at hlength
      have hrest : rest = [] := by
        apply List.eq_nil_of_length_eq_zero
        unfold validUpTo at hwhole
        omega
      rw [hrest, List.append_nil] at hsplit
      exact hsplit.symm
  · cases h

theorem lossyLead_encode (text : Text) (fuel : Nat) (hfuel : text.length ≤ fuel) :
    lossyLead fuel (encode text) = text := by
  induction text generalizing fuel with
  | nil => cases fuel <;> rfl
  | cons c text ih =>
      rw [List.length_cons] at hfuel
      obtain ⟨fuel, rfl⟩ := Nat.exists_eq_add_of_le' (Nat.lt_of_lt_of_le (Nat.succ_pos _) hfuel)
      have hfirst : decodeFirst (encode (c :: text)) = some c := decodeFirst_append c _
      have hdrop : (encode (c :: text)).drop c.utf8Size = encode text := by
        rw [encode_cons, ← String.length_utf8EncodeChar, List.drop_left]
      have hrest := ih fuel (by omega)
      cases hbytes : encode (c :: text) with
      | nil => cases encode_eq_nil.mp hbytes
      | cons byte rest =>
          rw [hbytes] at hfirst hdrop
          simp only [lossyLead, hfirst, hdrop, hrest]

/-- Text that is whole is read as it is. -/
theorem fromUtf8Lossy_encode (text : Text) : fromUtf8Lossy (encode text) = text :=
  lossyLead_encode text _ (length_le_encode text)

theorem fromUtf8Lossy_eq_nil {bytes : List UInt8} : fromUtf8Lossy bytes = [] ↔ bytes = [] := by
  cases bytes with
  | nil => exact ⟨fun _ => rfl, fun _ => rfl⟩
  | cons byte rest =>
      unfold fromUtf8Lossy
      rw [List.length_cons, lossyLead]
      split <;> simp

/-- Cutting before the first byte of a character does not hide an error. -/
theorem validUpTo_cut {bytes tail : List UInt8} {byte : UInt8} (hbyte : byte.IsUTF8FirstByte)
    (herror : validUpTo bytes < bytes.length) :
    validUpTo (bytes ++ byte :: tail) = validUpTo bytes := by
  obtain ⟨rest, hsplit, hrest⟩ := leading_spec bytes
  have hne : rest ≠ [] := by
    rintro rfl
    rw [List.append_nil] at hsplit
    have hlength := congrArg List.length hsplit
    unfold validUpTo at herror
    omega
  have hnone : decodeFirst (rest ++ byte :: tail) = none := by
    cases hfirst : decodeFirst (rest ++ byte :: tail) with
    | none => rfl
    | some c =>
        obtain ⟨more, hmore⟩ := decodeFirst_eq_some.mp hfirst
        rcases Nat.lt_or_ge rest.length (String.utf8EncodeChar c).length with hlt | hge
        · -- The cut would fall inside the character.
          have hget : (String.utf8EncodeChar c)[rest.length] = byte := by
            have hleft : (rest ++ byte :: tail)[rest.length]? = some byte := by
              rw [List.getElem?_append_right (Nat.le_refl _), Nat.sub_self]
              rfl
            rw [hmore, List.getElem?_append_left hlt, List.getElem?_eq_getElem hlt] at hleft
            exact Option.some.inj hleft
          rw [← hget, UInt8.isUTF8FirstByte_getElem_utf8EncodeChar] at hbyte
          exact absurd (List.eq_nil_of_length_eq_zero hbyte) hne
        · have hbegins : String.utf8EncodeChar c <+: rest := by
            apply List.prefix_of_prefix_length_le _ (List.prefix_append rest (byte :: tail)) hge
            rw [hmore]
            exact List.prefix_append _ _
          obtain ⟨after, rfl⟩ := hbegins
          rw [decodeFirst_append] at hrest
          cases hrest
  have hwhole : bytes ++ byte :: tail = encode (leading bytes) ++ (rest ++ byte :: tail) := by
    rw [← List.append_assoc, ← hsplit]
  unfold validUpTo
  rw [hwhole, leading_eq hnone]

/-- A text that is not empty begins with the first byte of a character. -/
theorem encode_first {text : Text} {byte : UInt8} {rest : List UInt8}
    (h : encode text = byte :: rest) : byte.IsUTF8FirstByte := by
  cases text with
  | nil => cases h
  | cons c text =>
      have hpos := List.length_pos_iff.mpr (utf8EncodeChar_ne_nil c)
      have hget : (String.utf8EncodeChar c)[0] = byte := by
        have hzero : (encode (c :: text))[0]? = some byte := by
          rw [h]
          rfl
        rw [encode_cons, List.getElem?_append_left hpos, List.getElem?_eq_getElem hpos] at hzero
        exact Option.some.inj hzero
      rw [← hget, UInt8.isUTF8FirstByte_getElem_utf8EncodeChar]

/-- A text can be cut before every byte that begins a character. -/
theorem encode_cut {text : Text} {before after : List UInt8} {byte : UInt8}
    (hbyte : byte.IsUTF8FirstByte) (h : encode text = before ++ byte :: after) :
    ∃ first second, text = first ++ second ∧ encode first = before ∧
      encode second = byte :: after := by
  induction text generalizing before with
  | nil =>
      have hnil := List.append_eq_nil_iff.mp h.symm
      cases hnil.2
  | cons c text ih =>
      rw [encode_cons] at h
      rcases List.append_eq_append_iff.mp h with ⟨rest, rfl, htext⟩ | ⟨rest, hchar, hafter⟩
      · obtain ⟨first, second, rfl, rfl, hsecond⟩ := ih htext
        exact ⟨c :: first, second, rfl, encode_cons _ _, hsecond⟩
      · cases rest with
        | nil =>
            rw [List.append_nil] at hchar
            exact ⟨[c], text, rfl, by rw [encode_cons, hchar, encode_nil, List.append_nil],
              hafter.symm⟩
        | cons other rest =>
            obtain ⟨rfl, hrest⟩ := List.cons.inj hafter
            have hlt : before.length < (String.utf8EncodeChar c).length := by
              rw [hchar, List.length_append, List.length_cons]
              omega
            have hget : (String.utf8EncodeChar c)[before.length] = byte := by
              have hsome : (String.utf8EncodeChar c)[before.length]? = some byte := by
                rw [hchar, List.getElem?_append_right (Nat.le_refl _), Nat.sub_self]
                rfl
              rw [List.getElem?_eq_getElem hlt] at hsome
              exact Option.some.inj hsome
            rw [← hget, UInt8.isUTF8FirstByte_getElem_utf8EncodeChar] at hbyte
            have hnil := List.eq_nil_of_length_eq_zero hbyte
            subst hnil
            exact ⟨[], c :: text, rfl, rfl, by rw [encode_cons, hchar, hrest]; rfl⟩

/-- A character of one byte is in a text whose bytes it is among. -/
theorem mem_of_mem_encode {text : Text} {c : Char} {byte : UInt8}
    (hchar : String.utf8EncodeChar c = [byte]) (h : byte ∈ encode text) : c ∈ text := by
  obtain ⟨before, after, hsplit⟩ := List.append_of_mem h
  have hbyte : byte.IsUTF8FirstByte := by
    have hfirst : encode [c] = byte :: [] := by rw [encode_cons, hchar]; rfl
    exact encode_first hfirst
  obtain ⟨first, second, rfl, _, hsecond⟩ := encode_cut hbyte hsplit
  cases second with
  | nil => cases hsecond
  | cons other second =>
      have hdecode : decodeFirst (byte :: after) = some c := by
        have hwhole := decodeFirst_append c after
        rw [hchar] at hwhole
        exact hwhole
      rw [← hsecond, encode_cons, decodeFirst_append] at hdecode
      rw [Option.some.inj hdecode]
      exact List.mem_append_right _ List.mem_cons_self

/-- A text that stands in the bytes of another stands between two characters of it. -/
theorem encode_occurs {word text : Text} {start : Nat} (hne : word ≠ [])
    (h : encode word <+: (encode text).drop start) :
    ∃ first second, text = first ++ second ∧ (encode first).length = start ∧ word <+: second := by
  obtain ⟨rest, hrest⟩ := h
  cases hword : encode word with
  | nil => exact absurd (encode_eq_nil.mp hword) hne
  | cons byte bytes =>
      have hsplit : encode text = (encode text).take start ++ byte :: (bytes ++ rest) := by
        rw [← List.cons_append, ← hword, hrest, List.take_append_drop]
      have hstart : start ≤ (encode text).length := by
        by_contra hbeyond
        rw [List.drop_of_length_le (by omega), hword] at hrest
        cases hrest
      obtain ⟨first, second, rfl, hfirst, hsecond⟩ := encode_cut (encode_first hword) hsplit
      refine ⟨first, second, rfl, ?_, encode_prefix_encode.mp ?_⟩
      · rw [hfirst, List.length_take, Nat.min_eq_left hstart]
      · rw [hsecond, hword, ← List.cons_append]
        exact List.prefix_append _ _

end Leading

end Riley.Utf8
