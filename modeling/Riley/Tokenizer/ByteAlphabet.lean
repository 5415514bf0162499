import Mathlib.Data.List.Nodup
import Riley.Library.Utf8

/-!
The byte alphabet: every byte is written as one printable character, its own
where that is printable and one from U+0100 on otherwise.
-/

namespace Riley.Tokenizer

open Utf8 (Text)

abbrev Bytes := List UInt8

/-- The bytes that are written as the character of the same number. -/
def keepsItsCharacter (byte : UInt8) : Bool :=
  (0x21 ≤ byte && byte ≤ 0x7E) || (0xA1 ≤ byte && byte ≤ 0xAC) || 0xAE ≤ byte

/-- Gives a character to every byte; `extra` bytes already have one from U+0100 on. -/
def byteMapsFrom (extra : Nat) : List UInt8 → List (Char × UInt8)
  | [] => []
  | byte :: rest =>
      if keepsItsCharacter byte then
        (Char.ofNat byte.toNat, byte) :: byteMapsFrom extra rest
      else
        (Char.ofNat (256 + extra), byte) :: byteMapsFrom (extra + 1) rest

def everyByte : List UInt8 := (List.range 256).map UInt8.ofNat

def byteMaps : List (Char × UInt8) := byteMapsFrom 0 everyByte

def byteEncoder (byte : UInt8) : Char := (byteMaps.getD byte.toNat ('\x00', 0)).1

def byteDecoder (character : Char) : Option UInt8 := byteMaps.lookup character

/-- A piece of text written in the byte alphabet. -/
def spell (bytes : Bytes) : Text := bytes.map byteEncoder

/-- Whether a text can be read as bytes. -/
def Spelled (text : Text) : Prop := ∀ character ∈ text, (byteDecoder character).isSome

instance (text : Text) : Decidable (Spelled text) :=
  inferInstanceAs (Decidable (∀ character ∈ text, _))

/-- The bytes that the characters of a text stand for. -/
def unspell (text : Text) : Bytes := text.filterMap byteDecoder

/-- A text that can be read as bytes, though not as its own: it has a character
beyond ASCII. -/
def Misread (text : Text) : Prop :=
  Spelled text ∧ ∃ character ∈ text, 0x80 ≤ character.toNat

instance (text : Text) : Decidable (Misread text) := inferInstanceAs (Decidable (_ ∧ _))

section Table

/-- The character of a byte, without the table. -/
def charOfByte (byte : UInt8) : Char :=
  if keepsItsCharacter byte then Char.ofNat byte.toNat
  else if byte < 0x21 then Char.ofNat (256 + byte.toNat)
  else if byte < 0xA1 then Char.ofNat (256 + 33 + (byte.toNat - 127))
  else Char.ofNat (256 + 67)

theorem mem_everyByte (byte : UInt8) : byte ∈ everyByte := by
  apply List.mem_map.mpr
  exact ⟨byte.toNat, List.mem_range.mpr byte.toNat_lt, UInt8.ofNat_toNat⟩

theorem nodup_everyByte : everyByte.Nodup := by
  apply List.Nodup.map_on _ List.nodup_range
  intro first hfirst second hsecond h
  have hnat := congrArg UInt8.toNat h
  rwa [UInt8.toNat_ofNat_of_lt' (List.mem_range.mp hfirst),
    UInt8.toNat_ofNat_of_lt' (List.mem_range.mp hsecond)] at hnat

theorem byteMaps_eq : byteMaps = everyByte.map fun byte => (charOfByte byte, byte) := by
  decide +kernel

theorem byteEncoder_eq (byte : UInt8) : byteEncoder byte = charOfByte byte := by
  unfold byteEncoder
  rw [byteMaps_eq, everyByte, List.getD_eq_getElem?_getD, List.getElem?_map, List.getElem?_map,
    List.getElem?_range byte.toNat_lt, Option.map_some, Option.map_some, Option.getD_some,
    UInt8.ofNat_toNat]

theorem toNat_ofNat {number : Nat} (h : number < 0xD800) : (Char.ofNat number).toNat = number := by
  have hvalid : number.isValidChar := .inl h
  rw [Char.ofNat, dif_pos hvalid]
  rfl

theorem toNat_charOfByte (byte : UInt8) : (charOfByte byte).toNat =
    if keepsItsCharacter byte then byte.toNat
    else if byte < 0x21 then 256 + byte.toNat
    else if byte < 0xA1 then 256 + 33 + (byte.toNat - 127)
    else 256 + 67 := by
  have hlt := byte.toNat_lt
  unfold charOfByte
  split
  · exact toNat_ofNat (by omega)
  split
  · exact toNat_ofNat (by omega)
  split
  · exact toNat_ofNat (by omega)
  · exact toNat_ofNat (by omega)

theorem keepsItsCharacter_iff {byte : UInt8} : keepsItsCharacter byte = true ↔
    (0x21 ≤ byte.toNat ∧ byte.toNat ≤ 0x7E) ∨ (0xA1 ≤ byte.toNat ∧ byte.toNat ≤ 0xAC) ∨
      0xAE ≤ byte.toNat := by
  simp [keepsItsCharacter, UInt8.le_iff_toNat_le, or_assoc]

/-- The characters of the printable bytes are below U+0100; behind it, those below U+0021 come
first, then those from U+007F to U+00A0, and U+00AD last. -/
theorem charOfByte_injective : Function.Injective charOfByte := by
  intro first second h
  have hnat := congrArg Char.toNat h
  rw [toNat_charOfByte, toNat_charOfByte] at hnat
  simp only [keepsItsCharacter_iff, UInt8.lt_iff_toNat_lt, UInt8.reduceToNat] at hnat
  have hfirst := first.toNat_lt
  have hsecond := second.toNat_lt
  apply UInt8.toNat_inj.mp
  split_ifs at hnat <;> omega

/-- A character is looked up among the characters of bytes. -/
theorem lookup_charOfByte {byte : UInt8} {bytes : List UInt8} (h : byte ∈ bytes) :
    (bytes.map fun byte => (charOfByte byte, byte)).lookup (charOfByte byte) = some byte := by
  induction bytes with
  | nil => cases h
  | cons first rest ih =>
      rw [List.map_cons, List.lookup_cons]
      by_cases hsame : byte = first
      · simp [hsame]
      · have hne : (charOfByte byte == charOfByte first) = false :=
          beq_false_of_ne fun heq => hsame (charOfByte_injective heq)
        rw [hne]
        exact ih ((List.mem_cons.mp h).resolve_left hsame)

theorem byteDecoder_encoder (byte : UInt8) : byteDecoder (byteEncoder byte) = some byte := by
  rw [byteEncoder_eq, byteDecoder, byteMaps_eq]
  exact lookup_charOfByte (mem_everyByte byte)

theorem byteEncoder_injective : Function.Injective byteEncoder := by
  intro first second h
  have hdecoded := byteDecoder_encoder first
  rw [h, byteDecoder_encoder] at hdecoded
  exact (Option.some.inj hdecoded).symm

theorem byteEncoder_of_decoder {character : Char} {byte : UInt8}
    (h : byteDecoder character = some byte) : byteEncoder byte = character := by
  obtain ⟨before, after, hsplit, _⟩ := List.lookup_eq_some_iff.mp h
  have hmem : (character, byte) ∈ byteMaps := by
    rw [hsplit]
    exact List.mem_append_right before List.mem_cons_self
  rw [byteMaps_eq] at hmem
  obtain ⟨other, _, heq⟩ := List.mem_map.mp hmem
  obtain ⟨rfl, rfl⟩ := Prod.mk.inj heq
  exact byteEncoder_eq other

/-- The bytes below U+0080 stand for themselves in UTF-8. -/
theorem utf8EncodeChar_of_ascii {character : Char} {byte : UInt8}
    (h : byteDecoder character = some byte) (hascii : character.toNat < 0x80) :
    String.utf8EncodeChar character = [byte] := by
  rw [← byteEncoder_of_decoder h, byteEncoder_eq] at hascii ⊢
  have hnat := toNat_charOfByte byte
  have hkeeps : (charOfByte byte).toNat = byte.toNat := by
    split_ifs at hnat <;> omega
  have hval : (charOfByte byte).val.toNat = byte.toNat := hkeeps
  rw [String.utf8EncodeChar]
  simp only [hval]
  rw [if_pos (by omega), UInt8.ofNat_toNat]

theorem two_le_utf8Size {character : Char} (h : 0x80 ≤ character.toNat) :
    2 ≤ (String.utf8EncodeChar character).length := by
  have hnot : ¬ character.val ≤ 0x7F := by
    intro hle
    have hle' : character.toNat ≤ 0x7F := hle
    omega
  rw [String.length_utf8EncodeChar]
  have hsize : character.utf8Size = if character.val ≤ 0x7F then 1
      else if character.val ≤ 0x7FF then 2 else if character.val ≤ 0xFFFF then 3 else 4 := rfl
  rw [hsize, if_neg hnot]
  split
  · exact Nat.le_refl 2
  · split <;> decide

end Table

section Spelling

@[simp] theorem unspell_nil : unspell [] = [] := rfl

theorem unspell_cons {character : Char} {byte : UInt8} (h : byteDecoder character = some byte)
    (rest : Text) : unspell (character :: rest) = byte :: unspell rest :=
  List.filterMap_cons_some h

theorem unspell_append (first second : Text) :
    unspell (first ++ second) = unspell first ++ unspell second := List.filterMap_append

theorem unspell_spell (bytes : Bytes) : unspell (spell bytes) = bytes := by
  induction bytes with
  | nil => rfl
  | cons byte rest ih =>
      have hcons : spell (byte :: rest) = byteEncoder byte :: spell rest := rfl
      rw [hcons, unspell_cons (byteDecoder_encoder byte), ih]

theorem spelled_spell (bytes : Bytes) : Spelled (spell bytes) := by
  intro character hmem
  obtain ⟨byte, _, rfl⟩ := List.mem_map.mp hmem
  rw [byteDecoder_encoder]
  rfl

theorem Spelled.mono {part whole : Text} (h : Spelled whole) (hsub : part ⊆ whole) :
    Spelled part :=
  fun character hmem => h character (hsub hmem)

theorem Spelled.cons_inv {character : Char} {rest : Text} (h : Spelled (character :: rest)) :
    (∃ byte, byteDecoder character = some byte) ∧ Spelled rest := by
  constructor
  · exact Option.isSome_iff_exists.mp (h character List.mem_cons_self)
  · exact h.mono (List.subset_cons_self character rest)

theorem length_unspell {text : Text} (h : Spelled text) : (unspell text).length = text.length := by
  induction text with
  | nil => rfl
  | cons character rest ih =>
      obtain ⟨⟨byte, hbyte⟩, hrest⟩ := h.cons_inv
      rw [unspell_cons hbyte, List.length_cons, List.length_cons, ih hrest]

theorem length_lt_encode {text : Text} (h : ∃ character ∈ text, 0x80 ≤ character.toNat) :
    text.length < (Utf8.encode text).length := by
  obtain ⟨character, hmem, hbeyond⟩ := h
  obtain ⟨before, after, rfl⟩ := List.append_of_mem hmem
  have hbefore := Utf8.length_le_encode before
  have hafter := Utf8.length_le_encode after
  have hsize := two_le_utf8Size hbeyond
  rw [Utf8.encode_append, Utf8.encode_cons, List.length_append, List.length_append,
    List.length_append, List.length_cons]
  omega

/-- A text is read back as its own bytes if it is not misread. -/
theorem unspell_eq_encode {text : Text} (h : Spelled text) :
    unspell text = Utf8.encode text ↔ ¬ Misread text := by
  constructor
  · intro heq hmisread
    have hlt := length_lt_encode hmisread.2
    rw [← heq, length_unspell h] at hlt
    exact Nat.lt_irrefl _ hlt
  · intro hnot
    have hascii : ∀ character ∈ text, character.toNat < 0x80 := by
      intro character hmem
      apply Nat.lt_of_not_le
      intro hbeyond
      exact hnot ⟨h, character, hmem, hbeyond⟩
    clear hnot
    induction text with
    | nil => rfl
    | cons character rest ih =>
        obtain ⟨⟨byte, hbyte⟩, hrest⟩ := h.cons_inv
        rw [unspell_cons hbyte, Utf8.encode_cons,
          utf8EncodeChar_of_ascii hbyte (hascii character List.mem_cons_self),
          ih hrest fun other hmem => hascii other (List.mem_cons_of_mem _ hmem)]
        rfl

end Spelling

end Riley.Tokenizer
