import Riley.Library.Words
import Riley.Structured.Compiler

/-!
The texts that the shared rules stand for. A JSON string is spelled unit by unit:
a character as itself or behind a backslash, or four hexadecimal digits. Two
escapes may decode to one character, and an escaped surrogate alone to none.
-/

namespace Riley.Structured

open Computability
open Utf8 (Text)

/-- One byte that passes the test. -/
def oneByte (test : Nat → Prop) : Language UInt8 :=
  Set.ofPred fun word => ∃ byte : UInt8, word = [byte] ∧ test byte.toNat

/-- The bytes of a text. -/
def exactly (text : Text) : Language UInt8 := Set.ofPred (· = Utf8.encode text)

section Strings

/-- A character that may stand unescaped in a JSON string. -/
def Unescaped (c : Char) : Prop := 0x20 ≤ c.toNat ∧ c ≠ '"' ∧ c ≠ '\\'

/-- The letters behind a backslash and the characters they stand for. -/
def shortEscapes : List (Nat × Char) :=
  [(0x22, '"'), (0x5c, '\\'), (0x2f, '/'), (0x62, '\x08'), (0x66, '\x0c'), (0x6e, '\n'),
    (0x72, '\r'), (0x74, '\t')]

def IsHex (byte : Nat) : Prop :=
  0x30 ≤ byte ∧ byte ≤ 0x39 ∨ 0x61 ≤ byte ∧ byte ≤ 0x66 ∨ 0x41 ≤ byte ∧ byte ≤ 0x46

instance isHexDecidable (byte : Nat) : Decidable (IsHex byte) :=
  inferInstanceAs (Decidable (_ ∨ _ ∨ _))

def hexValue (byte : Nat) : Nat :=
  if byte ≤ 0x39 then byte - 0x30 else if byte ≤ 0x46 then byte - 0x37 else byte - 0x57

/-- The number of hexadecimal digits. -/
def hexNumber (digits : List UInt8) : Nat :=
  digits.foldl (fun code byte => 16 * code + hexValue byte.toNat) 0

/-- A character as itself or behind a backslash, or a sixteen-bit code. -/
inductive StringUnit
  | character (c : Char)
  | code (value : Nat)
  deriving DecidableEq, Repr

/-- How a unit is spelled inside a JSON string. -/
inductive Spells : StringUnit → List UInt8 → Prop
  | plain {c : Char} (h : Unescaped c) : Spells (.character c) (String.utf8EncodeChar c)
  | short {letter : UInt8} {c : Char} (h : (letter.toNat, c) ∈ shortEscapes) :
      Spells (.character c) [0x5c, letter]
  | code {digits : List UInt8} (hlength : digits.length = 4)
      (hhex : ∀ byte ∈ digits, IsHex byte.toNat) :
      Spells (.code (hexNumber digits)) ([0x5c, 0x75] ++ digits)

/-- The spellings of a unit. -/
def unitTexts : Language UInt8 := Set.ofPred fun word => ∃ unit, Spells unit word

/-- The characters of more than one byte. -/
def multibyteTexts : Language UInt8 :=
  Set.ofPred fun word => ∃ c : Char, 0x80 ≤ c.toNat ∧ word = String.utf8EncodeChar c

def quoteText : Language UInt8 := exactly "\"".toList

def stringTexts : Language UInt8 := quoteText * unitTexts∗ * quoteText

def separatorTexts : Language UInt8 := 1 + exactly " ".toList

end Strings

section Numbers

def IsDigit (byte : Nat) : Prop := 0x30 ≤ byte ∧ byte ≤ 0x39

/-- A number in decimal, without leading zeros. -/
def naturalTexts : Language UInt8 :=
  Set.ofPred fun word => ∃ value, word.map UInt8.toNat = decimal value

def integerTexts : Language UInt8 := naturalTexts + exactly "-".toList * naturalTexts

def digitTexts : Language UInt8 := (oneByte IsDigit)∗ * oneByte IsDigit

def fractionTexts : Language UInt8 := 1 + exactly ".".toList * digitTexts

def exponentTexts : Language UInt8 :=
  1 + oneByte (fun byte => byte = 0x65 ∨ byte = 0x45) *
    (digitTexts + oneByte (fun byte => byte = 0x2b ∨ byte = 0x2d) * digitTexts)

def unsignedTexts : Language UInt8 := naturalTexts * fractionTexts * exponentTexts

def numberTexts : Language UInt8 := unsignedTexts + exactly "-".toList * unsignedTexts

end Numbers

/-- The texts of a shared rule; those of any value are left open. -/
def Shared.texts : Shared → Option (Language UInt8)
  | .stringChar => some unitTexts
  | .multibyteChar => some multibyteTexts
  | .string => some stringTexts
  | .value => none
  | .separator => some separatorTexts
  | .integer => some integerTexts
  | .natural => some naturalTexts
  | .number => some numberTexts
  | .unsignedNumber => some unsignedTexts

end Riley.Structured
