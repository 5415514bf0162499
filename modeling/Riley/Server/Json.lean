import Riley.Library.Entries
import Riley.Library.Substrings
import Riley.Library.Utf8
import Mathlib.Data.List.DropRight

/-!
JSON values and what the source takes from its JSON library: reading a value from
its text and writing it. A number is known by its digits.
-/

namespace Riley.Server

open Utf8 (Text)

inductive Json
  | null
  | bool (value : Bool)
  | number (digits : Text)
  | string (text : Text)
  | array (items : List Json)
  | object (entries : List (Text × Json))

namespace Json

def get (key : Text) : Json → Option Json
  | object entries => Entries.get key entries
  | _ => none

def asStr : Json → Option Text
  | string text => some text
  | _ => none

def asArray : Json → List Json
  | array items => items
  | _ => []

def isNull : Json → Bool
  | null => true
  | _ => false

end Json

/-- What the JSON library makes of a text. -/
structure JsonLibrary where
  fromStr : Text → Option Json

section Writing

def hexDigit (value : Nat) : Char := if value < 10 then Char.ofNat (48 + value) else Char.ofNat (87 + value)

def escapeChar (c : Char) : Text :=
  if c = '"' then "\\\"".toList
  else if c = '\\' then "\\\\".toList
  else if c.toNat = 8 then "\\b".toList
  else if c.toNat = 9 then "\\t".toList
  else if c.toNat = 10 then "\\n".toList
  else if c.toNat = 12 then "\\f".toList
  else if c.toNat = 13 then "\\r".toList
  else if c.toNat < 32 then
    "\\u00".toList ++ [hexDigit (c.toNat / 16), hexDigit (c.toNat % 16)]
  else [c]

def quote (text : Text) : Text := "\"".toList ++ text.flatMap escapeChar ++ "\"".toList

mutual

/-- The compact form of a value. -/
def Json.compact : Json → Text
  | .null => "null".toList
  | .bool value => (if value then "true" else "false").toList
  | .number digits => digits
  | .string text => quote text
  | .array [] => "[]".toList
  | .array (first :: rest) => "[".toList ++ first.compact ++ compactItems rest ++ "]".toList
  | .object [] => "\x7b\x7d".toList
  | .object ((key, value) :: rest) =>
      "\x7b".toList ++ quote key ++ ":".toList ++ value.compact ++ compactEntries rest ++
        "\x7d".toList

def compactItems : List Json → Text
  | [] => []
  | item :: rest => ",".toList ++ item.compact ++ compactItems rest

def compactEntries : List (Text × Json) → Text
  | [] => []
  | (key, value) :: rest =>
      ",".toList ++ quote key ++ ":".toList ++ value.compact ++ compactEntries rest

end

/-- The bytes of the compact form. -/
def Json.toVec (value : Json) : List UInt8 := value.compact.flatMap String.utf8EncodeChar

end Writing

/-- The white space of Unicode. -/
def isWhitespace (c : Char) : Bool :=
  let code := c.toNat
  (9 ≤ code && code ≤ 13) || code == 0x20 || code == 0x85 || code == 0xA0 || code == 0x1680 ||
    (0x2000 ≤ code && code ≤ 0x200A) || code == 0x2028 || code == 0x2029 || code == 0x202F ||
    code == 0x205F || code == 0x3000

def trimStart (text : Text) : Text := text.dropWhile isWhitespace

def trimEnd (text : Text) : Text := text.rdropWhile isWhitespace

def trim (text : Text) : Text := trimEnd (trimStart text)

end Riley.Server
