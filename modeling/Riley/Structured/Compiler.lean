import Riley.Constraint.Grammar
import Riley.Library.Outcome
import Riley.Server.Json

/-!
The schema compiler over its grammar builder: the rules for strings, numbers and
any value, repetition with count bounds, and the ranges of integers. Rule
identifiers, bytes of digit strings and counts are natural numbers, signed
bounds are integers.
-/

namespace Riley.Structured

open Constraint (ByteClass GrammarBuilder GrammarElement GrammarError)
open Outcome (forEach rejectIf runIf)
open Server (Json)
open Utf8 (Text)

/-- Upper bound on expanded string lengths and array sizes. -/
def MAX_REPETITION : Nat := 1024
/-- Bound on grammar rules for one schema. -/
def MAX_RULES : Nat := 200000

/-- Why a schema cannot be enforced. Characters and patterns that a text quotes in
their debug form are kept as they are. -/
inductive SchemaError
  | message (text : String)
  | unsupported (what : String)
  | unbalanced (pattern : Text)
  | escaped (character : Char)
  | inClass (character : Char)
  | grammar (error : GrammarError)
  | unread
  deriving DecidableEq, Repr

def bytes (text : Text) : List GrammarElement :=
  (Utf8.encode text).map fun byte => .bytes (ByteClass.byte byte.toNat)

def class_ (first last : Nat) : GrammarElement := .bytes (ByteClass.range first last)

/-- Rules shared by every schema, built on first use. -/
inductive Shared
  | stringChar
  | multibyteChar
  | string
  | value
  | separator
  | integer
  | natural
  | number
  | unsignedNumber
  deriving DecidableEq, Repr

/-- Compiles schemas into one grammar. -/
structure SchemaCompiler where
  builder : GrammarBuilder
  common : Shared → Option Nat
  root : Json
  references : List (Text × Nat)

namespace SchemaCompiler

/-- Starts a compiler whose references resolve against `root`. -/
def new (root : Json) : SchemaCompiler := ⟨.new, fun _ => none, root, []⟩

/-- Replaces the document references resolve against, keeping built rules. -/
def setRoot (root : Json) (compiler : SchemaCompiler) : SchemaCompiler :=
  { compiler with root := root, references := [] }

def ruleCount (compiler : SchemaCompiler) : Nat := compiler.builder.rules.length

/-- The alternatives of a rule so far. -/
def bodies (compiler : SchemaCompiler) (id : Nat) : List (List GrammarElement) :=
  compiler.builder.rules.getD id []

end SchemaCompiler

abbrev Compile := EStateM SchemaError SchemaCompiler

/-- Reserves an empty rule. -/
def rule : Compile Nat := do
  let compiler ← get
  set { compiler with builder := compiler.builder.rule.2 }
  pure compiler.builder.rule.1

/-- Adds one alternative to a rule. -/
def alternative (id : Nat) (elements : List GrammarElement) : Compile Unit :=
  modify fun compiler => { compiler with builder := compiler.builder.alternative id elements }

/-- A rule with the alternatives that `body` adds to it, and what `body` returns. -/
def ruleWith {α : Type} (body : Nat → Compile α) : Compile (Nat × α) := do
  let id ← rule
  let result ← body id
  pure (id, result)

def newRule (body : Nat → Compile Unit) : Compile Nat := do
  let id ← rule
  body id
  pure id

def checkSize : Compile Unit := do
  let compiler ← get
  rejectIf (MAX_RULES < compiler.ruleCount) (.unsupported "the schema is too large")

def share (kind : Shared) (id : Nat) : Compile Unit :=
  modify fun compiler =>
    { compiler with common := fun other => if other = kind then some id else compiler.common other }

/-- The rule of that kind, built on first use. -/
def shared (kind : Shared) (build : Compile Nat) : Compile Nat := do
  let compiler ← get
  match compiler.common kind with
  | some id => pure id
  | none => do
      let id ← build
      share kind id
      pure id

section Strings

def separator : Compile Nat :=
  shared .separator <| newRule fun id => do
    alternative id []
    alternative id (bytes " ".toList)

def multibyteChar : Compile Nat :=
  shared .multibyteChar <| newRule fun id => do
    let continuation := class_ 0x80 0xbf
    alternative id [class_ 0xc2 0xdf, continuation]
    alternative id [class_ 0xe0 0xe0, class_ 0xa0 0xbf, continuation]
    alternative id [class_ 0xe1 0xec, continuation, continuation]
    alternative id [class_ 0xed 0xed, class_ 0x80 0x9f, continuation]
    alternative id [class_ 0xee 0xef, continuation, continuation]
    alternative id [class_ 0xf0 0xf0, class_ 0x90 0xbf, continuation, continuation]
    alternative id [class_ 0xf1 0xf3, continuation, continuation, continuation]
    alternative id [class_ 0xf4 0xf4, class_ 0x80 0x8f, continuation, continuation]

/-- The bytes below 0x80 that stand for themselves inside a JSON string. -/
def plainClass : ByteClass :=
  ((ByteClass.range 0x20 0x21).union (ByteClass.range 0x23 0x5b)).union (ByteClass.range 0x5d 0x7f)

/-- The bytes of the escapes of one letter. -/
def simpleEscape : ByteClass :=
  (((((((ByteClass.byte 0x22).union (ByteClass.byte 0x5c)).union (ByteClass.byte 0x2f)).union
    (ByteClass.byte 0x62)).union (ByteClass.byte 0x66)).union (ByteClass.byte 0x6e)).union
    (ByteClass.byte 0x72)).union (ByteClass.byte 0x74)

def hexClass : ByteClass :=
  ((ByteClass.range 0x30 0x39).union (ByteClass.range 0x61 0x66)).union (ByteClass.range 0x41 0x46)

def stringChar : Compile Nat :=
  shared .stringChar <| newRule fun id => do
    alternative id [.bytes plainClass]
    alternative id (bytes "\\".toList ++ [.bytes simpleEscape])
    alternative id (bytes "\\u".toList ++ List.replicate 4 (.bytes hexClass))
    let multibyte ← multibyteChar
    alternative id [.rule multibyte]

def string : Compile Nat :=
  shared .string do
    let character ← stringChar
    let tail ← newRule fun tail => do
      alternative tail [.rule character, .rule tail]
      alternative tail []
    newRule fun id => alternative id (bytes "\"".toList ++ [.rule tail] ++ bytes "\"".toList)

end Strings

section Repetition

/-- The loop of `repetition`: `after` matches what may follow one more item than
there are `count` of, and the result what may follow the first. -/
def precede (item : Nat) (lead : List GrammarElement) (minimum : Nat) : Nat → Nat → Compile Nat
  | 0, after => pure after
  | count + 1, after => do
      let next ← newRule fun next => do
        runIf (minimum ≤ count + 1) (alternative next [])
        alternative next (lead ++ [.rule item] ++ [.rule after])
      precede item lead minimum count next

/-- `item (separator item)*` with count bounds, as one rule. -/
def repetition (item : Nat) (separator : Option (List GrammarElement)) (minimum : Nat)
    (maximum : Option Nat) : Compile Nat := do
  rejectIf (∃ most ∈ maximum, most < minimum) (.unsupported "a maximum is below its minimum")
  rejectIf (MAX_REPETITION < minimum ∨ ∃ most ∈ maximum, MAX_REPETITION < most)
    (.unsupported "repetition bounds above 1024")
  let lead := separator.getD []
  let first ← newRule fun first => do
    alternative first []
    runIf (maximum = none) (alternative first (lead ++ [.rule item] ++ [.rule first]))
  let last := maximum.getD (max minimum 1)
  let after ← precede item lead minimum (last - 1) first
  newRule fun id => do
    runIf (minimum = 0) (alternative id [])
    runIf (0 < last) (alternative id [.rule item, .rule after])

def boundedString (minimum : Nat) (maximum : Option Nat) : Compile Nat :=
  if minimum = 0 ∧ maximum = none then string
  else do
    let character ← stringChar
    let body ← repetition character none minimum maximum
    newRule fun id => alternative id (bytes "\"".toList ++ [.rule body] ++ bytes "\"".toList)

end Repetition

section Numbers

def digit : GrammarElement := class_ 0x30 0x39

def natural : Compile Nat :=
  shared .natural do
    let digits ← newRule fun digits => do
      alternative digits [digit, .rule digits]
      alternative digits []
    newRule fun id => do
      alternative id (bytes "0".toList)
      alternative id [class_ 0x31 0x39, .rule digits]

def integer : Compile Nat :=
  shared .integer do
    let natural ← natural
    newRule fun id => do
      alternative id [.rule natural]
      alternative id (bytes "-".toList ++ [.rule natural])

def unsignedNumber : Compile Nat :=
  shared .unsignedNumber do
    let natural ← natural
    let digits ← newRule fun digits => do
      alternative digits [digit, .rule digits]
      alternative digits [digit]
    let fraction ← newRule fun fraction => do
      alternative fraction []
      alternative fraction (bytes ".".toList ++ [.rule digits])
    let exponent ← newRule fun exponent => do
      let sign := GrammarElement.bytes ((ByteClass.byte 0x2b).union (ByteClass.byte 0x2d))
      let marker := GrammarElement.bytes ((ByteClass.byte 0x65).union (ByteClass.byte 0x45))
      alternative exponent []
      alternative exponent [marker, .rule digits]
      alternative exponent [marker, sign, .rule digits]
    newRule fun id => alternative id [.rule natural, .rule fraction, .rule exponent]

def number : Compile Nat :=
  shared .number do
    let unsigned ← unsignedNumber
    newRule fun id => do
      alternative id [.rule unsigned]
      alternative id (bytes "-".toList ++ [.rule unsigned])

/-- `low..=high` for digit strings of equal length. -/
def digitRange (low high : List Nat) (id : Nat) : Compile Unit :=
  match low, high with
  | lowFirst :: lowRest, highFirst :: highRest =>
      if (lowFirst :: lowRest).all (· = 0x30) ∧ (highFirst :: highRest).all (· = 0x39) then
        alternative id (List.replicate (lowRest.length + 1) digit)
      else if lowFirst = highFirst then do
        let next ← newRule fun next => digitRange lowRest highRest next
        alternative id [class_ lowFirst lowFirst, .rule next]
      else do
        let nines := List.replicate lowRest.length 0x39
        let zeros := List.replicate lowRest.length 0x30
        let first ← newRule fun first => digitRange lowRest nines first
        alternative id [class_ lowFirst lowFirst, .rule first]
        runIf (lowFirst + 1 < highFirst)
          (alternative id
            ([class_ (lowFirst + 1) (highFirst - 1)] ++ List.replicate lowRest.length digit))
        let last ← newRule fun last => digitRange zeros highRest last
        alternative id [class_ highFirst highFirst, .rule last]
  | _, _ => alternative id []
termination_by low.length
decreasing_by all_goals simp

/-- The bytes of a number in decimal. -/
def decimal (value : Nat) : List Nat := (Nat.toDigits 10 value).map Char.toNat

/-- Non-negative integers in `low..=high`. -/
def naturalRange (id low high : Nat) : Compile Unit := do
  let lowText := decimal low
  let highText := decimal high
  forEach (List.range' lowText.length (highText.length + 1 - lowText.length)) fun length => do
    let least := if length = lowText.length then lowText else 0x31 :: List.replicate (length - 1) 0x30
    let most := if length = highText.length then highText else List.replicate length 0x39
    let branch ← newRule fun branch => digitRange least most branch
    alternative id [.rule branch]

/-- What stands for a missing bound, with its sign. -/
def MISSING_BOUND : Int := 999999999999999999

def integerRange (minimum maximum : Option Int) : Compile Nat :=
  if minimum = none ∧ maximum = none then integer
  else if minimum = some 0 ∧ maximum = none then natural
  else do
    let low := minimum.getD (-MISSING_BOUND)
    let high := maximum.getD MISSING_BOUND
    rejectIf (high < low) (.unsupported "minimum above maximum")
    newRule fun id => do
      runIf (0 ≤ high) (naturalRange id (max low 0).natAbs high.natAbs)
      runIf (low < 0) do
        let negative ← newRule fun negative =>
          naturalRange negative (if high < 0 then high.natAbs else 1) low.natAbs
        alternative id (bytes "-".toList ++ [.rule negative])

end Numbers

section Values

/-- Any JSON value. -/
def value : Compile Nat := do
  let compiler ← get
  match compiler.common .value with
  | some id => pure id
  | none => newRule fun id => do
      share .value id
      let string ← string
      let number ← number
      let separator ← separator
      alternative id [.rule string]
      alternative id [.rule number]
      forEach ["true", "false", "null"] fun literal => alternative id (bytes literal.toList)
      let lead := bytes ",".toList ++ [.rule separator]
      let member ← newRule fun member =>
        alternative member ([.rule string] ++ bytes ":".toList ++ [.rule separator, .rule id])
      -- Bounds of zero and none are never refused.
      let members ← repetition member (some lead) 0 none
      alternative id (bytes "\x7b".toList ++ [.rule members] ++ bytes "\x7d".toList)
      let items ← repetition id (some lead) 0 none
      alternative id (bytes "[".toList ++ [.rule items] ++ bytes "]".toList)

def objectMap (value minimum : Nat) (maximum : Option Nat) : Compile Nat := do
  let string ← string
  let separator ← separator
  let lead := bytes ",".toList ++ [.rule separator]
  let member ← newRule fun member =>
    alternative member ([.rule string] ++ bytes ":".toList ++ [.rule separator, .rule value])
  let members ← repetition member (some lead) minimum maximum
  newRule fun id =>
    alternative id (bytes "\x7b".toList ++ [.rule members] ++ bytes "\x7d".toList)

/-- The grammar of an object with any members, for `json_object` mode. -/
def anyObject : Compile Nat := do
  let value ← value
  objectMap value 0 none

/-- The compact text of a value and nothing else. -/
def literalValue (value : Json) : Compile Nat :=
  newRule fun id => alternative id (bytes value.compact)

end Values

end Riley.Structured
