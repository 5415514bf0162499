import Riley.Structured.Compiler

/-!
The patterns of string schemas: a recursive descent over the characters of a
regular expression that adds rules as it reads. A position is the characters
from there on, and every call that reads may use one unit of fuel; as many
units as `pattern` starts with are never used up.
-/

namespace Riley.Structured

open Constraint (ByteClass GrammarElement)
open Outcome (fromExcept forEach rejectIf runIf)
open Utf8 (Text)

section Characters

def isAsciiPunctuation (character : Char) : Bool :=
  let code := character.toNat
  (0x21 ≤ code && code ≤ 0x2f) || (0x3a ≤ code && code ≤ 0x40) || (0x5b ≤ code && code ≤ 0x60) ||
    (0x7b ≤ code && code ≤ 0x7e)

/-- The control characters of Unicode. -/
def isControl (character : Char) : Bool :=
  character.toNat < 0x20 || (0x7f ≤ character.toNat && character.toNat ≤ 0x9f)

/-- ASCII that appears as itself inside a JSON string. -/
def plainAscii (character : Char) : Except SchemaError Nat :=
  if 0x20 ≤ character.toNat ∧ character.toNat < 0x7f ∧ character ≠ '"' ∧ character ≠ '\\' then
    .ok character.toNat
  else .error (.inClass character)

def patternLiteral (character : Char) : Except SchemaError (List GrammarElement) :=
  if character = '"' ∨ character = '\\' ∨ isControl character then .error (.escaped character)
  else .ok (bytes [character])

def escapeClass (escape : Char) : Option ByteClass :=
  let digits := ByteClass.range 0x30 0x39
  if escape = 'd' then some digits
  else if escape = 'w' then
    some (((digits.union (ByteClass.range 0x61 0x7a)).union (ByteClass.range 0x41 0x5a)).union
      (ByteClass.byte 0x5f))
  else if escape = 's' then some (ByteClass.byte 0x20)
  else none

end Characters

section Quantifiers

def digitValue (character : Char) : Option Nat :=
  if '0' ≤ character ∧ character ≤ '9' then some (character.toNat - 0x30) else none

/-- The number of decimal digits, most significant first. -/
def digitsValue (value : Nat) : Text → Option Nat
  | [] => some value
  | character :: rest => do
      let digit ← digitValue character
      digitsValue (10 * value + digit) rest

/-- Reading a 64-bit number from its text, which may start with a plus sign. -/
def parseU64 (text : Text) : Option Nat := do
  let digits := if text.head? = some '+' then text.tail else text
  if digits = [] then none
  else
    let value ← digitsValue 0 digits
    if value ≤ u64Max then some value else none

def patternBound (body text : Text) : Except SchemaError Nat :=
  match parseU64 text with
  | some value => .ok value
  | none => .error (.unsupported s!"pattern bound \x7b{String.ofList body}\x7d")

/-- The bounds between the braces of a quantifier. -/
def braceBounds (body : Text) : Except SchemaError (Nat × Option Nat) :=
  match body.span (· ≠ ',') with
  | (_, []) => do
      let count ← patternBound body body
      .ok (count, some count)
  | (low, [_]) => do
      let least ← patternBound body low
      .ok (least, none)
  | (low, _ :: high) => do
      let least ← patternBound body low
      let most ← patternBound body high
      .ok (least, some most)

/-- The bounds of the quantifier in front, if there is one, and what follows its sign. -/
def quantifierBounds : Text → Except SchemaError (Option ((Nat × Option Nat) × Text))
  | '*' :: rest => .ok (some ((0, none), rest))
  | '+' :: rest => .ok (some ((1, none), rest))
  | '?' :: rest => .ok (some ((0, some 1), rest))
  | '{' :: rest =>
      match rest.span (· ≠ '}') with
      | (_, []) => .error (.unsupported "pattern with an unclosed \x7b")
      | (body, _ :: rest) => do
          let bounds ← braceBounds body
          .ok (some (bounds, rest))
  | _ => .ok none

def patternQuantifier (characters : Text) :
    Except SchemaError (Option (Nat × Option Nat) × Text) := do
  match ← quantifierBounds characters with
  | none => .ok (none, characters)
  | some (bounds, rest) =>
      if rest.head? = some '?' ∨ rest.head? = some '+' then
        .error (.unsupported "lazy or possessive pattern quantifiers")
      else .ok (some bounds, rest)

end Quantifiers

section Classes

/-- A member that may be the lower end of a range, and what follows it. -/
def classRange (low : Char) (rest : Text) : Except SchemaError (ByteClass × Text) := do
  let least ← plainAscii low
  match rest with
  | '-' :: last :: after =>
      if last = ']' then .ok (ByteClass.range least least, rest)
      else do
        let most ← plainAscii last
        .ok (ByteClass.range least most, after)
  | _ => .ok (ByteClass.range least least, rest)

def classMember (next : Char) (rest : Text) : Except SchemaError (ByteClass × Text) :=
  if next = '\\' then
    match rest with
    | [] => .error (.unsupported "pattern ending in a backslash")
    | escape :: rest =>
        match escapeClass escape with
        | some escaped => .ok (escaped, rest)
        | none => classRange escape rest
  else classRange next rest

/-- The members of a class up to its closing bracket, which stands for itself when it
comes first. -/
def classMembers : Nat → Bool → ByteClass → Text → Except SchemaError (ByteClass × Text)
  | 0, _, _, _ => .error .unread
  | _ + 1, _, _, [] => .error (.unsupported "pattern with an unclosed class")
  | fuel + 1, first, set, next :: rest =>
      if next = ']' ∧ first = false then .ok (set, rest)
      else do
        let (members, rest) ← classMember next rest
        classMembers fuel false (set.union members) rest

/-- The printable ASCII that a negated class admits. -/
def complement (set : ByteClass) : ByteClass :=
  (List.range' 0x20 0x5f).foldl
    (fun admitted value =>
      if set.contains (UInt8.ofNat value) = false ∧ value ≠ 0x22 ∧ value ≠ 0x5c then
        admitted.union (ByteClass.byte value)
      else admitted)
    ByteClass.empty

def patternClass (characters : Text) : Compile (List GrammarElement × Text) := do
  let negated := characters.head? = some '^'
  let members := if negated then characters.tail else characters
  let (set, rest) ← fromExcept (classMembers (members.length + 1) true ByteClass.empty members)
  if negated then do
    let id ← newRule fun id => do
      let multibyte ← multibyteChar
      alternative id [.bytes (complement set)]
      alternative id [.rule multibyte]
    pure ([.rule id], rest)
  else pure ([.bytes set], rest)

end Classes

section Descent

/-- What follows the opening parenthesis of a group. -/
def groupStart : Text → Except SchemaError Text
  | '?' :: ':' :: rest => .ok rest
  | '?' :: _ => .error (.unsupported "pattern lookaround")
  | rest => .ok rest

/-- What follows the closing parenthesis of a group. -/
def groupEnd : Text → Except SchemaError Text
  | ')' :: rest => .ok rest
  | _ => .error (.unsupported "pattern with an unclosed group")

def patternEscape : Text → Except SchemaError (List GrammarElement × Text)
  | [] => .error (.unsupported "pattern ending in a backslash")
  | escape :: rest =>
      match escapeClass escape with
      | some set => .ok ([.bytes set], rest)
      | none =>
          if isAsciiPunctuation escape then do
            let literal ← patternLiteral escape
            .ok (literal, rest)
          else .error (.unsupported s!"pattern escape \\{escape}")

def isOperator (character : Char) : Bool := character ∈ ['*', '+', '?', '\x7b', '^', '$']

/-- The elements of an atom, with its bounds where a quantifier follows. -/
def quantified (atom : List GrammarElement) : Option (Nat × Option Nat) →
    Compile (List GrammarElement)
  | none => pure atom
  | some (minimum, maximum) => do
      let item ← newRule fun item => alternative item atom
      let repeated ← repetition item none minimum maximum
      pure [.rule repeated]

mutual

def patternAlternation : Nat → Text → Compile (Nat × Text)
  | 0, _ => throw .unread
  | fuel + 1, characters => ruleWith fun id => patternBranches fuel id characters

/-- The loop of `pattern_alternation`. -/
def patternBranches : Nat → Nat → Text → Compile Text
  | 0, _, _ => throw .unread
  | fuel + 1, id, characters => do
      let (sequence, rest) ← patternSequence fuel characters
      alternative id sequence
      match rest with
      | '|' :: rest => patternBranches fuel id rest
      | _ => pure rest

def patternSequence : Nat → Text → Compile (List GrammarElement × Text)
  | 0, _ => throw .unread
  | _ + 1, [] => pure ([], [])
  | fuel + 1, next :: rest =>
      if next = '|' ∨ next = ')' then pure ([], next :: rest)
      else do
        let (atom, rest) ← patternAtom fuel next rest
        let (bounds, rest) ← fromExcept (patternQuantifier rest)
        let elements ← quantified atom bounds
        let (sequence, rest) ← patternSequence fuel rest
        pure (elements ++ sequence, rest)

def patternAtom : Nat → Char → Text → Compile (List GrammarElement × Text)
  | 0, _, _ => throw .unread
  | fuel + 1, next, rest =>
      if next = '.' then do
        let character ← stringChar
        pure ([.rule character], rest)
      else if next = '(' then do
        let rest ← fromExcept (groupStart rest)
        let (group, rest) ← patternAlternation fuel rest
        let rest ← fromExcept (groupEnd rest)
        pure ([.rule group], rest)
      else if next = '[' then patternClass rest
      else if next = '\\' then fromExcept (patternEscape rest)
      else if isOperator next then
        throw (.unsupported s!"pattern operator {next} in this position")
      else do
        let literal ← fromExcept (patternLiteral next)
        pure (literal, rest)

end

/-- The characters between the anchors, and which of the anchors there are. -/
def anchors (pattern : Text) : Bool × Text × Bool :=
  let start := pattern.head? = some '^'
  let body := if start then pattern.tail else pattern
  let stripped := body.getLast? = some '$' ∧ body.dropLast.getLast? ≠ some '\\'
  (start, if stripped then body.dropLast else body, stripped)

/-- A `pattern`: unanchored ends match any text, as in the specification. -/
def pattern (pattern : Text) : Compile Nat := do
  let (anchoredStart, characters, anchoredEnd) := anchors pattern
  let (matched, rest) ← patternAlternation (4 * characters.length + 4) characters
  rejectIf (rest ≠ []) (.unbalanced pattern)
  let free ← stringChar
  let any ← repetition free none 0 none
  newRule fun id =>
    alternative id
      (bytes "\"".toList ++ (if anchoredStart then [] else [.rule any]) ++ [.rule matched] ++
        (if anchoredEnd then [] else [.rule any]) ++ bytes "\"".toList)

end Descent

end Riley.Structured
