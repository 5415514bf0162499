import Mathlib
import Riley.Library.Entries
import Riley.Structured.Pattern

/-!
The schema compiler proper: one node of a JSON Schema document at a time. A
reference is resolved against the document by `resolve`, the pointer lookup of
the JSON library. Numbers are read from the digits that the library keeps.
-/

namespace Riley.Structured

open Constraint (ByteClass Grammar GrammarElement)
open Outcome (forEach fromExcept orReject rejectIf)
open Server (Json)
open Utf8 (Text)

local instance lawfulText : LawfulBEq Text := inferInstance

section Values

def i64Max : Int := 9223372036854775807
def i64Min : Int := -9223372036854775808

/-- An integer that fits in an unsigned 64-bit number; none has a sign. -/
def asU64 : Json → Option Nat
  | .number [] => none
  | .number digits => do
      let value ← digitsValue 0 digits
      if value ≤ u64Max then some value else none
  | _ => none

/-- An integer that fits in a signed 64-bit number. -/
def asI64 : Json → Option Int
  | .number ('-' :: digits) => do
      let value ← asU64 (.number digits)
      if 0 < value ∧ i64Min ≤ -(value : Int) then some (-(value : Int)) else none
  | number => do
      let value ← asU64 number
      if (value : Int) ≤ i64Max then some value else none

/-- A number that reads as zero in floating point, whatever its sign. -/
def isZero : Json → Bool
  | .number digits => (digits.takeWhile (· ≠ 'e')).all (· ∈ ['-', '0', '.'])
  | _ => false

def asStr : Json → Option Text := Json.asStr

def asArray : Json → Option (List Json)
  | .array items => some items
  | _ => none

def asObject : Json → Option (List (Text × Json))
  | .object entries => some entries
  | _ => none

def lookup (key : String) (object : List (Text × Json)) : Option Json :=
  Entries.get key.toList object

/-- Addition that stays within 64 bits. -/
def saturatingAdd (a b : Int) : Int := max i64Min (min i64Max (a + b))

end Values

section Tables

/-- Keywords that only annotate a schema. -/
def ANNOTATIONS : List Text :=
  ["$schema", "$id", "$comment", "$defs", "definitions", "title", "description", "default",
    "examples", "strict"].map String.toList

def TYPE_KEYWORDS : List (Text × List Text) :=
  [("null", []), ("boolean", []), ("string", ["minLength", "maxLength", "format", "pattern"]),
    ("integer", ["minimum", "maximum", "exclusiveMinimum", "exclusiveMaximum"]),
    ("number", ["minimum"]), ("array", ["items", "minItems", "maxItems"]),
    ("object",
      ["properties", "required", "additionalProperties", "minProperties", "maxProperties"])].map
    fun entry => (entry.1.toList, entry.2.map String.toList)

end Tables

section Integers

def integerBound (object : List (Text × Json)) (key : String) : Except SchemaError (Option Int) :=
  match lookup key object with
  | none => .ok none
  | some value =>
      match asI64 value with
      | some bound => .ok (some bound)
      | none => .error (.unsupported s!"non-integer {key} on an integer")

/-- An exclusive bound, as the inclusive one next to it. -/
def exclusiveBound (object : List (Text × Json)) (key : String) (step : Int) :
    Except SchemaError (Option Int) := do
  let bound ← integerBound object key
  .ok (bound.map (saturatingAdd · step))

def tightest (pick : Int → Int → Int) : Option Int → Option Int → Option Int
  | some a, some b => some (pick a b)
  | a, b => a <|> b

/-- The lower and the upper bound of an integer schema. -/
def integerBounds (object : List (Text × Json)) :
    Except SchemaError (Option Int × Option Int) := do
  let minimum ← integerBound object "minimum"
  let above ← exclusiveBound object "exclusiveMinimum" 1
  let maximum ← integerBound object "maximum"
  let below ← exclusiveBound object "exclusiveMaximum" (-1)
  .ok (tightest max minimum above, tightest min maximum below)

def integerSchema (object : List (Text × Json)) : Compile Nat := do
  let (minimum, maximum) ← fromExcept (integerBounds object)
  integerRange minimum maximum

end Integers

section Leaves

/-- The elements of a string format. -/
def formatBody (format : Text) : Except SchemaError (List GrammarElement) :=
  let dash := class_ 0x2d 0x2d
  let colon := class_ 0x3a 0x3a
  let hex := GrammarElement.bytes ((ByteClass.range 0x30 0x39).union (ByteClass.range 0x61 0x66))
  let date := [digit, digit, digit, digit, dash, class_ 0x30 0x31, digit, dash, class_ 0x30 0x33,
    digit]
  let time := [class_ 0x30 0x32, digit, colon, class_ 0x30 0x35, digit, colon, class_ 0x30 0x35,
    digit]
  if format = "date".toList then .ok date
  else if format = "time".toList then .ok (time ++ bytes "Z".toList)
  else if format = "date-time".toList then
    .ok (date ++ bytes "T".toList ++ time ++ bytes "Z".toList)
  else if format = "uuid".toList then
    .ok (List.replicate 8 hex ++ [dash] ++ List.replicate 4 hex ++ [dash] ++
      List.replicate 4 hex ++ [dash] ++ List.replicate 4 hex ++ [dash] ++ List.replicate 12 hex)
  else .error (.unsupported s!"string format {String.ofList format}")

def stringFormat (format : Text) : Compile Nat := do
  let id ← rule
  let body ← fromExcept (formatBody format)
  alternative id (bytes "\"".toList ++ body ++ bytes "\"".toList)
  pure id

def stringSchema (object : List (Text × Json)) : Compile Nat :=
  match lookup "pattern" object with
  | some text => do
      rejectIf (["format", "minLength", "maxLength"].any fun key => (lookup key object).isSome)
        (.unsupported "pattern with format or length bounds")
      let text ← orReject (asStr text) (.message "pattern must be a string")
      pattern text
  | none =>
      match lookup "format" object with
      | some format => do
          rejectIf (["minLength", "maxLength"].any fun key => (lookup key object).isSome)
            (.unsupported "format with length bounds")
          stringFormat ((asStr format).getD [])
      | none =>
          boundedString (((lookup "minLength" object).bind asU64).getD 0)
            ((lookup "maxLength" object).bind asU64)

def numberSchema (object : List (Text × Json)) : Compile Nat :=
  match lookup "minimum" object with
  | none => number
  | some minimum =>
      if isZero minimum then unsignedNumber
      else throw (.unsupported "number minimum other than 0")

end Leaves

section Nodes

variable (resolve : Json → Text → Option Json) (schema : Json → Compile Nat)

def arraySchema (object : List (Text × Json)) : Compile Nat := do
  let item ← ((lookup "items" object).map schema).getD value
  let separator ← separator
  let lead := bytes ",".toList ++ [.rule separator]
  let items ← repetition item (some lead) (((lookup "minItems" object).bind asU64).getD 0)
    ((lookup "maxItems" object).bind asU64)
  newRule fun id => alternative id (bytes "[".toList ++ [.rule items] ++ bytes "]".toList)

/-- An object without `properties`: any members with values of one schema. -/
def mapSchema (object : List (Text × Json)) : Compile Nat := do
  rejectIf (lookup "required" object).isSome (.unsupported "required without properties")
  match lookup "additionalProperties" object with
  | some (.bool false) => newRule fun id => alternative id (bytes "\x7b\x7d".toList)
  | some (.object entries) => do
      let value ← schema (.object entries)
      objectMap value (((lookup "minProperties" object).bind asU64).getD 0)
        ((lookup "maxProperties" object).bind asU64)
  | _ => do
      let value ← value
      objectMap value (((lookup "minProperties" object).bind asU64).getD 0)
        ((lookup "maxProperties" object).bind asU64)

/-- The names that `required` lists. -/
def requiredNames (object : List (Text × Json)) : Except SchemaError (List Text) :=
  match lookup "required" object with
  | none => .ok []
  | some names =>
      match asArray names with
      | some names => .ok (names.filterMap asStr)
      | none => .error (.message "required must be an array")

/-- The members that may come from this property on: the first rule where no member came
before, the second where the next one needs a comma. -/
def propertyRules (separator : Nat) (lead : List GrammarElement) (required : List Text)
    (rest : Nat × Nat) (property : Text × Json) : Compile (Nat × Nat) := do
  let value ← schema property.2
  let member := bytes (Server.quote property.1) ++ bytes ":".toList ++
    [.rule separator, .rule value]
  let optional := property.1 ∉ required
  let without ← newRule fun without => do
    alternative without (member ++ [.rule rest.2])
    Outcome.runIf optional (alternative without [.rule rest.1])
  let with_ ← newRule fun with_ => do
    alternative with_ (lead ++ member ++ [.rule rest.2])
    Outcome.runIf optional (alternative with_ [.rule rest.2])
  pure (without, with_)

/-- The loop over the properties, the last one first. -/
def propertyChain (separator : Nat) (lead : List GrammarElement) (required : List Text) :
    List (Text × Json) → Nat × Nat → Compile (Nat × Nat)
  | [], rest => pure rest
  | property :: before, rest => do
      let rest ← propertyRules schema separator lead required rest property
      propertyChain separator lead required before rest

def propertiesSchema (object properties : List (Text × Json)) : Compile Nat := do
  rejectIf ((lookup "minProperties" object).isSome ∨ (lookup "maxProperties" object).isSome)
    (.unsupported "minProperties with properties")
  rejectIf (((lookup "additionalProperties" object).bind asObject).isSome)
    (.unsupported "additionalProperties schema with properties")
  let required ← fromExcept (requiredNames object)
  match required.find? fun name => (Entries.get name properties).isNone with
  | some name => throw (.unsupported s!"required {String.ofList name} without a property")
  | none => do
      let separator ← separator
      let lead := bytes ",".toList ++ [.rule separator]
      let none_ ← newRule fun id => alternative id []
      let some_ ← newRule fun id => alternative id []
      let rest ← propertyChain schema separator lead required properties.reverse (none_, some_)
      newRule fun id =>
        alternative id (bytes "\x7b".toList ++ [.rule rest.1] ++ bytes "\x7d".toList)

def objectSchema (object : List (Text × Json)) : Compile Nat :=
  match (lookup "properties" object).bind asObject with
  | none => mapSchema schema object
  | some properties => propertiesSchema schema object properties

/-- A keyword of the object that a type does not know. -/
def unknownKeyword (allowed : List Text) (object : List (Text × Json)) : Option Text :=
  let multiple := ((lookup "type" object).bind asArray).isSome
  (object.map Prod.fst).find? fun key =>
    key ≠ "type".toList && key ∉ ANNOTATIONS && key ∉ allowed &&
      !(multiple && TYPE_KEYWORDS.any fun entry => key ∈ entry.2)

def typed (name : Text) (object : List (Text × Json)) : Compile Nat :=
  match Entries.get name TYPE_KEYWORDS with
  | none => throw (.message s!"unknown type {String.ofList name}")
  | some allowed =>
      match unknownKeyword allowed object with
      | some key => throw (.unsupported s!"{String.ofList key} on type {String.ofList name}")
      | none =>
          if name = "null".toList then newRule fun id => alternative id (bytes "null".toList)
          else if name = "boolean".toList then newRule fun id => do
            alternative id (bytes "true".toList)
            alternative id (bytes "false".toList)
          else if name = "string".toList then stringSchema object
          else if name = "integer".toList then integerSchema object
          else if name = "number".toList then numberSchema object
          else if name = "array".toList then arraySchema schema object
          else objectSchema schema object

/-- A rule with one branch for each of some nodes. -/
def union {α : Type} (branches : List α) (compile : α → Compile Nat) : Compile Nat :=
  newRule fun id => forEach branches fun node => do
    let branch ← compile node
    alternative id [.rule branch]

def reference (target : Text) : Compile Nat := do
  let compiler ← get
  match Entries.get target compiler.references with
  | some id => pure id
  | none => do
      let pointer ← orReject (if target.head? = some '#' then some target.tail else none)
        (.unsupported s!"non-local $ref {String.ofList target}")
      let node ← orReject (resolve compiler.root pointer)
        (.message s!"unresolved $ref {String.ofList target}")
      newRule fun id => do
        modify fun compiler =>
          { compiler with references := (target, id) :: compiler.references }
        let body ← schema node
        alternative id [.rule body]

/-- A key beside the keyword that is no annotation. -/
def beside (keyword : String) (object : List (Text × Json)) : Option Text :=
  (object.map Prod.fst).find? fun key => key ≠ keyword.toList && key ∉ ANNOTATIONS

def referenceSchema (target : Json) (object : List (Text × Json)) : Compile Nat := do
  let target ← orReject (asStr target) (.message "$ref must be a string")
  match beside "$ref" object with
  | some key => throw (.unsupported s!"{String.ofList key} beside $ref")
  | none => reference resolve schema target

/-- The items of a keyword that lists at least one. -/
def nonEmptyArray (keyword : String) (value : Json) : Except SchemaError (List Json) :=
  match asArray value with
  | some (first :: rest) => .ok (first :: rest)
  | _ => .error (.message s!"{keyword} must be a non-empty array")

def anySchema (keyword : String) (branches : Json) : Compile Nat := do
  let branches ← fromExcept (nonEmptyArray keyword branches)
  union branches schema

def enumSchema (values : Json) : Compile Nat := do
  let values ← fromExcept (nonEmptyArray "enum" values)
  union values literalValue

def allSchema (branches : Json) : Compile Nat :=
  match asArray branches with
  | some [only] => schema only
  | _ => throw (.unsupported "allOf with more than one schema")

def typeSchema (object : List (Text × Json)) : Compile Nat :=
  match lookup "type" object with
  | none =>
      if (lookup "properties" object).isSome then typed schema "object".toList object
      else
        match (object.map Prod.fst).find? fun key => key ∉ ANNOTATIONS with
        | some key => throw (.unsupported s!"{String.ofList key} without type")
        | none => value
  | some (.string name) => typed schema name object
  | some (.array names) => union names fun name => do
      let name ← orReject (asStr name) (.message "type entries must be strings")
      typed schema name object
  | some _ => throw (.message "type must be a string or an array")

/-- One node that is an object; the first of these keywords decides. -/
def objectNode (object : List (Text × Json)) : Compile Nat :=
  match lookup "$ref" object with
  | some target => referenceSchema resolve schema target object
  | none =>
      match lookup "const" object with
      | some value => literalValue value
      | none =>
          match lookup "enum" object with
          | some values => enumSchema values
          | none =>
              match lookup "anyOf" object with
              | some branches => anySchema schema "anyOf" branches
              | none =>
                  match lookup "oneOf" object with
                  | some branches => anySchema schema "oneOf" branches
                  | none =>
                      match lookup "allOf" object with
                      | some branches => allSchema schema branches
                      | none => typeSchema schema object

/-- One node of a schema, with the compiler for the nodes inside it. -/
def node (json : Json) : Compile Nat := do
  checkSize
  match json with
  | .bool true => value
  | .bool false => throw (.unsupported "the false schema")
  | .object object => objectNode resolve schema object
  | _ => throw (.message "a schema must be an object")

end Nodes

/-- Compiles one schema node into a rule, with a bound on nested nodes. -/
def schema (resolve : Json → Text → Option Json) : Nat → Json → Compile Nat
  | 0, _ => throw .unread
  | fuel + 1, json => node resolve (schema resolve fuel) json

/-- Finishes the grammar. -/
def finish (start : Nat) : Compile Grammar := do
  let compiler ← get
  match compiler.builder.build start with
  | .ok grammar => pure grammar
  | .error error => throw (.grammar error)

/-- Compiles a whole JSON Schema document. -/
def compileSchema (resolve : Json → Text → Option Json) (fuel : Nat) (json : Json) :
    Except SchemaError Grammar :=
  match (schema resolve fuel json >>= finish) (SchemaCompiler.new json) with
  | .ok grammar _ => .ok grammar
  | .error error _ => .error error

end Riley.Structured
