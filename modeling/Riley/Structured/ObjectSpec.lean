import Riley.Structured.CallSpec

/-!
Objects with properties. From each property on, one rule derives the members that
may come where none came before, the other those that follow one; together they
derive a sub-list of the properties that leaves out optional ones only, with a
comma in front of every member but the first.
-/

namespace Riley.Structured

open Riley.Derivation Outcome
open Constraint (Grammar GrammarElement Rules)
open Server (Json)
open Utf8 (Text)

/-- Choosing from a list: what is left out passes the test, the order stays. -/
inductive Picks {α : Type} (optional : α → Prop) : List α → List α → Prop
  | nil : Picks optional [] []
  | take {item : α} {items chosen : List α} (h : Picks optional items chosen) :
      Picks optional (item :: items) (item :: chosen)
  | skip {item : α} {items chosen : List α} (hitem : optional item)
      (h : Picks optional items chosen) : Picks optional (item :: items) chosen

section Texts

variable (rules : Rules) (required : List Text)

variable {rules required}

end Texts

section Chain

variable {schema : Json → Compile Nat} (hschema : ∀ json, Keeps none (schema json))
include hschema

end Chain

section Claims

variable {resolve : Json → Text → Option Json} {fuel : Nat} {object properties : List (Text × Json)}
  {before now : SchemaCompiler} {id : Nat} {g : Grammar}

end Claims

end Riley.Structured
