import Riley.Structured.BoundSpec

/-!
Every call of the compiler keeps the rules there were: it adds rules of its own
and leaves the shared ones with their meaning, whatever schema it is given.
-/

namespace Riley.Structured

open Riley.Derivation Outcome
open Constraint (GrammarElement Rules)
open Server (Json)
open Utf8 (Text)

/-- A call that adds rules and alternatives of the open one, and nothing else. -/
def Keeps {α : Type} (opened : Option Nat) (action : Compile α) : Prop :=
  Builds opened action (fun _ _ _ => True) fun _ => True

section Rules

variable {α β : Type} {opened : Option Nat}

theorem Builds.keeps {action : Compile α} {fact : α → Rules → Bodies → Prop}
    {err : SchemaError → Prop} (h : Builds opened action fact err) : Keeps opened action :=
  h.mono (fun _ _ _ _ => trivial) fun _ _ => trivial

theorem Keeps.seq {action : Compile α} {next : α → Compile β} (h : Keeps opened action)
    (hnext : ∀ a, Keeps opened (next a)) : Keeps opened (action >>= next) :=
  (builds_seq h hnext).keeps

theorem Keeps.frame {action : Compile α} (h : Keeps none action) : Keeps opened action :=
  (Builds.frame h).keeps

end Rules

section Calls

variable {opened : Option Nat}

end Calls

section Patterns

end Patterns

section Schemas

section Nodes

variable {resolve : Json → Text → Option Json} {schema : Json → Compile Nat}
  (hschema : ∀ json, Keeps none (schema json))
include hschema

end Nodes

end Schemas

end Riley.Structured
