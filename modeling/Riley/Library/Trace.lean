import Mathlib.Tactic.Common

/-!
Runs of a transition system whose steps emit events, and the rules that carry
what one step preserves to what a whole run preserves.
-/

namespace Riley.Trace

variable {σ ε : Type*} {step : σ → List ε → σ → Prop}

/-- A run and the events it emitted, oldest first. -/
inductive Run (step : σ → List ε → σ → Prop) : σ → List ε → σ → Prop
  | refl (a : σ) : Run step a [] a
  | cons {a b c : σ} {now later : List ε} :
      step a now b → Run step b later c → Run step a (now ++ later) c

theorem Run.single {a b : σ} {events : List ε} (h : step a events b) :
    Run step a events b := by
  have hrun := Run.cons h (Run.refl b)
  rwa [List.append_nil] at hrun

/-- An invariant of the state and of everything emitted so far. -/
theorem Run.extends {a b : σ} {past events : List ε} (h : Run step a events b)
    (invariant : List ε → σ → Prop)
    (hstep : ∀ past a events b, step a events b → invariant past a →
      invariant (past ++ events) b)
    (ha : invariant past a) : invariant (past ++ events) b := by
  induction h generalizing past with
  | refl => simpa using ha
  | cons hfirst _ ih =>
      rw [← List.append_assoc]
      exact ih (hstep _ _ _ _ hfirst ha)

end Riley.Trace
