import Mathlib.Data.List.Pairwise
import Mathlib.Logic.Relation
import Mathlib.Tactic.Common

/-!
A line that people join at its end, may leave from anywhere, and are served from the front of.
Who is served and who still stands in it are then in the order in which they arrived.
-/

namespace Riley.Queueing

open Relation

variable {α : Type*}

/-- Who arrived, who was served, and who still stands in line. -/
structure Line (α : Type*) where
  arrived : List α
  served : List α
  queue : List α

inductive Step : Line α → Line α → Prop
  | join {line : Line α} (a : α) :
      Step line { line with arrived := line.arrived ++ [a], queue := line.queue ++ [a] }
  | leave {line : Line α} {rest : List α} :
      rest.Sublist line.queue → Step line { line with queue := rest }
  | serve {line : Line α} {front rest : List α} :
      line.queue = front ++ rest →
      Step line { line with served := line.served ++ front, queue := rest }

abbrev Steps : Line α → Line α → Prop := ReflTransGen Step

/-- Nobody was served, and nobody stands in line, before someone who arrived earlier and is
still there. -/
def Fair (line : Line α) : Prop := (line.served ++ line.queue).Sublist line.arrived

theorem Fair.step {line line' : Line α} (h : Fair line) (hstep : Step line line') :
    Fair line' := by
  cases hstep with
  | join a =>
      change (line.served ++ (line.queue ++ [a])).Sublist (line.arrived ++ [a])
      rw [← List.append_assoc]
      exact h.append (List.Sublist.refl [a])
  | leave hrest => exact (List.Sublist.append_left hrest line.served).trans h
  | serve hfront =>
      unfold Fair
      dsimp only
      rw [List.append_assoc, ← hfront]
      exact h

theorem Fair.steps {line line' : Line α} (h : Fair line) (hsteps : Steps line line') :
    Fair line' := by
  induction hsteps with
  | refl => exact h
  | tail _ hstep ih => exact ih.step hstep

theorem fair_of_steps {line : Line α} (hsteps : Steps ⟨[], [], []⟩ line) : Fair line :=
  Fair.steps (show Fair ⟨[], [], []⟩ from List.nil_sublist _) hsteps

/-- Along an order that arrivals follow, whoever was served comes before whoever waits. -/
theorem Fair.before {line : Line α} (h : Fair line) {before : α → α → Prop}
    (harrived : line.arrived.Pairwise before) :
    ∀ a ∈ line.served, ∀ b ∈ line.queue, before a b :=
  (List.pairwise_append.mp (harrived.sublist h)).2.2

end Riley.Queueing
