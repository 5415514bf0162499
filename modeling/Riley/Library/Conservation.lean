import Mathlib.Algebra.Group.Basic
import Riley.Library.Moves

/-!
Conservation. What a state holds is measured, and an action takes over what its caller has in
hand and gives back what its result holds. Nothing is lost or made on the way, and an action
that fails puts back what it was given.
-/

namespace Riley.Outcome

variable {ε ε' σ α β M : Type} [AddCommMonoid M] {held : σ → M} {owed : M} {given : α → M}

/-- The state and the result hold together what the state held and what the caller owed. -/
def Conserves (held : σ → M) (owed : M) (given : α → M) (action : EStateM ε σ α) : Prop :=
  ∀ s, wp action (fun a t => held t + given a = held s + owed)
    (fun _ t => held t = held s + owed) s

namespace Conserves

theorem of_moves {action : EStateM ε σ α} (h : Moves (InvImage Eq held) action) :
    Conserves held 0 (fun _ => 0) action := by
  intro s
  refine wp_mono (h s) (fun _ t hsame => ?_) fun _ t hsame => ?_
  · rw [add_zero, add_zero]
    exact Eq.symm hsame
  · rw [add_zero]
    exact Eq.symm hsame

theorem pure (a : α) : Conserves held (given a) given (pure a : EStateM ε σ α) := fun _ => rfl

theorem throw (e : ε) : Conserves held 0 given (throw e : EStateM ε σ α) := by
  intro s
  change held s = held s + 0
  rw [add_zero]

theorem bind {action : EStateM ε σ α} {next : α → EStateM ε σ β} {given' : β → M}
    (h : Conserves held owed given action) (hnext : ∀ a, Conserves held (given a) given' (next a)) :
    Conserves held owed given' (action >>= next) := by
  intro s
  refine wp_call (h s) (fun a t hmade => ?_) fun _ _ hfailed => hfailed
  refine wp_mono (hnext a t) (fun b u hdone => ?_) fun _ u hfailed => ?_
  · exact hdone.trans hmade
  · exact hfailed.trans hmade

/-- A step that keeps what the state holds, while the caller has nothing in hand. -/
theorem step {action : EStateM ε σ α} {next : α → EStateM ε σ β} {given' : β → M}
    (h : Moves (InvImage Eq held) action) (hnext : ∀ a, Conserves held 0 given' (next a)) :
    Conserves held 0 given' (action >>= next) :=
  (of_moves h).bind hnext

theorem ite {condition : Prop} [Decidable condition] {yes no : EStateM ε σ α}
    (hyes : condition → Conserves held owed given yes)
    (hno : ¬ condition → Conserves held owed given no) :
    Conserves held owed given (if condition then yes else no) := by
  split
  · exact hyes ‹_›
  · exact hno ‹_›

/-- An attempt leaves alone what the caller has in hand. -/
theorem attempt {action : EStateM ε σ α} (h : Conserves held 0 given action) (owed : M) :
    Conserves held owed (fun answer => answer.toOption.elim 0 given + owed)
      (attempt action : EStateM ε' σ (Except ε α)) := by
  intro s
  rw [wp_attempt]
  refine wp_mono (h s) (fun a t hdone => ?_) fun e t hfailed => ?_
  · change held t + (given a + owed) = _
    rw [← add_assoc, hdone, add_zero]
  · change held t + (0 + owed) = _
    rw [zero_add, hfailed, add_zero]

theorem of_eq {owed' : M} {action : EStateM ε σ α} (h : Conserves held owed given action)
    (howed : owed = owed') : Conserves held owed' given action := by
  rw [← howed]
  exact h

/-- What a call that took nothing over gives. -/
theorem ok {action : EStateM ε σ α} (h : Conserves held 0 given action) {s t : σ} {a : α}
    (hrun : action s = .ok a t) : held t + given a = held s := by
  have hdone := (wp_elim (h s)).1 a t hrun
  rwa [add_zero] at hdone

theorem error {action : EStateM ε σ α} (h : Conserves held 0 given action) {s t : σ} {e : ε}
    (hrun : action s = .error e t) : held t = held s := by
  have hfailed := (wp_elim (h s)).2 e t hrun
  rwa [add_zero] at hfailed

end Conserves

end Riley.Outcome
