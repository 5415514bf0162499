import Riley.Library.Outcome
import Mathlib.Logic.Relation

/-!
Actions that move the state along a preorder from wherever they are run. What the state keeps
once it holds is such an order, and so is what one kind of edit can reach; an action is then
judged by its parts, whatever values they read.
-/

namespace Riley.Outcome

variable {ε ε' σ τ α β : Type} {along : σ → σ → Prop}

/-- Every run of the action ends, well or not, along the order from where it began. -/
def Moves (along : σ → σ → Prop) (action : EStateM ε σ α) : Prop :=
  ∀ s, wp action (fun _ t => along s t) (fun _ t => along s t) s

namespace Moves

theorem after {action : EStateM ε σ α} (h : Moves along action) (s : σ) :
    along s (after action s) :=
  after_of_wp (h s)

theorem ok {action : EStateM ε σ α} (h : Moves along action) {s t : σ} {a : α}
    (hrun : action s = .ok a t) : along s t :=
  (wp_elim (h s)).1 a t hrun

theorem error {action : EStateM ε σ α} (h : Moves along action) {s t : σ} {e : ε}
    (hrun : action s = .error e t) : along s t :=
  (wp_elim (h s)).2 e t hrun

theorem mono {along' : σ → σ → Prop} {action : EStateM ε σ α} (h : Moves along action)
    (hle : ∀ s t, along s t → along' s t) : Moves along' action :=
  fun s => wp_mono (h s) (fun _ t => hle s t) fun _ t => hle s t

theorem modify {f : σ → σ} (h : ∀ s, along s (f s)) :
    Moves along (modify f : EStateM ε σ PUnit) := h

theorem zoom {view : τ → σ} {update : σ → τ → τ} {lift : ε → ε'} {action : EStateM ε σ α}
    (hview : ∀ s t, view (update s t) = s) (h : Moves along action) :
    Moves (InvImage along view) (zoom view update lift action) := by
  intro t
  rw [wp_zoom]
  refine wp_mono (h (view t)) (fun _ s hs => ?_) fun _ s hs => ?_
  · rwa [InvImage, hview]
  · rwa [InvImage, hview]

/-- An action on a component that the order does not see. -/
theorem zoom_other {view : τ → σ} {update : σ → τ → τ} {lift : ε → ε'} {along : τ → τ → Prop}
    {action : EStateM ε σ α} (h : ∀ s t, along t (update s t)) :
    Moves along (Outcome.zoom view update lift action) := by
  intro t
  unfold wp Outcome.zoom
  cases action (view t) with
  | ok a s => exact h s t
  | error e s => exact h s t

theorem attempt {action : EStateM ε σ α} (h : Moves along action) :
    Moves along (attempt action : EStateM ε' σ (Except ε α)) := by
  intro s
  rw [wp_attempt]
  exact h s

theorem ite {condition : Prop} [Decidable condition] {yes no : EStateM ε σ α}
    (hyes : condition → Moves along yes) (hno : ¬ condition → Moves along no) :
    Moves along (if condition then yes else no) := by
  split
  · exact hyes ‹_›
  · exact hno ‹_›

section Reflexive

variable [Std.Refl along]

theorem pure (a : α) : Moves along (pure a : EStateM ε σ α) := fun s => refl_of along s

theorem throw (e : ε) : Moves along (throw e : EStateM ε σ α) := fun s => refl_of along s

theorem get : Moves along (get : EStateM ε σ σ) := fun s => refl_of along s

theorem rejectIf (condition : Prop) [Decidable condition] (e : ε) :
    Moves along (rejectIf condition e : EStateM ε σ Unit) :=
  fun s => (wp_rejectIf condition e).mpr ⟨fun _ => refl_of along s, fun _ => refl_of along s⟩

theorem fromExcept (value : Except ε α) : Moves along (fromExcept value : EStateM ε σ α) :=
  fun s => (wp_fromExcept value).mpr ⟨fun _ _ => refl_of along s, fun _ _ => refl_of along s⟩

theorem orReject (value : Option α) (e : ε) :
    Moves along (orReject value e : EStateM ε σ α) :=
  fun s => (wp_orReject value e).mpr ⟨fun _ => refl_of along s, fun _ _ => refl_of along s⟩

/-- An action that changes nothing when it fails. -/
theorem of_ok {action : EStateM ε σ α}
    (hrefused : ∀ s, wp action (fun _ _ => True) (fun _ t => t = s) s)
    (hok : ∀ s a t, action s = .ok a t → along s t) : Moves along action := by
  intro s
  refine wp_mono (wp_ran (hrefused s)) (fun a t hrun => hok s a t hrun.1) fun e t hsame => ?_
  rw [hsame]
  exact refl_of along s

theorem runIf {condition : Prop} [Decidable condition] {action : EStateM ε σ Unit}
    (h : condition → Moves along action) : Moves along (runIf condition action) :=
  fun s => (wp_runIf condition action).mpr ⟨fun hc => h hc s, fun _ => refl_of along s⟩

end Reflexive

section Transitive

variable [IsTrans σ along]

theorem bind {action : EStateM ε σ α} {next : α → EStateM ε σ β} (h : Moves along action)
    (hnext : ∀ a, Moves along (next a)) : Moves along (action >>= next) := by
  intro s
  refine wp_call (h s) (fun a t hst => ?_) fun _ _ hst => hst
  exact wp_mono (hnext a t) (fun _ _ htu => trans_of along hst htu)
    fun _ _ htu => trans_of along hst htu

theorem forEach [Std.Refl along] {body : β → EStateM ε σ Unit} (items : List β)
    (h : ∀ item, Moves along (body item)) : Moves along (forEach items body) := by
  induction items with
  | nil => exact pure ()
  | cons item rest ih => exact bind (h item) fun _ => ih

theorem repeatWhile [Std.Refl along] {body : EStateM ε σ Bool} (fuel : Nat)
    (h : Moves along body) : Moves along (repeatWhile fuel body) := by
  induction fuel with
  | zero => exact pure ()
  | succ fuel ih =>
      refine bind h fun again => ite (fun _ => ih) fun _ => pure ()

end Transitive

end Moves

instance reflInvImage {view : τ → σ} [Std.Refl along] : Std.Refl (InvImage along view) :=
  ⟨fun t => refl_of along (view t)⟩

instance isTransInvImage {view : τ → σ} [IsTrans σ along] : IsTrans τ (InvImage along view) :=
  ⟨fun _ _ _ h h' => trans_of along h h'⟩

end Riley.Outcome
