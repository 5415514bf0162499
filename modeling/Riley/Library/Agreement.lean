import Mathlib
import Riley.Library.Outcome

/-!
Two actions that cannot be told apart: from related states they give the same result or
fail with the same error, and leave related states. The left one may also fail with an
error that is excused, about which nothing is said.
-/

namespace Riley.Outcome

variable {ε σ τ α β : Type}

def Agrees (related : σ → τ → Prop) (excused : ε → Prop) (left : EStateM ε σ α)
    (right : EStateM ε τ α) : Prop :=
  ∀ s t, related s t →
    match left s with
    | .ok a s' => ∃ t', right t = .ok a t' ∧ related s' t'
    | .error e s' => excused e ∨ ∃ t', right t = .error e t' ∧ related s' t'

variable {related : σ → τ → Prop} {excused : ε → Prop}

theorem agrees_pure (a : α) : Agrees related excused (pure a) (pure a) :=
  fun _ t h => ⟨t, rfl, h⟩

theorem agrees_throw (e : ε) :
    Agrees related excused (throw e : EStateM ε σ α) (throw e) :=
  fun _ t h => .inr ⟨t, rfl, h⟩

theorem agrees_bind {left : EStateM ε σ α} {right : EStateM ε τ α}
    {next : α → EStateM ε σ β} {next' : α → EStateM ε τ β}
    (h : Agrees related excused left right)
    (hnext : ∀ a, Agrees related excused (next a) (next' a)) :
    Agrees related excused (left >>= next) (right >>= next') := by
  intro s t hst
  have hfirst := h s t hst
  simp only [bind, EStateM.bind]
  cases hleft : left s with
  | ok a s' =>
      rw [hleft] at hfirst
      obtain ⟨t', hright, hst'⟩ := hfirst
      rw [hright]
      exact hnext a s' t' hst'
  | error e s' =>
      rw [hleft] at hfirst
      rcases hfirst with hexcused | ⟨t', hright, hst'⟩
      · exact .inl hexcused
      · rw [hright]
        exact .inr ⟨t', rfl, hst'⟩

theorem agrees_rejectIf (condition : Prop) [Decidable condition] (e : ε) :
    Agrees related excused (rejectIf condition e) (rejectIf condition e) := by
  unfold rejectIf
  split
  · exact agrees_throw e
  · exact agrees_pure ()

theorem agrees_orReject (value : Option α) (e : ε) :
    Agrees related excused (orReject value e) (orReject value e) := by
  unfold orReject
  cases value with
  | none => exact agrees_throw e
  | some a => exact agrees_pure a

theorem agrees_fromExcept (value : Except ε α) :
    Agrees related excused (fromExcept value) (fromExcept value) := by
  cases value with
  | ok a => exact agrees_pure a
  | error e => exact agrees_throw e

/-- A test of the state that means the same on both sides, or whose error is excused. -/
theorem agrees_test {condition : σ → Prop} [DecidablePred condition] {condition' : τ → Prop}
    [DecidablePred condition'] {e : ε}
    (hfail : ∀ s t, related s t → condition s → excused e ∨ condition' t)
    (hpass : ∀ s t, related s t → condition' t → condition s) :
    Agrees related excused (do let s ← get; rejectIf (condition s) e)
      (do let t ← get; rejectIf (condition' t) e) := by
  intro s t hst
  have hsame := hfail s t hst
  have hback := hpass s t hst
  simp only [bind, EStateM.bind, get, getThe, MonadStateOf.get, EStateM.get, rejectIf]
  by_cases hc : condition s
  · rw [if_pos hc]
    rcases hsame hc with hexcused | hc'
    · exact .inl hexcused
    · rw [if_pos hc']
      exact .inr ⟨t, rfl, hst⟩
  · rw [if_neg hc, if_neg (fun hc' => hc (hback hc'))]
    exact ⟨t, rfl, hst⟩

/-- A test, and a change where it passes. -/
theorem agrees_guarded {condition : σ → Prop} [DecidablePred condition] {condition' : τ → Prop}
    [DecidablePred condition'] {change : σ → σ} {change' : τ → τ} {e : ε}
    (hfail : ∀ s t, related s t → condition s → excused e ∨ condition' t)
    (hpass : ∀ s t, related s t → condition' t → condition s)
    (hchange : ∀ s t, related s t → ¬ condition s → related (change s) (change' t)) :
    Agrees related excused (do let s ← get; rejectIf (condition s) e; set (change s))
      (do let t ← get; rejectIf (condition' t) e; set (change' t)) := by
  intro s t hst
  have hsame := hfail s t hst
  have hback := hpass s t hst
  simp only [bind, EStateM.bind, get, getThe, MonadStateOf.get, EStateM.get, rejectIf]
  by_cases hc : condition s
  · rw [if_pos hc]
    rcases hsame hc with hexcused | hc'
    · exact .inl hexcused
    · rw [if_pos hc']
      exact .inr ⟨t, rfl, hst⟩
  · rw [if_neg hc, if_neg (fun hc' => hc (hback hc'))]
    exact ⟨change' t, rfl, hchange s t hst hc⟩

/-- What an action answers, whatever state it leaves. -/
def answer (action : EStateM ε σ α) (s : σ) : Except ε α :=
  match action s with
  | .ok a _ => .ok a
  | .error e _ => .error e

theorem answer_eq_ok {action : EStateM ε σ α} {s : σ} {a : α} :
    answer action s = .ok a ↔ ∃ t, action s = .ok a t := by
  unfold answer
  cases action s <;> simp

theorem answer_eq_error {action : EStateM ε σ α} {s : σ} {e : ε} :
    answer action s = .error e ↔ ∃ t, action s = .error e t := by
  unfold answer
  cases action s <;> simp

theorem Agrees.answer_eq {left : EStateM ε σ α} {right : EStateM ε τ α}
    (h : Agrees related excused left right) {s : σ} {t : τ} (hst : related s t) :
    answer left s = answer right t ∨ ∃ e, answer left s = .error e ∧ excused e := by
  have hrun := h s t hst
  unfold answer
  cases hleft : left s with
  | ok a s' =>
      rw [hleft] at hrun
      obtain ⟨t', hright, _⟩ := hrun
      exact .inl (by rw [hright])
  | error e s' =>
      rw [hleft] at hrun
      rcases hrun with hexcused | ⟨t', hright, _⟩
      · exact .inr ⟨e, rfl, hexcused⟩
      · exact .inl (by rw [hright])

/-- An action that agrees with itself keeps what relates a state to itself. -/
theorem Agrees.keeps {kept : σ → Prop} {action : EStateM ε σ α}
    (h : Agrees (fun s t => s = t ∧ kept s) (fun _ => False) action action) {s : σ}
    (hs : kept s) : kept (after action s) := by
  have hrun := h s s ⟨rfl, hs⟩
  unfold after
  cases haction : action s with
  | ok a s' =>
      rw [haction] at hrun
      obtain ⟨_, _, _, hkept⟩ := hrun
      exact hkept
  | error e s' =>
      rw [haction] at hrun
      obtain ⟨_, _, _, hkept⟩ := hrun.resolve_left id
      exact hkept

end Riley.Outcome
