import Mathlib.Tactic.Common

/-!
Actions over a mutable state that keep the state they reached when they fail,
as a method on `&mut self` does, and the weakest preconditions their proofs
use. `wp action ok err s` says that running `action` from `s` ends in a
result of `ok` or in a failure of `err`; both see the final state.
-/

namespace Riley.Outcome

variable {ε ε' σ τ α β : Type}

def wp (action : EStateM ε σ α) (ok : α → σ → Prop) (err : ε → σ → Prop) (s : σ) : Prop :=
  match action s with
  | .ok a t => ok a t
  | .error e t => err e t

/-- Fails with `error` when the condition holds. -/
def rejectIf (condition : Prop) [Decidable condition] (error : ε) : EStateM ε σ Unit :=
  if condition then throw error else pure ()

/-- Runs the action when the condition holds. -/
def runIf (condition : Prop) [Decidable condition] (action : EStateM ε σ Unit) :
    EStateM ε σ Unit :=
  if condition then action else pure ()

/-- The value of an option, or a failure when there is none. -/
def orReject (value : Option α) (error : ε) : EStateM ε σ α :=
  match value with
  | some a => pure a
  | none => throw error

/-- A computation that only reads, run as an action. -/
def fromExcept (value : Except ε α) : EStateM ε σ α :=
  match value with
  | .ok a => pure a
  | .error e => throw e

/-- Runs an action on one component of a larger state. The component is
written back on success and on failure. -/
def zoom (view : τ → σ) (update : σ → τ → τ) (lift : ε → ε')
    (action : EStateM ε σ α) : EStateM ε' τ α := fun t =>
  match action (view t) with
  | .ok a s => .ok a (update s t)
  | .error e s => .error (lift e) (update s t)

/-- Runs an action and hands its failure to the caller as a value. -/
def attempt (action : EStateM ε σ α) : EStateM ε' σ (Except ε α) := fun s =>
  match action s with
  | .ok a t => .ok (.ok a) t
  | .error e t => .ok (.error e) t

/-- Runs `body` on every item of a list, in order. -/
def forEach (items : List β) (body : β → EStateM ε σ Unit) : EStateM ε σ Unit :=
  match items with
  | [] => pure ()
  | item :: rest => do
      body item
      forEach rest body

/-- Repeats `body` while it answers `true`, at most `fuel` times. -/
def repeatWhile : Nat → EStateM ε σ Bool → EStateM ε σ Unit
  | 0, _ => pure ()
  | fuel + 1, body => do
      if ← body then repeatWhile fuel body else pure ()

/-- The state that an action leaves, with its result or its failure. -/
def after (action : EStateM ε σ α) (s : σ) : σ :=
  match action s with
  | .ok _ t => t
  | .error _ t => t

theorem except_bind_eq_ok {value : Except ε α} {next : α → Except ε β} {b : β} :
    (value >>= next) = .ok b ↔ ∃ a, value = .ok a ∧ next a = .ok b := by
  cases value with
  | ok a => simp [bind, Except.bind]
  | error e => simp [bind, Except.bind]

section Rules

variable {ok : α → σ → Prop} {err : ε → σ → Prop} {s : σ}

theorem wp_mono {ok' : α → σ → Prop} {err' : ε → σ → Prop}
    {action : EStateM ε σ α} (h : wp action ok err s)
    (hok : ∀ a t, ok a t → ok' a t) (herr : ∀ e t, err e t → err' e t) :
    wp action ok' err' s := by
  unfold wp at h ⊢
  cases hrun : action s with
  | ok a t => rw [hrun] at h; exact hok a t h
  | error e t => rw [hrun] at h; exact herr e t h

theorem wp_ok_mono {ok' : α → σ → Prop} {action : EStateM ε σ α}
    (h : wp action ok err s) (hok : ∀ a t, ok a t → ok' a t) :
    wp action ok' err s :=
  wp_mono h hok (fun _ _ he => he)

theorem wp_and {ok' : α → σ → Prop} {err' : ε → σ → Prop}
    {action : EStateM ε σ α} (h : wp action ok err s) (h' : wp action ok' err' s) :
    wp action (fun a t => ok a t ∧ ok' a t) (fun e t => err e t ∧ err' e t) s := by
  unfold wp at h h' ⊢
  cases hrun : action s with
  | ok a t => rw [hrun] at h h'; exact ⟨h, h'⟩
  | error e t => rw [hrun] at h h'; exact ⟨h, h'⟩

theorem wp_of_ok {action : EStateM ε σ α} {a : α} {t : σ}
    (hrun : action s = .ok a t) (h : ok a t) : wp action ok err s := by
  simpa only [wp, hrun] using h

/-- What a result and a failure of an action satisfy. -/
theorem wp_elim {action : EStateM ε σ α} (h : wp action ok err s) :
    (∀ a t, action s = .ok a t → ok a t) ∧ (∀ e t, action s = .error e t → err e t) := by
  unfold wp at h
  constructor
  · intro a t hrun
    rwa [hrun] at h
  · intro e t hrun
    rwa [hrun] at h

theorem wp_any {action : EStateM ε σ α} (hok : ∀ a t, ok a t) (herr : ∀ e t, err e t) :
    wp action ok err s := by
  unfold wp
  cases action s with
  | ok a t => exact hok a t
  | error e t => exact herr e t

/-- A result comes with the run that gave it. -/
theorem wp_ran {action : EStateM ε σ α} (h : wp action ok err s) :
    wp action (fun a t => action s = .ok a t ∧ ok a t) err s := by
  unfold wp at h ⊢
  cases hrun : action s with
  | ok a t =>
      rw [hrun] at h
      exact ⟨rfl, h⟩
  | error e t =>
      rw [hrun] at h
      exact h

theorem after_of_wp {kept : σ → Prop} {action : EStateM ε σ α}
    (h : wp action (fun _ t => kept t) (fun _ t => kept t) s) : kept (after action s) := by
  unfold wp at h
  unfold after
  cases hrun : action s with
  | ok a t => rwa [hrun] at h
  | error e t => rwa [hrun] at h

theorem wp_ok_iff {action : EStateM ε σ α} :
    wp action ok (fun _ _ => False) s ↔ ∃ a t, action s = .ok a t ∧ ok a t := by
  unfold wp
  cases hrun : action s with
  | ok a t => simp
  | error e t => simp

@[simp] theorem wp_pure (a : α) : wp (pure a) ok err s ↔ ok a s := Iff.rfl

@[simp] theorem wp_throw (e : ε) : wp (throw e) ok err s ↔ err e s := Iff.rfl

@[simp] theorem wp_get {ok : σ → σ → Prop} : wp get ok err s ↔ ok s s := Iff.rfl

@[simp] theorem wp_set {ok : PUnit → σ → Prop} (t : σ) :
    wp (set t) ok err s ↔ ok () t := Iff.rfl

@[simp] theorem wp_modify {ok : PUnit → σ → Prop} (f : σ → σ) :
    wp (modify f) ok err s ↔ ok () (f s) := Iff.rfl

@[simp] theorem wp_bind {ok : β → σ → Prop} (action : EStateM ε σ α)
    (next : α → EStateM ε σ β) :
    wp (action >>= next) ok err s ↔
      wp action (fun a t => wp (next a) ok err t) err s := by
  simp only [wp, bind, EStateM.bind]
  cases action s <;> rfl

@[simp] theorem wp_rejectIf {ok : Unit → σ → Prop} (condition : Prop)
    [Decidable condition] (e : ε) :
    wp (rejectIf condition e) ok err s ↔
      (condition → err e s) ∧ (¬ condition → ok () s) := by
  unfold rejectIf
  split <;> simp_all

@[simp] theorem wp_runIf {ok : Unit → σ → Prop} (condition : Prop)
    [Decidable condition] (action : EStateM ε σ Unit) :
    wp (runIf condition action) ok err s ↔
      (condition → wp action ok err s) ∧ (¬ condition → ok () s) := by
  unfold runIf
  split <;> simp_all

@[simp] theorem wp_orReject (value : Option α) (e : ε) :
    wp (orReject value e) ok err s ↔
      (value = none → err e s) ∧ (∀ a, value = some a → ok a s) := by
  unfold orReject
  cases value <;> simp

@[simp] theorem wp_fromExcept (value : Except ε α) :
    wp (fromExcept value) ok err s ↔
      (∀ e, value = .error e → err e s) ∧ (∀ a, value = .ok a → ok a s) := by
  unfold fromExcept
  cases value <;> simp

@[simp] theorem wp_zoom {err : ε' → τ → Prop} {ok : α → τ → Prop}
    (view : τ → σ) (update : σ → τ → τ) (lift : ε → ε')
    (action : EStateM ε σ α) (t : τ) :
    wp (zoom view update lift action) ok err t ↔
      wp action (fun a s => ok a (update s t)) (fun e s => err (lift e) (update s t))
        (view t) := by
  unfold wp zoom
  cases action (view t) <;> rfl

@[simp] theorem wp_attempt {ok : Except ε α → σ → Prop} {err : ε' → σ → Prop}
    (action : EStateM ε σ α) :
    wp (attempt action) ok err s ↔
      wp action (fun a t => ok (.ok a) t) (fun e t => ok (.error e) t) s := by
  unfold wp attempt
  cases action s <;> rfl

theorem wp_ite {condition : Prop} [Decidable condition]
    {yes no : EStateM ε σ α} (hyes : condition → wp yes ok err s)
    (hno : ¬ condition → wp no ok err s) :
    wp (if condition then yes else no) ok err s := by
  split
  · exact hyes ‹_›
  · exact hno ‹_›

section Steps

variable {action : EStateM ε σ α} {next : α → EStateM ε σ β} {ok : β → σ → Prop}

theorem wp_seq (h : wp action (fun a t => wp (next a) ok err t) err s) :
    wp (action >>= next) ok err s :=
  (wp_bind action next).mpr h

/-- A check that may fail. -/
theorem wp_check {next : Unit → EStateM ε σ β} {condition : Prop} [Decidable condition]
    {e : ε} (hfail : condition → err e s)
    (hpass : ¬ condition → wp (next ()) ok err s) :
    wp (rejectIf condition e >>= next) ok err s :=
  wp_seq ((wp_rejectIf condition e).mpr ⟨hfail, hpass⟩)

/-- A check known to pass. -/
theorem wp_passes {next : Unit → EStateM ε σ β} {condition : Prop} [Decidable condition]
    {e : ε} (hpass : ¬ condition) (h : wp (next ()) ok err s) :
    wp (rejectIf condition e >>= next) ok err s :=
  wp_check (fun hc => absurd hc hpass) (fun _ => h)

theorem wp_some {value : Option α} {a : α} {e : ε} (hvalue : value = some a)
    (h : wp (next a) ok err s) : wp (orReject value e >>= next) ok err s := by
  subst hvalue
  exact h

theorem wp_ofOk {value : Except ε α} {a : α} (hvalue : value = .ok a)
    (h : wp (next a) ok err s) : wp (fromExcept value >>= next) ok err s := by
  subst hvalue
  exact h

theorem wp_read {next : σ → EStateM ε σ β} (h : wp (next s) ok err s) :
    wp (get >>= next) ok err s := h

theorem wp_write {next : PUnit → EStateM ε σ β} {f : σ → σ}
    (h : wp (next ()) ok err (f s)) : wp (modify f >>= next) ok err s := h

/-- Running a step with a known outcome. -/
theorem wp_call {ok' : α → σ → Prop} {err' : ε → σ → Prop} (h : wp action ok' err' s)
    (hok : ∀ a t, ok' a t → wp (next a) ok err t) (herr : ∀ e t, err' e t → err e t) :
    wp (action >>= next) ok err s :=
  wp_seq (wp_mono h hok herr)

end Steps

/-- A pass over a list keeps an invariant indexed by what is left to visit. -/
theorem wp_forEach {ok : Unit → σ → Prop} (invariant : List β → σ → Prop)
    (body : β → EStateM ε σ Unit) (items : List β)
    (hstep : ∀ item rest t, invariant (item :: rest) t →
      wp (body item) (fun _ u => invariant rest u) err t)
    (hdone : ∀ t, invariant [] t → ok () t) (h : invariant items s) :
    wp (forEach items body) ok err s := by
  induction items generalizing s with
  | nil => exact hdone s h
  | cons item rest ih =>
      rw [forEach, wp_bind]
      exact wp_ok_mono (hstep item rest s h) (fun _ t ht => ih ht)

end Rules

end Riley.Outcome
