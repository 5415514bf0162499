import Riley.Library.Outcome

/-!
Two runs side by side. They agree when both fail, or when both end and their results
and final states stand in a relation; what a failed run leaves behind is not compared.
-/

namespace Riley.Outcome

variable {ε ε' σ τ α α' β β' : Type}

inductive Paired (agree : α → σ → α' → τ → Prop) (left : EStateM ε σ α)
    (right : EStateM ε' τ α') (s : σ) (t : τ) : Prop
  | both {a : α} {s' : σ} {b : α'} {t' : τ} (hleft : left s = .ok a s')
      (hright : right t = .ok b t') (h : agree a s' b t')
  | neither {e : ε} {s' : σ} {e' : ε'} {t' : τ} (hleft : left s = .error e s')
      (hright : right t = .error e' t')

/-- An action that does not end in a result. -/
def Fails (action : EStateM ε σ α) (s : σ) : Prop := wp action (fun _ _ => False) (fun _ _ => True) s

section Rules

variable {agree : α → σ → α' → τ → Prop} {agree' : β → σ → β' → τ → Prop}
  {left : EStateM ε σ α} {right : EStateM ε' τ α'} {next : α → EStateM ε σ β}
  {next' : α' → EStateM ε' τ β'} {s s' : σ} {t t' : τ} {a : α} {b : α'}

theorem paired_congr {left' : EStateM ε σ α} {right' : EStateM ε' τ α'} {s' : σ} {t' : τ}
    (hleft : left s = left' s') (hright : right t = right' t')
    (h : Paired agree left' right' s' t') : Paired agree left right s t := by
  cases h with
  | both hleft' hright' h => exact .both (hleft.trans hleft') (hright.trans hright') h
  | neither hleft' hright' => exact .neither (hleft.trans hleft') (hright.trans hright')

theorem paired_pure (h : agree a s b t) :
    Paired agree (pure a : EStateM ε σ α) (pure b : EStateM ε' τ α') s t := .both rfl rfl h

theorem Fails.error (h : Fails left s) : ∃ e s', left s = .error e s' := by
  cases hl : left s with
  | ok a s' => exact ((wp_elim h).1 a s' hl).elim
  | error e s' => exact ⟨e, s', rfl⟩

theorem Fails.paired (hleft : Fails left s) (hright : Fails right t) :
    Paired agree left right s t := by
  obtain ⟨e, s', hl⟩ := hleft.error
  obtain ⟨e', t', hr⟩ := hright.error
  exact .neither hl hr

theorem fails_throw (e : ε) : Fails (throw e : EStateM ε σ α) s := trivial

/-- Where the first action fails, so does what it begins. -/
theorem Fails.seq (h : Fails left s) : Fails (left >>= next) s :=
  wp_call h (fun _ _ h => h.elim) fun _ _ _ => trivial

/-- Whatever the first action leaves, the next one fails. -/
theorem fails_after {kept : α → σ → Prop} (h : wp left kept (fun _ _ => True) s)
    (hnext : ∀ a s', kept a s' → Fails (next a) s') : Fails (left >>= next) s :=
  wp_call h hnext fun _ _ _ => trivial

theorem Paired.mono {weaker : α → σ → α' → τ → Prop} (h : Paired agree left right s t)
    (hweaker : ∀ a s' b t', agree a s' b t' → weaker a s' b t') :
    Paired weaker left right s t := by
  cases h with
  | both hleft hright h => exact .both hleft hright (hweaker _ _ _ _ h)
  | neither hleft hright => exact .neither hleft hright

theorem seq_ok (hleft : left s = .ok a s') : (left >>= next) s = next a s' := by
  show EStateM.bind left next s = _
  rw [EStateM.bind, hleft]

theorem seq_error {e : ε} (hleft : left s = .error e s') : (left >>= next) s = .error e s' := by
  show EStateM.bind left next s = _
  rw [EStateM.bind, hleft]

theorem Paired.bind (h : Paired agree left right s t)
    (hnext : ∀ a s' b t', agree a s' b t' → Paired agree' (next a) (next' b) s' t') :
    Paired agree' (left >>= next) (right >>= next') s t := by
  cases h with
  | both hleft hright h =>
      exact paired_congr (seq_ok hleft) (seq_ok hright) (hnext _ _ _ _ h)
  | neither hleft hright => exact .neither (seq_error hleft) (seq_error hright)

theorem seq_get {next : σ → EStateM ε σ β} : (get >>= next) s = next s s := rfl

/-- The first action of one side runs alone. -/
theorem paired_left {other : EStateM ε' τ β'} (hleft : left s = .ok a s')
    (h : Paired agree' (next a) other s' t) : Paired agree' (left >>= next) other s t :=
  paired_congr (seq_ok hleft) rfl h

theorem paired_right {other : EStateM ε σ β} (hright : right t = .ok b t')
    (h : Paired agree' other (next' b) s t') : Paired agree' other (right >>= next') s t :=
  paired_congr rfl (seq_ok hright) h

theorem paired_orReject {value : Option α} {value' : Option α'} {e : ε} {e' : ε'}
    (h : value = none ∧ value' = none ∨
      ∃ a b, value = some a ∧ value' = some b ∧ agree a s b t) :
    Paired agree (orReject value e) (orReject value' e') s t := by
  rcases h with ⟨rfl, rfl⟩ | ⟨a, b, rfl, rfl, h⟩
  · exact (fails_throw e).paired (fails_throw e')
  · exact paired_pure h

theorem paired_rejectIf {condition : Prop} [Decidable condition] {e : ε} {e' : ε'}
    {agree : Unit → σ → Unit → τ → Prop} (h : ¬ condition → agree () s () t) :
    Paired agree (rejectIf condition e) (rejectIf condition e') s t := by
  unfold rejectIf
  by_cases hcondition : condition
  · rw [if_pos hcondition, if_pos hcondition]
    exact (fails_throw e).paired (fails_throw e')
  · rw [if_neg hcondition, if_neg hcondition]
    exact paired_pure (h hcondition)

theorem paired_forEach {items : List α} {body : α → EStateM ε σ Unit}
    {body' : α → EStateM ε' τ Unit} {invariant : σ → τ → Prop}
    (hbody : ∀ item ∈ items, ∀ s t, invariant s t →
      Paired (fun _ s' _ t' => invariant s' t') (body item) (body' item) s t)
    (h : invariant s t) :
    Paired (fun _ s' _ t' => invariant s' t') (forEach items body) (forEach items body') s t := by
  induction items generalizing s t with
  | nil => exact paired_pure h
  | cons item rest ih =>
      apply Paired.bind (hbody item List.mem_cons_self s t h)
      intro _ s' _ t' hinvariant
      exact ih (fun other hother => hbody other (List.mem_cons_of_mem _ hother)) hinvariant

end Rules

end Riley.Outcome
