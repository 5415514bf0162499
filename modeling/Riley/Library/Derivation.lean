import Mathlib.Data.List.Basic
import Mathlib.Logic.Relation
import Mathlib.Tactic.Common

/-!
Leftmost derivations of a rewriting system. A form is a list of elements; the
first element either consumes one token or is replaced by one of its bodies.
The words that a form derives are the language a stack machine accepts when it
keeps the form as its stack.
-/

namespace Riley.Derivation

variable {ε τ : Type*}

inductive Derives (consumes : ε → τ → Prop) (expands : ε → List ε → Prop) :
    List ε → List τ → Prop
  | nil : Derives consumes expands [] []
  | consume {element : ε} {token : τ} {rest : List ε} {word : List τ} :
      consumes element token → Derives consumes expands rest word →
      Derives consumes expands (element :: rest) (token :: word)
  | expand {element : ε} {body rest : List ε} {word : List τ} :
      expands element body → Derives consumes expands (body ++ rest) word →
      Derives consumes expands (element :: rest) word

section Rules

variable {consumes : ε → τ → Prop} {expands : ε → List ε → Prop}

theorem derives_nil {word : List τ} :
    Derives consumes expands [] word ↔ word = [] := by
  constructor
  · intro h
    cases h
    rfl
  · rintro rfl
    exact Derives.nil

theorem derives_cons {element : ε} {rest : List ε} {word : List τ} :
    Derives consumes expands (element :: rest) word ↔
      (∃ token tail, word = token :: tail ∧ consumes element token ∧
        Derives consumes expands rest tail) ∨
      ∃ body, expands element body ∧ Derives consumes expands (body ++ rest) word := by
  constructor
  · intro h
    cases h with
    | consume hconsumes hrest => exact Or.inl ⟨_, _, rfl, hconsumes, hrest⟩
    | expand hexpands hbody => exact Or.inr ⟨_, hexpands, hbody⟩
  · rintro (⟨token, tail, rfl, hconsumes, hrest⟩ | ⟨body, hexpands, hbody⟩)
    · exact Derives.consume hconsumes hrest
    · exact Derives.expand hexpands hbody

/-- An element that is never replaced derives by consuming. -/
theorem derives_token {element : ε} {rest : List ε} {word : List τ}
    (hfixed : ∀ body, ¬ expands element body) :
    Derives consumes expands (element :: rest) word ↔
      ∃ token tail, word = token :: tail ∧ consumes element token ∧
        Derives consumes expands rest tail := by
  rw [derives_cons]
  constructor
  · rintro (h | ⟨body, hbody, _⟩)
    · exact h
    · exact absurd hbody (hfixed body)
  · exact Or.inl

/-- An element that never consumes derives through one of its bodies. -/
theorem derives_body {element : ε} {rest : List ε} {word : List τ}
    (hsilent : ∀ token, ¬ consumes element token) :
    Derives consumes expands (element :: rest) word ↔
      ∃ body, expands element body ∧ Derives consumes expands (body ++ rest) word := by
  rw [derives_cons]
  constructor
  · rintro (⟨token, _, _, htoken, _⟩ | h)
    · exact absurd htoken (hsilent token)
    · exact h
  · exact Or.inr

theorem Derives.append {first second : List ε} {left right : List τ}
    (hfirst : Derives consumes expands first left)
    (hsecond : Derives consumes expands second right) :
    Derives consumes expands (first ++ second) (left ++ right) := by
  induction hfirst with
  | nil => exact hsecond
  | consume hconsumes _ ih => exact Derives.consume hconsumes ih
  | expand hexpands _ ih =>
      rw [List.append_assoc] at ih
      exact Derives.expand hexpands ih

/-- A word of a concatenation splits into words of the two parts. -/
theorem Derives.split {first second : List ε} {word : List τ}
    (h : Derives consumes expands (first ++ second) word) :
    ∃ left right, word = left ++ right ∧ Derives consumes expands first left ∧
      Derives consumes expands second right := by
  generalize hform : first ++ second = form at h
  induction h generalizing first with
  | nil =>
      obtain ⟨rfl, rfl⟩ := List.append_eq_nil_iff.mp hform
      exact ⟨[], [], rfl, Derives.nil, Derives.nil⟩
  | @consume element token rest word hconsumes hrest ih =>
      cases first with
      | nil =>
          rw [List.nil_append] at hform
          rw [hform]
          exact ⟨[], _, rfl, Derives.nil, Derives.consume hconsumes hrest⟩
      | cons head tail =>
          obtain ⟨rfl, htail⟩ := List.cons.inj hform
          obtain ⟨left, right, rfl, hleft, hright⟩ := ih htail
          exact ⟨token :: left, right, rfl, Derives.consume hconsumes hleft, hright⟩
  | @expand element body rest word hexpands hbody ih =>
      cases first with
      | nil =>
          rw [List.nil_append] at hform
          rw [hform]
          exact ⟨[], word, rfl, Derives.nil, Derives.expand hexpands hbody⟩
      | cons head tail =>
          obtain ⟨rfl, htail⟩ := List.cons.inj hform
          have hsplit : (body ++ tail) ++ second = body ++ rest := by
            rw [List.append_assoc]
            exact congrArg (body ++ ·) htail
          obtain ⟨left, right, rfl, hleft, hright⟩ := ih hsplit
          exact ⟨left, right, rfl, Derives.expand hexpands hleft, hright⟩

/-- A form derives some word when each of its elements does. -/
theorem exists_derives {form : List ε}
    (h : ∀ element ∈ form, ∃ word, Derives consumes expands [element] word) :
    ∃ word, Derives consumes expands form word := by
  induction form with
  | nil => exact ⟨[], Derives.nil⟩
  | cons element rest ih =>
      obtain ⟨left, hleft⟩ := h element List.mem_cons_self
      obtain ⟨right, hright⟩ := ih fun other hother => h other (List.mem_cons_of_mem _ hother)
      exact ⟨left ++ right, hleft.append hright⟩

end Rules

section Leftmost

variable {expands : ε → List ε → Prop}

/-- The first element of a form is replaced by one of its bodies. -/
inductive LeftStep (expands : ε → List ε → Prop) : List ε → List ε → Prop
  | expand {element : ε} {body : List ε} (rest : List ε) :
      expands element body → LeftStep expands (element :: rest) (body ++ rest)

abbrev Leftmost (expands : ε → List ε → Prop) : List ε → List ε → Prop :=
  Relation.ReflTransGen (LeftStep expands)

theorem LeftStep.append {form form' : List ε} (h : LeftStep expands form form') (rest : List ε) :
    LeftStep expands (form ++ rest) (form' ++ rest) := by
  cases h with
  | expand tail hexpands =>
      rw [List.append_assoc]
      exact LeftStep.expand (tail ++ rest) hexpands

theorem Leftmost.append {form form' : List ε} (h : Leftmost expands form form')
    (rest : List ε) : Leftmost expands (form ++ rest) (form' ++ rest) := by
  induction h with
  | refl => exact .refl
  | tail _ hstep ih => exact ih.tail (hstep.append rest)

end Leftmost

end Riley.Derivation
