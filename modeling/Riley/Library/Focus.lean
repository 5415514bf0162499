import Mathlib.Algebra.BigOperators.Group.Multiset.Basic
import Mathlib.Algebra.BigOperators.Group.List.Basic

/-!
Sums over a list of cells, seen from one of them: the cell is taken out, replaced or erased,
and the rest of the sum stays.
-/

namespace Riley.Focus

variable {α β : Type} [AddCommMonoid β]

/-- A sum over a list with one entry taken out, or replaced. -/
theorem sum_focus {list : List α} {index : Nat} {a : α} (h : list[index]? = some a)
    (f : α → β) : (list.map f).sum = f a + ((list.eraseIdx index).map f).sum := by
  obtain ⟨hlt, rfl⟩ := List.getElem?_eq_some_iff.mp h
  have hperm := (List.getElem_cons_eraseIdx_perm hlt).map f
  rw [← hperm.sum_eq, List.map_cons, List.sum_cons]

theorem sum_set {list : List α} {index : Nat} {a : α} (h : list[index]? = some a) (b : α)
    (f : α → β) :
    ((list.set index b).map f).sum = f b + ((list.eraseIdx index).map f).sum := by
  obtain ⟨hlt, rfl⟩ := List.getElem?_eq_some_iff.mp h
  have hset : (list.set index b)[index]? = some b := List.getElem?_set_self hlt
  rw [sum_focus hset, List.eraseIdx_set_eq]

theorem sum_erase [DecidableEq α] {list : List α} {a : α} (h : a ∈ list) (f : α → β) :
    (list.map f).sum = f a + ((list.erase a).map f).sum := by
  rw [((List.perm_cons_erase h).map f).sum_eq, List.map_cons, List.sum_cons]

theorem mem_sum_map {γ : Type} {list : List α} {f : α → Multiset γ} {c : γ} :
    c ∈ (list.map f).sum ↔ ∃ a ∈ list, c ∈ f a := by
  induction list with
  | nil => simp
  | cons a list ih =>
      rw [List.map_cons, List.sum_cons, Multiset.mem_add, ih]
      simp

/-- Replacing one entry moves the sum by the difference of the two. -/
theorem sum_replace {list : List α} {index : Nat} {a : α} (h : list[index]? = some a) (b : α)
    (f : α → β) :
    ((list.set index b).map f).sum + f a = (list.map f).sum + f b := by
  rw [sum_set h, sum_focus h, add_right_comm, add_assoc, add_comm (f a), add_comm (f b)]

/-- An entry that weighs the same, or a place past the end, leaves the sum. -/
theorem sum_replace_same (list : List α) (index : Nat) (b : α) (f : α → β)
    (hsame : ∀ a, list[index]? = some a → f b = f a) :
    ((list.set index b).map f).sum = (list.map f).sum := by
  rcases Nat.lt_or_ge index list.length with hlt | hge
  · have hget := List.getElem?_eq_getElem hlt
    rw [sum_set hget, sum_focus hget, hsame _ hget]
  · rw [List.set_eq_of_length_le hge]

end Riley.Focus
