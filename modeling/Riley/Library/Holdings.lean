import Mathlib.Data.Multiset.Count
import Mathlib.Logic.Function.Basic
import Mathlib.Tactic.Common

/-!
Accounting for cells that are free, held by one owner, or shared by a counted
number of holders. The cells are one side of the books; the multisets of
exclusive and shared holds that the rest of a system keeps are the other.
`Accounts` says that the two sides agree. Every transition changes one cell
and moves the matching holds, so it composes with any holds kept elsewhere.
-/

namespace Riley.Holdings

variable {α κ : Type*}

inductive Cell (κ : Type*) where
  | free
  | exclusive (owner : κ)
  | shared (holders : Nat)

namespace Cell

def exclusiveHolds [DecidableEq κ] (k : κ) : Cell κ → Nat
  | exclusive owner => if owner = k then 1 else 0
  | _ => 0

def sharedHolders : Cell κ → Nat
  | shared holders => holders
  | _ => 0

end Cell

variable [DecidableEq α] [DecidableEq κ]

structure Accounts (cells : α → Cell κ) (exclusive : Multiset (α × κ))
    (shared : Multiset α) : Prop where
  exclusive_count : ∀ a k, exclusive.count (a, k) = (cells a).exclusiveHolds k
  shared_count : ∀ a, shared.count a = (cells a).sharedHolders
  shared_pos : ∀ a n, cells a = .shared n → 0 < n

namespace Accounts

variable {cells : α → Cell κ} {exclusive : Multiset (α × κ)} {shared : Multiset α}

theorem mem_exclusive (h : Accounts cells exclusive shared) {a : α} {k : κ} :
    (a, k) ∈ exclusive ↔ cells a = .exclusive k := by
  rw [← Multiset.one_le_count_iff_mem, h.exclusive_count]
  cases hcell : cells a with
  | free => simp [Cell.exclusiveHolds]
  | shared n => simp [Cell.exclusiveHolds]
  | exclusive owner =>
      by_cases hk : owner = k <;> simp [Cell.exclusiveHolds, hk]

theorem mem_shared (h : Accounts cells exclusive shared) {a : α} :
    a ∈ shared ↔ ∃ n, cells a = .shared n := by
  rw [← Multiset.one_le_count_iff_mem, h.shared_count]
  cases hcell : cells a with
  | free => simp [Cell.sharedHolders]
  | exclusive owner => simp [Cell.sharedHolders]
  | shared n =>
      have hpos := h.shared_pos a n hcell
      simp only [Cell.sharedHolders, Cell.shared.injEq, exists_eq', iff_true]
      exact hpos

theorem cell_of_exclusive {a : α} {k : κ}
    (h : Accounts cells ((a, k) ::ₘ exclusive) shared) : cells a = .exclusive k :=
  h.mem_exclusive.mp (Multiset.mem_cons_self _ _)

/-- The exact holder count of a cell that somebody shares. -/
theorem cell_of_shared {a : α} (h : Accounts cells exclusive (a ::ₘ shared)) :
    cells a = .shared (shared.count a + 1) := by
  obtain ⟨n, hcell⟩ := h.mem_shared.mp (Multiset.mem_cons_self a shared)
  have hcount := h.shared_count a
  rw [hcell, Multiset.count_cons_self] at hcount
  rw [hcell, hcount]
  rfl

theorem exclusive_nodup (h : Accounts cells exclusive shared) : exclusive.Nodup := by
  rw [Multiset.nodup_iff_count_le_one]
  rintro ⟨a, k⟩
  rw [h.exclusive_count]
  unfold Cell.exclusiveHolds
  split
  · split <;> omega
  · omega

theorem exclusive_unique (h : Accounts cells exclusive shared) {a : α} {k k' : κ}
    (hk : (a, k) ∈ exclusive) (hk' : (a, k') ∈ exclusive) : k = k' := by
  have hcell := h.mem_exclusive.mp hk
  rw [h.mem_exclusive.mp hk'] at hcell
  exact (Cell.exclusive.inj hcell).symm

theorem not_mem_shared_of_exclusive (h : Accounts cells exclusive shared) {a : α} {k : κ}
    (hk : (a, k) ∈ exclusive) : a ∉ shared := by
  intro hshared
  obtain ⟨n, hcell⟩ := h.mem_shared.mp hshared
  rw [h.mem_exclusive.mp hk] at hcell
  cases hcell

theorem congr {cells' : α → Cell κ} (h : Accounts cells exclusive shared)
    (hcells : ∀ a, cells' a = cells a) : Accounts cells' exclusive shared := by
  rwa [show cells' = cells from funext hcells]

theorem empty (hfree : ∀ a, cells a = .free) :
    Accounts cells (0 : Multiset (α × κ)) (0 : Multiset α) where
  exclusive_count a k := by simp [hfree a, Cell.exclusiveHolds]
  shared_count a := by simp [hfree a, Cell.sharedHolders]
  shared_pos a n hcell := by rw [hfree a] at hcell; cases hcell

/-- Only the books of the cell that changed have to be balanced again. -/
theorem update {exclusive' : Multiset (α × κ)} {shared' : Multiset α}
    (h : Accounts cells exclusive shared) (a : α) (c : Cell κ)
    (hexclusive : ∀ k, exclusive'.count (a, k) = c.exclusiveHolds k)
    (hshared : shared'.count a = c.sharedHolders)
    (hpos : ∀ n, c = .shared n → 0 < n)
    (hexclusiveOther : ∀ b k, b ≠ a → exclusive'.count (b, k) = exclusive.count (b, k))
    (hsharedOther : ∀ b, b ≠ a → shared'.count b = shared.count b) :
    Accounts (Function.update cells a c) exclusive' shared' := by
  constructor
  · intro b k
    by_cases hb : b = a
    · subst hb
      simpa using hexclusive k
    · rw [hexclusiveOther b k hb, Function.update_of_ne hb, h.exclusive_count]
  · intro b
    by_cases hb : b = a
    · subst hb
      simpa using hshared
    · rw [hsharedOther b hb, Function.update_of_ne hb, h.shared_count]
  · intro b n hcell
    by_cases hb : b = a
    · subst hb
      exact hpos n (by simpa using hcell)
    · exact h.shared_pos b n (by rwa [Function.update_of_ne hb] at hcell)

section Transitions

variable {a : α} {k : κ}

private theorem count_cons_exclusive (b : α) (k' : κ) (hb : b ≠ a) :
    ((a, k) ::ₘ exclusive).count (b, k') = exclusive.count (b, k') :=
  Multiset.count_cons_of_ne (by simp [hb]) _

private theorem exclusive_rest (h : Accounts cells ((a, k) ::ₘ exclusive) shared)
    (k' : κ) : exclusive.count (a, k') = 0 := by
  have hcount := h.exclusive_count a k'
  rw [h.cell_of_exclusive, Multiset.count_cons] at hcount
  by_cases hk : k = k'
  · subst hk
    simpa [Cell.exclusiveHolds] using hcount
  · simpa [Cell.exclusiveHolds, hk, Ne.symm hk] using hcount

private theorem exclusive_none (h : Accounts cells exclusive shared)
    (hcell : ∀ k, cells a ≠ .exclusive k) (k' : κ) : exclusive.count (a, k') = 0 :=
  Multiset.count_eq_zero.mpr fun hmem => hcell k' (h.mem_exclusive.mp hmem)

/-- A free cell goes to one owner. -/
theorem claim (h : Accounts cells exclusive shared) (k : κ) (hfree : cells a = .free) :
    Accounts (Function.update cells a (.exclusive k)) ((a, k) ::ₘ exclusive) shared := by
  have hnone := h.exclusive_none (a := a) (by simp [hfree])
  refine h.update a _ ?_ ?_ (by simp) (fun b k' hb => count_cons_exclusive b k' hb)
    (fun _ _ => rfl)
  · intro k'
    rw [Multiset.count_cons, hnone k']
    by_cases hk : k = k'
    · simp [Cell.exclusiveHolds, hk]
    · simp [Cell.exclusiveHolds, hk, Ne.symm hk]
  · rw [h.shared_count, hfree]
    rfl

/-- The only owner of a cell gives it up. -/
theorem retire (h : Accounts cells ((a, k) ::ₘ exclusive) shared) :
    Accounts (Function.update cells a .free) exclusive shared := by
  refine h.update a _ (h.exclusive_rest) ?_ (by simp)
    (fun b k' hb => (count_cons_exclusive b k' hb).symm) (fun _ _ => rfl)
  rw [h.shared_count, h.cell_of_exclusive]
  rfl

/-- The only owner turns its hold into two shared ones. -/
theorem publish (h : Accounts cells ((a, k) ::ₘ exclusive) shared) :
    Accounts (Function.update cells a (.shared 2)) exclusive (a ::ₘ a ::ₘ shared) := by
  refine h.update a _ (h.exclusive_rest) ?_ (by simp)
    (fun b k' hb => (count_cons_exclusive b k' hb).symm) ?_
  · rw [Multiset.count_cons_self, Multiset.count_cons_self, h.shared_count,
      h.cell_of_exclusive]
    rfl
  · intro b hb
    rw [Multiset.count_cons_of_ne hb, Multiset.count_cons_of_ne hb]

/-- One more holder of a shared cell. -/
theorem borrow {n : Nat} (h : Accounts cells exclusive shared)
    (hcell : cells a = .shared n) :
    Accounts (Function.update cells a (.shared (n + 1))) exclusive (a ::ₘ shared) := by
  refine h.update a _ (h.exclusive_none (by simp [hcell])) ?_ (by simp)
    (fun _ _ _ => rfl) (fun b hb => Multiset.count_cons_of_ne hb _)
  rw [Multiset.count_cons_self, h.shared_count, hcell]
  rfl

/-- One of several holders gives its hold up. -/
theorem giveBack {n : Nat} (h : Accounts cells exclusive (a ::ₘ shared))
    (hcell : cells a = .shared (n + 1)) (hn : 0 < n) :
    Accounts (Function.update cells a (.shared n)) exclusive shared := by
  refine h.update a _ (h.exclusive_none (by simp [hcell])) ?_
    (fun m hm => by cases hm; exact hn) (fun _ _ _ => rfl)
    (fun b hb => (Multiset.count_cons_of_ne hb _).symm)
  have hcount := h.shared_count a
  rw [Multiset.count_cons_self, hcell] at hcount
  exact Nat.succ.inj hcount

/-- The last holder of a shared cell gives it up. -/
theorem giveBackLast (h : Accounts cells exclusive (a ::ₘ shared))
    (hcell : cells a = .shared 1) :
    Accounts (Function.update cells a .free) exclusive shared := by
  refine h.update a _ (h.exclusive_none (by simp [hcell])) ?_ (by simp)
    (fun _ _ _ => rfl) (fun b hb => (Multiset.count_cons_of_ne hb _).symm)
  have hcount := h.shared_count a
  rw [Multiset.count_cons_self, hcell] at hcount
  exact Nat.succ.inj hcount

end Transitions

end Accounts

end Riley.Holdings
