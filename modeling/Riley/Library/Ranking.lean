import Mathlib

/-!
Items ranked by a score: greater scores come first, and of equal scores the item
that comes first in its own order.
-/

namespace Riley.Ranking

variable {ι α β : Type} [LinearOrder ι] [LinearOrder α] [LinearOrder β]

def Ranks (score : ι → α) (first second : ι) : Prop :=
  score second < score first ∨ score second = score first ∧ first ≤ second

/-- The item of a list that no other ranks before. -/
def Leads (score : ι → α) (items : List ι) (leader : ι) : Prop :=
  leader ∈ items ∧ ∀ item ∈ items, Ranks score leader item

section Order

variable {score : ι → α} {first second third : ι}

theorem ranks_refl (score : ι → α) (item : ι) : Ranks score item item := .inr ⟨rfl, le_refl item⟩

theorem Ranks.trans (h : Ranks score first second) (h' : Ranks score second third) :
    Ranks score first third := by
  rcases h with hlt | ⟨heq, hle⟩
  · rcases h' with hlt' | ⟨heq', _⟩
    · exact .inl (lt_trans hlt' hlt)
    · exact .inl (heq' ▸ hlt)
  · rcases h' with hlt' | ⟨heq', hle'⟩
    · exact .inl (heq ▸ hlt')
    · exact .inr ⟨heq'.trans heq, le_trans hle hle'⟩

theorem ranks_total (score : ι → α) (first second : ι) :
    Ranks score first second ∨ Ranks score second first := by
  rcases lt_trichotomy (score first) (score second) with hlt | heq | hlt
  · exact .inr (.inl hlt)
  · rcases le_total first second with hle | hle
    · exact .inl (.inr ⟨heq.symm, hle⟩)
    · exact .inr (.inr ⟨heq, hle⟩)
  · exact .inl (.inl hlt)

theorem Ranks.antisymm (h : Ranks score first second) (h' : Ranks score second first) :
    first = second := by
  rcases h with hlt | ⟨heq, hle⟩
  · rcases h' with hlt' | ⟨heq', _⟩
    · exact absurd hlt (lt_asymm hlt')
    · exact absurd heq' (ne_of_gt hlt)
  · rcases h' with hlt' | ⟨_, hle'⟩
    · exact absurd heq (ne_of_gt hlt')
    · exact le_antisymm hle hle'

/-- There is one order of items in which each ranks before the later ones. -/
theorem eq_of_pairwise_ranks {items items' : List ι} (h : items.Pairwise (Ranks score))
    (h' : items'.Pairwise (Ranks score)) (hperm : items.Perm items') : items = items' :=
  hperm.eq_of_pairwise (fun _ _ _ _ hbefore hafter => hbefore.antisymm hafter) h h'

/-- Sorting by scores, greater ones first. -/
theorem pairwise_mergeSort_ranks (score : ι → α) (items : List ι) :
    (items.mergeSort fun left right =>
      decide (score right < score left) ||
        decide (score right = score left) && decide (left ≤ right)).Pairwise (Ranks score) := by
  have hranks : ∀ left right : ι, (decide (score right < score left) ||
      decide (score right = score left) && decide (left ≤ right)) = true ↔
        Ranks score left right := by
    intro left right
    rw [Bool.or_eq_true, Bool.and_eq_true, decide_eq_true_eq, decide_eq_true_eq,
      decide_eq_true_eq]
    exact Iff.rfl
  have hsorted := List.pairwise_mergeSort
    (fun first second third h h' =>
      (hranks first third).mpr (((hranks first second).mp h).trans ((hranks second third).mp h')))
    (fun first second => by
      rw [Bool.or_eq_true, hranks, hranks]
      exact ranks_total score first second) items
  exact hsorted.imp fun h => (hranks _ _).mp h

end Order

section Leads

variable {score : ι → α} {items : List ι} {leader other : ι}

theorem Leads.unique (h : Leads score items leader) (h' : Leads score items other) :
    leader = other :=
  (h.2 other h'.1).antisymm (h'.2 leader h.1)

/-- Scores in the same order have the same leader. -/
theorem Leads.of_order {score' : ι → β}
    (horder : ∀ first ∈ items, ∀ second ∈ items,
      (score first < score second ↔ score' first < score' second))
    (h : Leads score items leader) : Leads score' items leader := by
  refine ⟨h.1, ?_⟩
  intro item hitem
  rcases h.2 item hitem with hlt | ⟨heq, hle⟩
  · exact .inl ((horder item hitem leader h.1).mp hlt)
  · right
    refine ⟨?_, hle⟩
    apply le_antisymm
    · apply le_of_not_gt
      intro hlt
      exact ne_of_gt ((horder leader h.1 item hitem).mpr hlt) heq
    · apply le_of_not_gt
      intro hlt
      exact ne_of_lt ((horder item hitem leader h.1).mpr hlt) heq

/-- The first item of the greatest score. -/
theorem leads_of_find {greatest : α} {first : ι} (hsorted : items.Pairwise (· < ·))
    (hgreatest : ∀ item ∈ items, score item ≤ greatest)
    (h : items.find? (fun item => score item = greatest) = some first) :
    Leads score items first := by
  induction items with
  | nil => cases h
  | cons item items ih =>
      obtain ⟨hless, hsorted⟩ := List.pairwise_cons.mp hsorted
      rw [List.find?_cons] at h
      split at h
      · next hfound =>
          obtain rfl := Option.some.inj h
          have hscore : score item = greatest := of_decide_eq_true hfound
          refine ⟨List.mem_cons_self, ?_⟩
          intro other hother
          rcases lt_or_eq_of_le (hgreatest other hother) with hlt | heq
          · exact .inl (hscore ▸ hlt)
          · right
            refine ⟨heq.trans hscore.symm, ?_⟩
            rcases List.mem_cons.mp hother with rfl | hother
            · exact le_refl _
            · exact le_of_lt (hless other hother)
      · next hskip =>
          have hne : score item ≠ greatest := of_decide_eq_false hskip
          have hlead := ih hsorted (fun other hother =>
            hgreatest other (List.mem_cons_of_mem _ hother)) h
          refine ⟨List.mem_cons_of_mem _ hlead.1, ?_⟩
          intro other hother
          rcases List.mem_cons.mp hother with rfl | hother
          · have hscore : score first = greatest := by
              have hfound := List.find?_some h
              exact of_decide_eq_true hfound
            exact .inl (hscore ▸ lt_of_le_of_ne (hgreatest other List.mem_cons_self) hne)
          · exact hlead.2 other hother

/-- Keeping the better of two, item by item. -/
theorem leads_foldl {better : ι → ι → ι}
    (hbetter : ∀ first second, Leads score [first, second] (better first second))
    (first : ι) (items : List ι) : Leads score (first :: items) (items.foldl better first) := by
  induction items generalizing first with
  | nil =>
      refine ⟨List.mem_singleton_self first, ?_⟩
      intro item hitem
      rw [List.mem_singleton.mp hitem]
      exact ranks_refl score first
  | cons second items ih =>
      obtain ⟨hmem, hranks⟩ := ih (better first second)
      obtain ⟨hone, htwo⟩ := hbetter first second
      rw [List.foldl_cons]
      constructor
      · rcases List.mem_cons.mp hmem with heq | hmem
        · rw [heq]
          simp only [List.mem_cons, List.not_mem_nil, or_false] at hone ⊢
          tauto
        · exact List.mem_cons_of_mem _ (List.mem_cons_of_mem _ hmem)
      · intro item hitem
        have hbest := hranks _ List.mem_cons_self
        rcases List.mem_cons.mp hitem with rfl | hitem
        · exact hbest.trans (htwo item List.mem_cons_self)
        · rcases List.mem_cons.mp hitem with rfl | hitem
          · exact hbest.trans (htwo item (List.mem_cons_of_mem _ List.mem_cons_self))
          · exact hranks item (List.mem_cons_of_mem _ hitem)

end Leads

end Riley.Ranking
