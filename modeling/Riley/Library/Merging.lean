import Mathlib.Data.Nat.Find
import Mathlib.Tactic.Common

/-!
Merging neighbours by rank: of all neighbours with a rank, the first of the least
rank are joined, until no neighbours have one. An agenda gives up its least entry.
-/

namespace Riley.Merging

section Agenda

variable {β : Type} (le : β → β → Bool)

/-- The least entry of an agenda, and the others. -/
def popLeast : List β → Option (β × List β)
  | [] => none
  | first :: rest =>
      match popLeast rest with
      | none => some (first, [])
      | some (least, others) =>
          if le first least then some (first, rest) else some (least, first :: others)

variable {le}

theorem popLeast_perm {agenda others : List β} {least : β}
    (h : popLeast le agenda = some (least, others)) : agenda.Perm (least :: others) := by
  induction agenda generalizing least others with
  | nil => cases h
  | cons first rest ih =>
      unfold popLeast at h
      cases hrest : popLeast le rest with
      | none =>
          rw [hrest] at h
          cases h
          cases rest with
          | nil => exact List.Perm.refl _
          | cons second rest =>
              unfold popLeast at hrest
              split at hrest
              · cases hrest
              · split at hrest <;> cases hrest
      | some found =>
          obtain ⟨least', others'⟩ := found
          simp only [hrest] at h
          split at h
          · cases h
            exact List.Perm.refl _
          · cases h
            exact ((ih hrest).cons first).trans (List.Perm.swap _ _ _)

theorem popLeast_none {agenda : List β} (h : popLeast le agenda = none) : agenda = [] := by
  cases agenda with
  | nil => rfl
  | cons first rest =>
      unfold popLeast at h
      split at h
      · cases h
      · split at h <;> cases h

/-- The entry given up comes before every other. -/
theorem popLeast_le (hrefl : ∀ x, le x x = true)
    (htotal : ∀ x y, le x y = false → le y x = true)
    (htrans : ∀ x y z, le x y = true → le y z = true → le x z = true)
    {agenda others : List β} {least : β} (h : popLeast le agenda = some (least, others)) :
    ∀ entry ∈ agenda, le least entry = true := by
  induction agenda generalizing least others with
  | nil => cases h
  | cons first rest ih =>
      unfold popLeast at h
      cases hrest : popLeast le rest with
      | none =>
          rw [hrest] at h
          cases h
          rw [popLeast_none hrest]
          intro entry hentry
          rw [List.mem_singleton.mp hentry]
          exact hrefl first
      | some found =>
          obtain ⟨least', others'⟩ := found
          have hleast := ih hrest
          simp only [hrest] at h
          split at h
          · next hle =>
              cases h
              intro entry hentry
              rcases List.mem_cons.mp hentry with rfl | hentry
              · exact hrefl entry
              · exact htrans _ _ _ hle (hleast entry hentry)
          · next hle =>
              cases h
              intro entry hentry
              rcases List.mem_cons.mp hentry with rfl | hentry
              · exact htotal _ _ (Bool.not_eq_true _ ▸ hle)
              · exact hleast entry hentry

end Agenda

variable {α : Type} (rank : α → α → Option Nat) (join : α → α → α)

/-- The least rank of two neighbours. -/
def leastRank : List α → Option Nat
  | first :: second :: rest => (rank first second).merge min (leastRank (second :: rest))
  | _ => none

/-- Joins the first neighbours of a rank. -/
def joinFirst (least : Nat) : List α → List α
  | first :: second :: rest =>
      if rank first second = some least then join first second :: rest
      else first :: joinFirst least (second :: rest)
  | items => items

def joinAll : Nat → List α → List α
  | 0, items => items
  | fuel + 1, items =>
      match leastRank rank items with
      | none => items
      | some least => joinAll fuel (joinFirst rank join least items)

/-- What is left when no neighbours have a rank. -/
def merged (items : List α) : List α := joinAll rank join items.length items

section Least

variable {rank join}

theorem leastRank_le {items before after : List α} {first second : α} {found : Nat}
    (hsplit : items = before ++ first :: second :: after) (h : rank first second = some found) :
    ∃ least ≤ found, leastRank rank items = some least := by
  subst hsplit
  induction before with
  | nil =>
      rw [List.nil_append, leastRank, h]
      cases leastRank rank (second :: after) with
      | none => exact ⟨found, Nat.le_refl _, rfl⟩
      | some least => exact ⟨min found least, Nat.min_le_left _ _, rfl⟩
  | cons item before ih =>
      obtain ⟨least, hle, hleast⟩ := ih
      cases before with
      | nil =>
          rw [List.nil_append] at hleast
          rw [List.cons_append, List.nil_append, leastRank, hleast]
          cases rank item first with
          | none => exact ⟨least, hle, rfl⟩
          | some other =>
              exact ⟨min other least, Nat.le_trans (Nat.min_le_right _ _) hle, rfl⟩
      | cons next before =>
          rw [List.cons_append] at hleast
          rw [List.cons_append, List.cons_append, leastRank, hleast]
          cases rank item next with
          | none => exact ⟨least, hle, rfl⟩
          | some other =>
              exact ⟨min other least, Nat.le_trans (Nat.min_le_right _ _) hle, rfl⟩

theorem exists_of_leastRank {items : List α} {least : Nat}
    (h : leastRank rank items = some least) :
    ∃ before first second after, items = before ++ first :: second :: after ∧
      rank first second = some least := by
  induction items with
  | nil => cases h
  | cons first rest ih =>
      cases rest with
      | nil => cases h
      | cons second rest =>
          rw [leastRank] at h
          cases hfirst : rank first second with
          | none =>
              rw [hfirst] at h
              cases hrest : leastRank rank (second :: rest) with
              | none =>
                  rw [hrest] at h
                  cases h
              | some found =>
                  rw [hrest] at h
                  obtain rfl := Option.some.inj h
                  obtain ⟨before, left, right, after, heq, hrank⟩ := ih hrest
                  exact ⟨first :: before, left, right, after, by rw [heq]; rfl, hrank⟩
          | some here =>
              rw [hfirst] at h
              cases hrest : leastRank rank (second :: rest) with
              | none =>
                  rw [hrest] at h
                  obtain rfl := Option.some.inj h
                  exact ⟨[], first, second, rest, rfl, hfirst⟩
              | some found =>
                  rw [hrest] at h
                  obtain rfl := Option.some.inj h
                  rcases Nat.le_total here found with hle | hle
                  · rw [Nat.min_eq_left hle]
                    exact ⟨[], first, second, rest, rfl, hfirst⟩
                  · rw [Nat.min_eq_right hle] at ih ⊢
                    obtain ⟨before, left, right, after, heq, hrank⟩ := ih hrest
                    exact ⟨first :: before, left, right, after, by rw [heq]; rfl, hrank⟩

/-- The first neighbours of the rank are joined. -/
theorem joinFirst_split {before after : List α} {first second : α} {least : Nat}
    (h : rank first second = some least)
    (hearlier : ∀ before' left right after', before'.length < before.length →
      before ++ first :: second :: after = before' ++ left :: right :: after' →
        rank left right ≠ some least) :
    joinFirst rank join least (before ++ first :: second :: after) =
      before ++ join first second :: after := by
  induction before with
  | nil =>
      rw [List.nil_append, joinFirst, if_pos h]
      rfl
  | cons item before ih =>
      have hrest := ih (by
        intro before' left right after' hlt heq
        exact hearlier (item :: before') left right after' (Nat.succ_lt_succ hlt)
          (by rw [List.cons_append, heq]; rfl))
      cases before with
      | nil =>
          rw [List.nil_append] at hrest
          rw [List.cons_append, List.nil_append, joinFirst,
            if_neg (hearlier [] item first (second :: after) (Nat.succ_pos _) rfl), hrest]
          rfl
      | cons next before =>
          rw [List.cons_append] at hrest
          rw [List.cons_append, List.cons_append, joinFirst,
            if_neg (hearlier [] item next _ (Nat.succ_pos _) rfl), hrest]
          rfl

variable (join) in
theorem length_joinFirst {items : List α} {least : Nat}
    (h : leastRank rank items = some least) :
    (joinFirst rank join least items).length + 1 = items.length := by
  have hfind : ∀ before first second after, rank first second = some least →
      (joinFirst rank join least (before ++ first :: second :: after)).length + 1 =
        (before ++ first :: second :: after).length := by
    intro before first second after hrank
    induction before with
    | nil =>
        rw [List.nil_append, joinFirst, if_pos hrank]
        rfl
    | cons item before ih =>
        cases before with
        | nil =>
            rw [List.nil_append] at ih
            rw [List.cons_append, List.nil_append, joinFirst]
            split
            · rfl
            · rw [List.length_cons, ih]
              rfl
        | cons next before =>
            rw [List.cons_append] at ih
            rw [List.cons_append, List.cons_append, joinFirst]
            split
            · rfl
            · rw [List.length_cons, ih]
              rfl
  obtain ⟨before, first, second, after, rfl, hrank⟩ := exists_of_leastRank h
  exact hfind before first second after hrank

end Least

section Merged

variable {rank join}

theorem joinAll_enough (fuel : Nat) (items : List α) (hfuel : items.length ≤ fuel) :
    joinAll rank join fuel items = merged rank join items := by
  have hsame : ∀ fuel fuel' (items : List α), items.length ≤ fuel → items.length ≤ fuel' →
      joinAll rank join fuel items = joinAll rank join fuel' items := by
    intro fuel
    induction fuel with
    | zero =>
        intro fuel' items hzero _
        rw [List.eq_nil_of_length_eq_zero (Nat.le_zero.mp hzero)]
        cases fuel' <;> rfl
    | succ fuel ih =>
        intro fuel' items hle hle'
        cases fuel' with
        | zero =>
            rw [List.eq_nil_of_length_eq_zero (Nat.le_zero.mp hle')]
            rfl
        | succ fuel' =>
            unfold joinAll
            cases hleast : leastRank rank items with
            | none => rfl
            | some least =>
                have hlength := length_joinFirst join hleast
                exact ih fuel' _ (by omega) (by omega)
  exact hsame fuel items.length items hfuel (Nat.le_refl _)

/-- Nothing is joined where no neighbours have a rank. -/
theorem merged_of_none {items : List α}
    (h : ∀ before first second after, items = before ++ first :: second :: after →
      rank first second = none) : merged rank join items = items := by
  have hnone : leastRank rank items = none := by
    cases hleast : leastRank rank items with
    | none => rfl
    | some least =>
        obtain ⟨before, first, second, after, hsplit, hrank⟩ := exists_of_leastRank hleast
        rw [h before first second after hsplit] at hrank
        cases hrank
  unfold merged
  cases items with
  | nil => rfl
  | cons item items =>
      rw [List.length_cons, joinAll, hnone]

/-- Joining the first neighbours of the least rank leaves what is left in the end. -/
theorem merged_join {before after : List α} {first second : α} {least : Nat}
    (h : rank first second = some least)
    (hleast : ∀ before' left right after' found,
      before ++ first :: second :: after = before' ++ left :: right :: after' →
        rank left right = some found →
          least < found ∨ least = found ∧ before.length ≤ before'.length) :
    merged rank join (before ++ first :: second :: after) =
      merged rank join (before ++ join first second :: after) := by
  have hrank : leastRank rank (before ++ first :: second :: after) = some least := by
    obtain ⟨found, hle, hfound⟩ := leastRank_le rfl h
    obtain ⟨before', left, right, after', hsplit, hrank⟩ := exists_of_leastRank hfound
    have hge := hleast before' left right after' found hsplit hrank
    rw [hfound]
    congr 1
    omega
  have hjoin : joinFirst rank join least (before ++ first :: second :: after) =
      before ++ join first second :: after := by
    apply joinFirst_split h
    intro before' left right after' hlt hsplit hrank'
    have hge := hleast before' left right after' least hsplit hrank'
    omega
  have hlength : (before ++ first :: second :: after).length =
      (before ++ join first second :: after).length + 1 := by
    rw [List.length_append, List.length_append]
    rfl
  conv_lhs => rw [merged, hlength, joinAll, hrank]
  simp only [hjoin]
  exact joinAll_enough _ _ (Nat.le_refl _)

/-- What joining keeps, merging keeps. -/
theorem merged_keeps (kept : List α → Prop) {items : List α} (h : kept items)
    (hjoin : ∀ before first second after least, rank first second = some least →
      kept (before ++ first :: second :: after) → kept (before ++ join first second :: after)) :
    kept (merged rank join items) := by
  have hfirst : ∀ least before items, kept (before ++ items) →
      kept (before ++ joinFirst rank join least items) := by
    intro least before items
    induction items generalizing before with
    | nil => exact id
    | cons first rest ih =>
        intro hkept
        cases rest with
        | nil => exact hkept
        | cons second rest =>
            rw [joinFirst]
            split
            · next hrank => exact hjoin before first second rest least hrank hkept
            · have hmore := ih (before ++ [first]) (by rw [List.append_assoc]; exact hkept)
              rw [List.append_assoc] at hmore
              exact hmore
  have hall : ∀ fuel items, kept items → kept (joinAll rank join fuel items) := by
    intro fuel
    induction fuel with
    | zero => exact fun items => id
    | succ fuel ih =>
        intro items hkept
        unfold joinAll
        split
        · exact hkept
        · exact ih _ (hfirst _ [] items hkept)
  exact hall _ _ h

end Merged

section Merges

/-- What joining leaves, told without a count of steps: the neighbours joined are the
first of those of the least rank, and at the end no neighbours have a rank. -/
inductive Merges : List α → List α → Prop
  | done {items : List α}
      (h : ∀ before first second after, items = before ++ first :: second :: after →
        rank first second = none) : Merges items items
  | join {before after left : List α} {first second : α} {least : Nat}
      (hrank : rank first second = some least)
      (hleast : ∀ before' first' second' after' found,
        before ++ first :: second :: after = before' ++ first' :: second' :: after' →
          rank first' second' = some found →
            least < found ∨ least = found ∧ before.length ≤ before'.length)
      (h : Merges (before ++ join first second :: after) left) :
      Merges (before ++ first :: second :: after) left

variable {rank join}

theorem Merges.eq_merged {items left : List α} (h : Merges rank join items left) :
    left = merged rank join items := by
  induction h with
  | done hnone => exact (merged_of_none hnone).symm
  | join hrank hleast _ ih => exact ih.trans (merged_join hrank hleast).symm

/-- Where neighbours have a rank, some are the first of the least. -/
theorem exists_first {items : List α} {least : Nat} (h : leastRank rank items = some least) :
    ∃ before first second after, items = before ++ first :: second :: after ∧
      rank first second = some least ∧
      ∀ before' first' second' after' found, items = before' ++ first' :: second' :: after' →
        rank first' second' = some found →
          least < found ∨ least = found ∧ before.length ≤ before'.length := by
  classical
  have hsome : ∃ length before first second after, before.length = length ∧
      items = before ++ first :: second :: after ∧ rank first second = some least := by
    obtain ⟨before, first, second, after, hsplit, hrank⟩ := exists_of_leastRank h
    exact ⟨before.length, before, first, second, after, rfl, hsplit, hrank⟩
  obtain ⟨before, first, second, after, hlength, hsplit, hrank⟩ := Nat.find_spec hsome
  refine ⟨before, first, second, after, hsplit, hrank, ?_⟩
  intro before' first' second' after' found hsplit' hfound
  obtain ⟨other, hle, hother⟩ := leastRank_le hsplit' hfound
  rw [h] at hother
  obtain rfl := Option.some.inj hother
  rcases Nat.lt_or_eq_of_le hle with hlt | rfl
  · exact .inl hlt
  · right
    refine ⟨rfl, ?_⟩
    rw [hlength]
    exact Nat.find_min' hsome ⟨before', first', second', after', rfl, hsplit', hfound⟩

theorem merges_merged (items : List α) : Merges rank join items (merged rank join items) := by
  induction hlength : items.length generalizing items with
  | zero =>
      obtain rfl := List.eq_nil_of_length_eq_zero hlength
      apply Merges.done
      intro before first second after hsplit
      exact absurd hsplit.symm (List.append_ne_nil_of_right_ne_nil _ (List.cons_ne_nil _ _))
  | succ length ih =>
      cases hleast : leastRank rank items with
      | none =>
          have hnone : ∀ before first second after, items = before ++ first :: second :: after →
              rank first second = none := by
            intro before first second after hsplit
            cases hrank : rank first second with
            | none => rfl
            | some found =>
                obtain ⟨least, _, hsome⟩ := leastRank_le hsplit hrank
                rw [hleast] at hsome
                cases hsome
          rw [merged_of_none hnone]
          exact .done hnone
      | some least =>
          obtain ⟨before, first, second, after, rfl, hrank, hfirst⟩ := exists_first hleast
          rw [merged_join hrank hfirst]
          apply Merges.join hrank hfirst
          apply ih
          rw [List.length_append, List.length_cons, List.length_cons] at hlength
          rw [List.length_append, List.length_cons]
          omega

theorem merges_iff {items left : List α} :
    Merges rank join items left ↔ left = merged rank join items := by
  constructor
  · exact Merges.eq_merged
  · rintro rfl
    exact merges_merged items

end Merges

/-- Merging strings of characters keeps their text. -/
theorem flatten_merged {β : Type} {rank : List β → List β → Option Nat} (items : List (List β)) :
    (merged rank (· ++ ·) items).flatten = items.flatten := by
  apply merged_keeps (fun left => left.flatten = items.flatten) rfl
  intro before first second after least _ h
  rw [← h]
  simp

end Riley.Merging
