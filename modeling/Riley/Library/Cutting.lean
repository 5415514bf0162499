import Mathlib.Tactic.Common

/-!
Cutting a list at the words of a dictionary: the word that begins first is cut
out, the longest where several begin together, and cutting goes on behind it. This
is the one way to read the words of a list from the left.
-/

namespace Riley.Cutting

variable {α : Type}

/-- What cutting leaves: the words cut out, and what stands between them. -/
inductive Segment (α : Type)
  | between (items : List α)
  | word (items : List α)
  deriving DecidableEq, Repr

def Segment.items : Segment α → List α
  | .between items => items
  | .word items => items

def Segment.map {β : Type} (f : List α → List β) : Segment α → Segment β
  | .between items => .between (f items)
  | .word items => .word (f items)

/-- The word is the longest one that the list begins with. -/
structure LongestOf (words : List (List α)) (items : List α) (best : Option (List α)) :
    Prop where
  found : ∀ word, best = some word → word ∈ words ∧ word <+: items
  most : ∀ word ∈ words, word <+: items →
    ∃ longest, best = some longest ∧ word.length ≤ longest.length

section Cut

variable [DecidableEq α]

/-- The longest word that a list begins with. -/
def longest : List (List α) → List α → Option (List α)
  | [], _ => none
  | word :: words, items =>
      if word.isPrefixOf items && (longest words items).all (·.length < word.length) then some word
      else longest words items

/-- What stands before the first word, that word, and what follows it. -/
def firstWord (words : List (List α)) : List α → Option (List α × List α × List α)
  | [] => none
  | item :: items =>
      match longest words (item :: items) with
      | some word => some ([], word, (item :: items).drop word.length)
      | none =>
          (firstWord words items).map fun (before, word, after) => (item :: before, word, after)

def cutWith (words : List (List α)) : Nat → List α → List (Segment α)
  | 0, _ => []
  | _ + 1, [] => []
  | fuel + 1, items =>
      match firstWord words items with
      | none => [.between items]
      | some (before, word, after) => .between before :: .word word :: cutWith words fuel after

def cut (words : List (List α)) (items : List α) : List (Segment α) :=
  cutWith words items.length items

end Cut

section Longest

variable [DecidableEq α]

theorem longest_spec (words : List (List α)) (items : List α) :
    LongestOf words items (longest words items) := by
  induction words with
  | nil =>
      apply LongestOf.mk
      · intro word h
        cases h
      · intro word hmem
        exact absurd hmem List.not_mem_nil
  | cons first words ih =>
      unfold longest
      split
      · next htest =>
          rw [Bool.and_eq_true, List.isPrefixOf_iff_prefix] at htest
          apply LongestOf.mk
          · intro word heq
            cases heq
            exact ⟨List.mem_cons_self, htest.1⟩
          · intro word hmem hbegins
            refine ⟨first, rfl, ?_⟩
            rcases List.mem_cons.mp hmem with rfl | hmem
            · exact Nat.le_refl _
            · obtain ⟨longest, heq, hle⟩ := ih.most word hmem hbegins
              have hlt := htest.2
              rw [heq, Option.all_some, decide_eq_true_eq] at hlt
              exact Nat.le_trans hle (Nat.le_of_lt hlt)
      · next htest =>
          apply LongestOf.mk
          · intro word heq
            obtain ⟨hmem, hbegins⟩ := ih.found word heq
            exact ⟨List.mem_cons_of_mem _ hmem, hbegins⟩
          · intro word hmem hbegins
            rcases List.mem_cons.mp hmem with rfl | hmem
            · cases hbest : longest words items with
              | none =>
                  rw [hbest, List.isPrefixOf_iff_prefix.mpr hbegins] at htest
                  exact absurd rfl htest
              | some longest =>
                  rw [hbest, List.isPrefixOf_iff_prefix.mpr hbegins, Bool.true_and,
                    Option.all_some, decide_eq_true_eq] at htest
                  exact ⟨longest, rfl, Nat.le_of_not_lt htest⟩
            · exact ih.most word hmem hbegins

theorem firstWord_split {words : List (List α)} {items before word after : List α}
    (h : firstWord words items = some (before, word, after)) :
    items = before ++ (word ++ after) ∧ word ∈ words := by
  induction items generalizing before with
  | nil => cases h
  | cons item items ih =>
      unfold firstWord at h
      cases hlongest : longest words (item :: items) with
      | some found =>
          rw [hlongest] at h
          cases h
          obtain ⟨hmem, rest, hbegins⟩ := (longest_spec words _).found _ hlongest
          constructor
          · rw [← hbegins, List.drop_left, List.nil_append]
          · exact hmem
      | none =>
          rw [hlongest] at h
          obtain ⟨⟨before', word', after'⟩, hrest, heq⟩ := Option.map_eq_some_iff.mp h
          cases heq
          obtain ⟨rfl, hmem⟩ := ih hrest
          exact ⟨rfl, hmem⟩

/-- Before the first word, none begins. -/
theorem firstWord_before {words : List (List α)} {items before rest word : List α}
    (hsplit : items = before ++ rest) (hne : rest ≠ []) (hmem : word ∈ words)
    (hbegins : word <+: rest) :
    ∃ before' found after, firstWord words items = some (before', found, after) ∧
      before'.length ≤ before.length := by
  subst hsplit
  induction before with
  | nil =>
      cases rest with
      | nil => exact absurd rfl hne
      | cons item rest =>
          obtain ⟨longest, hlongest, _⟩ := (longest_spec words _).most word hmem hbegins
          refine ⟨[], longest, (item :: rest).drop longest.length, ?_, Nat.le_refl _⟩
          simp only [List.nil_append, firstWord, hlongest]
  | cons item before ih =>
      obtain ⟨before', found, after, hfirst, hle⟩ := ih
      simp only [List.cons_append, firstWord]
      split
      · exact ⟨[], _, _, rfl, Nat.zero_le _⟩
      · rw [hfirst]
        exact ⟨item :: before', found, after, rfl, Nat.succ_le_succ hle⟩

/-- No word stands in what is left before the first word, nor in a list without one. -/
theorem not_infix_between {words : List (List α)} (hwords : [] ∉ words) {items between word : List α}
    (h : firstWord words items = none ∧ between = items ∨
      ∃ found after, firstWord words items = some (between, found, after))
    (hmem : word ∈ words) : ¬ word <:+: between := by
  rintro ⟨before, rest, rfl⟩
  have hne : word ≠ [] := by
    rintro rfl
    exact hwords hmem
  cases h with
  | inl hnone =>
      obtain ⟨hfirst, rfl⟩ := hnone
      obtain ⟨_, _, _, hfound, _⟩ := firstWord_before (List.append_assoc before word rest)
        (by simp [hne]) hmem (List.prefix_append word rest)
      rw [hfirst] at hfound
      cases hfound
  | inr hsome =>
      obtain ⟨found, after, hfirst⟩ := hsome
      obtain ⟨hsplit, _⟩ := firstWord_split hfirst
      rw [List.append_assoc, List.append_assoc] at hsplit
      obtain ⟨_, _, _, hfound, hle⟩ := firstWord_before hsplit (by simp [hne]) hmem
        (List.prefix_append word _)
      rw [hfirst] at hfound
      cases hfound
      simp only [List.length_append] at hle
      have hpos := List.length_pos_iff.mpr hne
      omega

end Longest

section Parts

variable [DecidableEq α] {words : List (List α)}

theorem cutWith_none {fuel : Nat} {items : List α} (hne : items ≠ [])
    (h : firstWord words items = none) : cutWith words (fuel + 1) items = [.between items] := by
  cases items with
  | nil => exact absurd rfl hne
  | cons item items => simp only [cutWith, h]

theorem cutWith_some {fuel : Nat} {items before word after : List α}
    (h : firstWord words items = some (before, word, after)) :
    cutWith words (fuel + 1) items = .between before :: .word word :: cutWith words fuel after := by
  cases items with
  | nil => cases h
  | cons item items => simp only [cutWith, h]

/-- What follows the first word is shorter than the whole. -/
theorem length_after_lt (hwords : [] ∉ words) {items before word after : List α}
    (h : firstWord words items = some (before, word, after)) : after.length < items.length := by
  obtain ⟨rfl, hmem⟩ := firstWord_split h
  have hpos : 0 < word.length := by
    apply List.length_pos_iff.mpr
    rintro rfl
    exact hwords hmem
  rw [List.length_append, List.length_append]
  omega

/-- The parts of a list are the list. -/
theorem flatMap_cutWith (hwords : [] ∉ words) (fuel : Nat) (items : List α)
    (hfuel : items.length ≤ fuel) : (cutWith words fuel items).flatMap Segment.items = items := by
  induction fuel generalizing items with
  | zero =>
      rw [List.eq_nil_of_length_eq_zero (Nat.le_zero.mp hfuel)]
      rfl
  | succ fuel ih =>
      cases items with
      | nil => rfl
      | cons item items =>
          cases hfirst : firstWord words (item :: items) with
          | none =>
              rw [cutWith_none (List.cons_ne_nil _ _) hfirst]
              exact List.append_nil _
          | some found =>
              obtain ⟨before, word, after⟩ := found
              have hlt := length_after_lt hwords hfirst
              obtain ⟨hsplit, _⟩ := firstWord_split hfirst
              rw [cutWith_some hfirst, List.flatMap_cons, List.flatMap_cons, ih after (by omega),
                hsplit]
              rfl

theorem flatMap_cut (hwords : [] ∉ words) (items : List α) :
    (cut words items).flatMap Segment.items = items :=
  flatMap_cutWith hwords _ _ (Nat.le_refl _)

end Parts

section Leftmost

/-- The words of a dictionary as they are read from the left: every one begins where the first
of them does behind the word before it, and is the longest that begins there. -/
inductive Leftmost (words : List (List α)) : List α → List (Segment α) → Prop
  | nil : Leftmost words [] []
  | last {items : List α} (hne : items ≠ [])
      (hnone : ∀ start < items.length, ∀ word ∈ words, ¬ word <+: items.drop start) :
      Leftmost words items [.between items]
  | word {before word after : List α} {parts : List (Segment α)} (hmem : word ∈ words)
      (hfirst : ∀ start < before.length, ∀ other ∈ words,
        ¬ other <+: (before ++ (word ++ after)).drop start)
      (hlongest : ∀ other ∈ words, other <+: word ++ after → other.length ≤ word.length)
      (hafter : Leftmost words after parts) :
      Leftmost words (before ++ (word ++ after)) (.between before :: .word word :: parts)

variable {words words' : List (List α)} {items : List α} {parts parts' : List (Segment α)}

/-- The parts of a list are the list. -/
theorem Leftmost.flatMap_items (h : Leftmost words items parts) :
    parts.flatMap Segment.items = items := by
  induction h with
  | nil => rfl
  | last _ _ => exact List.append_nil _
  | word _ _ _ _ ih => rw [List.flatMap_cons, List.flatMap_cons, ih]; rfl

/-- No word stands between the words. -/
theorem Leftmost.not_infix (hwords : [] ∉ words) (h : Leftmost words items parts)
    {between word : List α} (hbetween : .between between ∈ parts) (hmem : word ∈ words) :
    ¬ word <:+: between := by
  rintro ⟨lead, rest, rfl⟩
  have hpos : 0 < word.length := by
    apply List.length_pos_iff.mpr
    rintro rfl
    exact hwords hmem
  induction h with
  | nil => cases hbetween
  | @last items _ hnone =>
      simp only [List.mem_singleton, Segment.between.injEq] at hbetween
      subst hbetween
      refine hnone lead.length ?_ word hmem ?_
      · simp only [List.length_append]
        omega
      · rw [List.append_assoc, List.drop_left]
        exact List.prefix_append _ _
  | @word before found after parts _ hfirst _ _ ih =>
      simp only [List.mem_cons, reduceCtorEq, Segment.between.injEq, false_or] at hbetween
      rcases hbetween with rfl | hbetween
      · refine hfirst lead.length ?_ word hmem ?_
        · simp only [List.length_append]
          omega
        · rw [List.append_assoc, List.append_assoc, List.drop_left]
          exact List.prefix_append _ _
      · exact ih hbetween

/-- A list is cut in one way. -/
theorem Leftmost.unique (hwords : [] ∉ words) (h : Leftmost words items parts)
    (h' : Leftmost words items parts') : parts = parts' := by
  have hpos : ∀ {word : List α}, word ∈ words → 0 < word.length := by
    intro word hmem
    apply List.length_pos_iff.mpr
    rintro rfl
    exact hwords hmem
  induction h generalizing parts' with
  | nil =>
      generalize hitems : ([] : List α) = items at h'
      cases h' with
      | nil => rfl
      | last hne _ => exact absurd hitems.symm hne
      | @word before word after parts hmem _ _ _ =>
          have hword := hpos hmem
          have hlength := congrArg List.length hitems
          simp only [List.length_append, List.length_nil] at hlength
          omega
  | @last items hne hnone =>
      cases h' with
      | nil => exact absurd rfl hne
      | last _ _ => rfl
      | @word before word after parts hmem _ _ _ =>
          have hword := hpos hmem
          refine absurd ?_ (hnone before.length ?_ word hmem)
          · rw [List.drop_left]
            exact List.prefix_append _ _
          · simp only [List.length_append]
            omega
  | @word before word after parts hmem hfirst hlongest _ ih =>
      have hword := hpos hmem
      generalize hitems : before ++ (word ++ after) = items at h'
      cases h' with
      | nil =>
          have hlength := congrArg List.length hitems
          simp only [List.length_append, List.length_nil] at hlength
          omega
      | last _ hnone =>
          subst hitems
          refine absurd ?_ (hnone before.length ?_ word hmem)
          · rw [List.drop_left]
            exact List.prefix_append _ _
          · simp only [List.length_append]
            omega
      | @word before' word' after' parts' hmem' hfirst' hlongest' hafter' =>
          -- Neither word begins before the other.
          have hbefore : before.length = before'.length := by
            rcases Nat.lt_trichotomy before.length before'.length with hlt | heq | hgt
            · refine absurd ?_ (hfirst' before.length hlt word hmem)
              rw [← hitems, List.drop_left]
              exact List.prefix_append _ _
            · exact heq
            · refine absurd ?_ (hfirst before'.length hgt word' hmem')
              rw [hitems, List.drop_left]
              exact List.prefix_append _ _
          obtain ⟨rfl, hrest⟩ := List.append_inj hitems hbefore
          have hle : word'.length ≤ word.length :=
            hlongest word' hmem' (hrest ▸ List.prefix_append _ _)
          have hge : word.length ≤ word'.length :=
            hlongest' word hmem (hrest ▸ List.prefix_append _ _)
          obtain ⟨rfl, rfl⟩ := List.append_inj hrest (Nat.le_antisymm hge hle)
          rw [ih hafter']

/-- How words are read depends on which they are, not on their order. -/
theorem Leftmost.congr (hsame : ∀ word, word ∈ words ↔ word ∈ words')
    (h : Leftmost words items parts) : Leftmost words' items parts := by
  induction h with
  | nil => exact .nil
  | last hne hnone =>
      exact .last hne fun start hstart word hmem => hnone start hstart word ((hsame word).mpr hmem)
  | word hmem hfirst hlongest _ ih =>
      exact .word ((hsame _).mp hmem)
        (fun start hstart other hother => hfirst start hstart other ((hsame other).mpr hother))
        (fun other hother => hlongest other ((hsame other).mpr hother)) ih

variable [DecidableEq α]

theorem longest_of_firstWord {before word after : List α}
    (h : firstWord words items = some (before, word, after)) :
    longest words (word ++ after) = some word := by
  induction items generalizing before with
  | nil => cases h
  | cons item items ih =>
      unfold firstWord at h
      cases hlongest : longest words (item :: items) with
      | some found =>
          rw [hlongest] at h
          cases h
          obtain ⟨_, rest, hbegins⟩ := (longest_spec words _).found _ hlongest
          rw [← hbegins, List.drop_left, hbegins, hlongest]
      | none =>
          rw [hlongest] at h
          obtain ⟨⟨_, _, _⟩, hrest, heq⟩ := Option.map_eq_some_iff.mp h
          cases heq
          exact ih hrest

/-- A word that begins somewhere is not behind the first one. -/
theorem firstWord_of_begins {word : List α} {start : Nat} (hstart : start < items.length)
    (hmem : word ∈ words) (hbegins : word <+: items.drop start) :
    ∃ before found after, firstWord words items = some (before, found, after) ∧
      before.length ≤ start := by
  obtain ⟨before, found, after, hfirst, hle⟩ :=
    firstWord_before (List.take_append_drop start items).symm
      (List.ne_nil_of_length_pos (by rw [List.length_drop]; omega)) hmem hbegins
  refine ⟨before, found, after, hfirst, Nat.le_trans hle ?_⟩
  rw [List.length_take]
  exact Nat.min_le_left _ _

theorem leftmost_cutWith (hwords : [] ∉ words) (fuel : Nat) (items : List α)
    (hfuel : items.length ≤ fuel) : Leftmost words items (cutWith words fuel items) := by
  induction fuel generalizing items with
  | zero =>
      rw [List.eq_nil_of_length_eq_zero (Nat.le_zero.mp hfuel)]
      exact .nil
  | succ fuel ih =>
      by_cases hne : items = []
      · subst hne
        exact .nil
      cases hfound : firstWord words items with
      | none =>
          rw [cutWith_none hne hfound]
          refine .last hne fun start hstart word hmem hbegins => ?_
          obtain ⟨_, _, _, hsome, _⟩ := firstWord_of_begins hstart hmem hbegins
          rw [hfound] at hsome
          cases hsome
      | some found =>
          obtain ⟨before, word, after⟩ := found
          have hlt := length_after_lt hwords hfound
          obtain ⟨hsplit, hmem⟩ := firstWord_split hfound
          rw [cutWith_some hfound]
          have hfirst : ∀ start < before.length, ∀ other ∈ words,
              ¬ other <+: items.drop start := by
            intro start hstart other hother hbegins
            have hlength : start < items.length := by
              rw [hsplit, List.length_append]
              omega
            obtain ⟨_, _, _, hsome, hle⟩ := firstWord_of_begins hlength hother hbegins
            rw [hfound] at hsome
            cases hsome
            omega
          have hlongest : ∀ other ∈ words, other <+: word ++ after →
              other.length ≤ word.length := by
            intro other hother hbegins
            obtain ⟨_, hsome, hle⟩ := (longest_spec words _).most other hother hbegins
            rw [longest_of_firstWord hfound] at hsome
            cases hsome
            exact hle
          rw [hsplit] at hfirst ⊢
          exact .word hmem hfirst hlongest (ih after (by omega))

theorem leftmost_cut (hwords : [] ∉ words) (items : List α) :
    Leftmost words items (cut words items) :=
  leftmost_cutWith hwords _ _ (Nat.le_refl _)

end Leftmost

end Riley.Cutting
