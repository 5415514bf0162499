import Mathlib.Tactic.Common

/-!
Search for the occurrence of a pattern that is complete first. An occurrence
counts from a given offset on; among those that end together the one that
starts first wins, and among those the pattern listed first.
-/

namespace Riley.Search

variable {α : Type}

/-- Pattern number `index` found from `start` up to `stop`. -/
structure Match where
  start : Nat
  stop : Nat
  index : Nat
  deriving DecidableEq, Repr

/-- The order of completion. -/
def Match.before (first second : Match) : Prop :=
  first.stop < second.stop ∨ first.stop = second.stop ∧
    (first.start < second.start ∨ first.start = second.start ∧ first.index < second.index)

instance (first second : Match) : Decidable (first.before second) :=
  inferInstanceAs (Decidable (_ ∨ _ ∧ (_ ∨ _ ∧ _)))

def Match.shift (offset : Nat) (found : Match) : Match :=
  { found with start := offset + found.start, stop := offset + found.stop }

/-- The pattern occurs there, at or after the offset `gate`. -/
def Occurs (patterns : List (List α)) (gate : Nat) (text : List α) (found : Match) : Prop :=
  gate ≤ found.start ∧ ∃ pattern, patterns[found.index]? = some pattern ∧
    pattern <+: text.drop found.start ∧ found.stop = found.start + pattern.length

/-- An occurrence could begin at `start` and is not complete. -/
def Partial (patterns : List (List α)) (text : List α) (start : Nat) : Prop :=
  ∃ pattern ∈ patterns, text.drop start <+: pattern ∧ text.drop start ≠ pattern

/-- The first of the matches of a kind. -/
structure FirstOf (kind : Match → Prop) (best : Option Match) : Prop where
  found : ∀ m, best = some m → kind m
  least : ∀ m, kind m → ∃ first, best = some first ∧ ¬ m.before first

/-- Every place in a text of that length where one of `patterns` could occur,
in the order of completion. -/
def places (patterns length : Nat) : List Match :=
  (List.range (length + 1)).flatMap fun stop =>
    (List.range (stop + 1)).flatMap fun start =>
      (List.range patterns).map fun index => { start, stop, index }

def occursAt [DecidableEq α] (patterns : List (List α)) (gate : Nat) (text : List α) (place : Match) : Bool :=
  gate ≤ place.start &&
    patterns[place.index]? = some ((text.drop place.start).take (place.stop - place.start))

/-- The occurrence completed first in the whole text. -/
def firstMatch [DecidableEq α] (patterns : List (List α)) (gate : Nat) (text : List α) : Option Match :=
  (places patterns.length text.length).find? (occursAt patterns gate text)

/-- The text before the occurrence completed first. -/
def upToMatch [DecidableEq α] (patterns : List (List α)) (gate : Nat) (text : List α) : List α :=
  match firstMatch patterns gate text with
  | some found => text.take found.start
  | none => text

section Order

theorem Match.before_irrefl (m : Match) : ¬ m.before m := by
  unfold Match.before
  omega

theorem Match.before_trans {first second third : Match} (h : first.before second)
    (h' : second.before third) : first.before third := by
  unfold Match.before at *
  omega

theorem Match.eq_of_not_before {first second : Match} (h : ¬ first.before second)
    (h' : ¬ second.before first) : first = second := by
  unfold Match.before at h h'
  cases first
  cases second
  simp only [Match.mk.injEq] at *
  omega

theorem Match.shift_before {offset : Nat} {first second : Match} :
    (first.shift offset).before (second.shift offset) ↔ first.before second := by
  unfold Match.before Match.shift
  simp only
  omega

/-- There is at most one first match. -/
theorem FirstOf.unique {kind : Match → Prop} {best other : Option Match}
    (h : FirstOf kind best) (h' : FirstOf kind other) : best = other := by
  cases best with
  | none =>
      cases other with
      | none => rfl
      | some m =>
          obtain ⟨first, hfirst, _⟩ := h.least m (h'.found m rfl)
          cases hfirst
  | some m =>
      obtain ⟨first, rfl, hbefore⟩ := h'.least m (h.found m rfl)
      obtain ⟨again, hagain, hafter⟩ := h.least first (h'.found first rfl)
      cases hagain
      rw [Match.eq_of_not_before hbefore hafter]

theorem FirstOf.none_iff {kind : Match → Prop} {best : Option Match} (h : FirstOf kind best) :
    best = none ↔ ∀ m, ¬ kind m := by
  constructor
  · rintro rfl m hm
    obtain ⟨first, hfirst, _⟩ := h.least m hm
    cases hfirst
  · intro hnone
    cases best with
    | none => rfl
    | some m => exact absurd (h.found m rfl) (hnone m)

theorem FirstOf.congr {kind kind' : Match → Prop} {best : Option Match}
    (h : FirstOf kind best) (hkind : ∀ m, kind m ↔ kind' m) : FirstOf kind' best := by
  obtain rfl : kind = kind' := funext fun m => propext (hkind m)
  exact h

/-- The first match among the kinds seen, after one more candidate. -/
theorem FirstOf.replace {kind : Match → Prop} {best : Option Match} {next : Match}
    (h : FirstOf kind best) :
    FirstOf (fun m => kind m ∨ m = next)
      (if best.all (next.before ·) then some next else best) := by
  split
  case isTrue hall =>
      have hbefore : ∀ m, best = some m → next.before m := by
        intro m hm
        rw [hm] at hall
        exact of_decide_eq_true hall
      apply FirstOf.mk
      · rintro m ⟨⟩
        exact Or.inr rfl
      · rintro m (hm | rfl)
        · obtain ⟨first, hfirst, hleast⟩ := h.least m hm
          exact ⟨next, rfl, fun hlt => hleast (Match.before_trans hlt (hbefore first hfirst))⟩
        · exact ⟨m, rfl, m.before_irrefl⟩
  case isFalse hnot =>
      apply FirstOf.mk
      · exact fun m hm => Or.inl (h.found m hm)
      · rintro m (hm | rfl)
        · exact h.least m hm
        · cases best with
          | none => exact absurd rfl hnot
          | some first => exact ⟨first, rfl, of_decide_eq_false (Bool.eq_false_iff.mpr hnot)⟩

/-- Matches that come no earlier than those of a kind do not change the first. -/
theorem FirstOf.widen {kind kind' : Match → Prop} {best : Option Match} (h : FirstOf kind best)
    (hkind : ∀ m, kind m → kind' m)
    (hlate : ∀ m, kind' m → ∃ m', kind m' ∧ ¬ m.before m') : FirstOf kind' best := by
  apply FirstOf.mk
  · exact fun m hm => hkind m (h.found m hm)
  · intro m hm
    obtain ⟨m', hm', hlate⟩ := hlate m hm
    obtain ⟨first, hfirst, hleast⟩ := h.least m' hm'
    refine ⟨first, hfirst, fun hlt => ?_⟩
    unfold Match.before at *
    omega

end Order

section Reference

theorem mem_places {patterns length : Nat} {m : Match} :
    m ∈ places patterns length ↔ m.stop ≤ length ∧ m.start ≤ m.stop ∧ m.index < patterns := by
  cases m
  simp only [places, List.mem_flatMap, List.mem_range, List.mem_map, Match.mk.injEq,
    Nat.lt_succ_iff]
  constructor
  · rintro ⟨stop, hstop, start, hstart, index, hindex, rfl, rfl, rfl⟩
    exact ⟨hstop, hstart, hindex⟩
  · rintro ⟨hstop, hstart, hindex⟩
    exact ⟨_, hstop, _, hstart, _, hindex, rfl, rfl, rfl⟩

theorem places_pairwise (patterns length : Nat) :
    (places patterns length).Pairwise Match.before := by
  unfold places
  rw [List.pairwise_flatMap]
  constructor
  · intro stop _
    rw [List.pairwise_flatMap]
    constructor
    · intro start _
      rw [List.pairwise_map]
      apply List.pairwise_lt_range.imp
      intro a b hab
      exact Or.inr ⟨rfl, Or.inr ⟨rfl, hab⟩⟩
    · apply List.pairwise_lt_range.imp
      intro a b hab x hx y hy
      obtain ⟨_, _, rfl⟩ := List.mem_map.mp hx
      obtain ⟨_, _, rfl⟩ := List.mem_map.mp hy
      exact Or.inr ⟨rfl, Or.inl hab⟩
  · apply List.pairwise_lt_range.imp
    intro a b hab x hx y hy
    obtain ⟨_, _, hx⟩ := List.mem_flatMap.mp hx
    obtain ⟨_, _, hy⟩ := List.mem_flatMap.mp hy
    obtain ⟨_, _, rfl⟩ := List.mem_map.mp hx
    obtain ⟨_, _, rfl⟩ := List.mem_map.mp hy
    exact Or.inl hab

/-- The first hit in a list that is in order is the first of all. -/
theorem firstOf_find? {list : List Match} {test : Match → Bool}
    (hsorted : list.Pairwise Match.before) :
    FirstOf (fun m => m ∈ list ∧ test m = true) (list.find? test) := by
  induction list with
  | nil =>
      apply FirstOf.mk
      · rintro m ⟨⟩
      · rintro m ⟨hm, _⟩
        cases hm
  | cons head tail ih =>
      obtain ⟨hhead, htail⟩ := List.pairwise_cons.mp hsorted
      cases htest : test head with
      | true =>
          rw [List.find?_cons_of_pos htest]
          apply FirstOf.mk
          · rintro m ⟨⟩
            exact ⟨List.mem_cons_self, htest⟩
          · rintro m ⟨hm, _⟩
            refine ⟨head, rfl, fun hlt => ?_⟩
            rcases List.mem_cons.mp hm with rfl | hm
            · exact m.before_irrefl hlt
            · exact m.before_irrefl (Match.before_trans hlt (hhead m hm))
      | false =>
          rw [List.find?_cons_of_neg (by rw [htest]; exact Bool.false_ne_true)]
          apply (ih htail).congr
          intro m
          constructor
          · exact fun ⟨hm, hhit⟩ => ⟨List.mem_cons_of_mem _ hm, hhit⟩
          · rintro ⟨hm, hhit⟩
            rcases List.mem_cons.mp hm with rfl | hm
            · rw [htest] at hhit
              cases hhit
            · exact ⟨hm, hhit⟩

theorem Occurs.bounds {patterns : List (List α)} {gate : Nat} {text : List α} {m : Match}
    (h : Occurs patterns gate text m) (hpatterns : ∀ pattern ∈ patterns, pattern ≠ []) :
    m.start < m.stop ∧ m.stop ≤ text.length ∧ m.index < patterns.length := by
  obtain ⟨_, pattern, hpattern, hbegins, hstop⟩ := h
  have hpos := List.length_pos_iff.mpr (hpatterns pattern (List.mem_of_getElem? hpattern))
  have hlength := hbegins.length_le
  have hindex := (List.getElem?_eq_some_iff.mp hpattern).1
  rw [List.length_drop] at hlength
  omega

theorem occurs_iff_place [DecidableEq α] {patterns : List (List α)}
    (hpatterns : ∀ pattern ∈ patterns, pattern ≠ [])
    {gate : Nat} {text : List α} {m : Match} :
    m ∈ places patterns.length text.length ∧ occursAt patterns gate text m = true ↔
      Occurs patterns gate text m := by
  rw [mem_places]
  unfold occursAt
  rw [Bool.and_eq_true, decide_eq_true_eq, decide_eq_true_eq]
  constructor
  · rintro ⟨⟨hstop, hstart, _⟩, hgate, hpattern⟩
    refine ⟨hgate, _, hpattern, List.take_prefix _ _, ?_⟩
    rw [List.length_take, List.length_drop]
    omega
  · intro h
    obtain ⟨hstart, hstop, hindex⟩ := h.bounds hpatterns
    obtain ⟨hgate, pattern, hpattern, hbegins, hlength⟩ := h
    refine ⟨⟨hstop, Nat.le_of_lt hstart, hindex⟩, hgate, ?_⟩
    rw [hpattern, hlength, Nat.add_sub_cancel_left, List.prefix_iff_eq_take.mp hbegins,
      List.length_take, Nat.min_eq_left]
    exact hbegins.length_le

theorem firstMatch_firstOf [DecidableEq α] {patterns : List (List α)}
    (hpatterns : ∀ pattern ∈ patterns, pattern ≠ []) (gate : Nat) (text : List α) :
    FirstOf (Occurs patterns gate text) (firstMatch patterns gate text) :=
  (firstOf_find? (places_pairwise _ _)).congr fun _ => occurs_iff_place hpatterns

end Reference

section Growing

variable {patterns : List (List α)} {gate : Nat}

theorem Occurs.append {text : List α} {m : Match} (h : Occurs patterns gate text m)
    (more : List α) : Occurs patterns gate (text ++ more) m := by
  obtain ⟨hgate, pattern, hpattern, hbegins, hstop⟩ := h
  refine ⟨hgate, pattern, hpattern, ?_, hstop⟩
  rw [List.drop_append]
  exact hbegins.trans (List.prefix_append _ _)

theorem Occurs.of_append {text more : List α} {m : Match}
    (h : Occurs patterns gate (text ++ more) m) (hstart : m.start ≤ text.length)
    (hstop : m.stop ≤ text.length) : Occurs patterns gate text m := by
  obtain ⟨hgate, pattern, hpattern, hbegins, hlength⟩ := h
  refine ⟨hgate, pattern, hpattern, ?_, hlength⟩
  rw [List.drop_append_of_le_length hstart] at hbegins
  apply List.prefix_of_prefix_length_le hbegins (List.prefix_append _ _)
  rw [List.length_drop]
  omega

/-- The first match stays the first when the text goes on. -/
theorem firstMatch_append [DecidableEq α] {text : List α} {m : Match}
    (hpatterns : ∀ pattern ∈ patterns, pattern ≠ [])
    (h : firstMatch patterns gate text = some m) (more : List α) :
    firstMatch patterns gate (text ++ more) = some m := by
  have hfirst := firstMatch_firstOf hpatterns gate text
  have hfound := hfirst.found m h
  apply (firstMatch_firstOf hpatterns gate (text ++ more)).unique
  apply FirstOf.mk
  · rintro m' ⟨⟩
    exact hfound.append more
  · intro m' hm'
    refine ⟨m, rfl, fun hlt => ?_⟩
    have hbounds := hfound.bounds hpatterns
    have hbounds' := hm'.bounds hpatterns
    have hstop : m'.stop ≤ text.length := by
      unfold Match.before at hlt
      omega
    obtain ⟨first, hsome, hleast⟩ := hfirst.least m' (hm'.of_append (by omega) hstop)
    rw [h] at hsome
    cases hsome
    exact hleast hlt

/-- Where no occurrence begins or could begin, none begins when the text goes
on. -/
theorem not_occurs_append {text more : List α} {m : Match}
    (hnone : ∀ m, ¬ Occurs patterns gate text m)
    (hopens : ¬ Partial patterns text m.start) :
    ¬ Occurs patterns gate (text ++ more) m := by
  rintro ⟨hgate, pattern, hpattern, hbegins, hstop⟩
  rcases Nat.lt_or_ge (text.drop m.start).length pattern.length with hlt | hge
  · apply hopens
    refine ⟨pattern, List.mem_of_getElem? hpattern, ?_, ?_⟩
    · apply List.prefix_of_prefix_length_le _ hbegins (Nat.le_of_lt hlt)
      rw [List.drop_append]
      exact List.prefix_append _ _
    · rintro rfl
      exact Nat.lt_irrefl _ hlt
  · apply hnone m
    refine ⟨hgate, pattern, hpattern, ?_, hstop⟩
    apply List.prefix_of_prefix_length_le hbegins _ hge
    rw [List.drop_append]
    exact List.prefix_append _ _

/-- A place where no occurrence begins or could begin stays one. -/
theorem not_partial_append {text more : List α} {start : Nat} (hgate : gate ≤ start)
    (hnone : ∀ m, ¬ Occurs patterns gate text m)
    (hopens : ¬ Partial patterns text start) : ¬ Partial patterns (text ++ more) start := by
  rintro ⟨pattern, hpattern, hbegins, hne⟩
  have hlead : text.drop start <+: pattern := by
    apply List.IsPrefix.trans _ hbegins
    rw [List.drop_append]
    exact List.prefix_append _ _
  apply hopens
  refine ⟨pattern, hpattern, hlead, fun heq => ?_⟩
  obtain ⟨index, hindex⟩ := List.mem_iff_getElem?.mp hpattern
  apply hnone ⟨start, start + pattern.length, index⟩
  exact ⟨hgate, pattern, hindex, heq ▸ List.prefix_refl _, rfl⟩

/-- Occurrences in what follows a lead are those in the whole, shifted. -/
theorem occurs_shift {lead rest : List α} {m : Match} :
    Occurs patterns gate (lead ++ rest) (m.shift lead.length) ↔
      Occurs patterns (gate - lead.length) rest m := by
  unfold Occurs Match.shift
  simp only [List.drop_append, List.drop_eq_nil_of_le (Nat.le_add_right lead.length m.start),
    List.nil_append, Nat.add_sub_cancel_left, Nat.add_assoc, Nat.add_left_cancel_iff,
    Nat.sub_le_iff_le_add']

theorem partial_shift {lead rest : List α} {start : Nat} :
    Partial patterns (lead ++ rest) (lead.length + start) ↔ Partial patterns rest start := by
  unfold Partial
  rw [List.drop_append, List.drop_eq_nil_of_le (Nat.le_add_right lead.length start),
    List.nil_append, Nat.add_sub_cancel_left]

theorem Match.shift_unshift {offset : Nat} {m : Match} (hstart : offset ≤ m.start)
    (hstop : offset ≤ m.stop) :
    ∃ m', m = Match.shift offset m' := by
  refine ⟨⟨m.start - offset, m.stop - offset, m.index⟩, ?_⟩
  unfold Match.shift
  simp only [Nat.add_sub_cancel' hstart, Nat.add_sub_cancel' hstop]

/-- A search behind a lead in which no occurrence begins finds the first
occurrence of the whole. -/
theorem FirstOf.shift {lead rest : List α} {best : Option Match}
    (h : FirstOf (Occurs patterns (gate - lead.length) rest) best)
    (hlead : ∀ m, Occurs patterns gate (lead ++ rest) m → lead.length ≤ m.start) :
    FirstOf (Occurs patterns gate (lead ++ rest)) (best.map (Match.shift lead.length)) := by
  apply FirstOf.mk
  · intro m hm
    obtain ⟨m', hm', rfl⟩ := Option.map_eq_some_iff.mp hm
    exact occurs_shift.mpr (h.found m' hm')
  · intro m hm
    have hstart := hlead m hm
    obtain ⟨_, _, _, _, hstop⟩ := id hm
    obtain ⟨m', rfl⟩ := Match.shift_unshift hstart (by omega)
    obtain ⟨first, rfl, hleast⟩ := h.least m' (occurs_shift.mp hm)
    exact ⟨first.shift lead.length, rfl, fun hlt => hleast (Match.shift_before.mp hlt)⟩

end Growing

section Descending

theorem mem_longer {longest maximum byteLen : Nat} :
    byteLen ∈ (List.range' (longest + 1) (maximum - longest)).reverse ↔
      longest < byteLen ∧ byteLen ≤ maximum := by
  rw [List.mem_reverse, List.mem_range'_1]
  omega

theorem longer_pairwise (longest count : Nat) :
    ((List.range' (longest + 1) count).reverse).Pairwise (· > ·) := by
  rw [List.pairwise_reverse]
  exact List.pairwise_lt_range'

/-- The first hit in a list that goes down is the greatest. -/
theorem find?_greatest {list : List Nat} {test : Nat → Bool} {hit : Nat}
    (hsorted : list.Pairwise (· > ·)) (h : list.find? test = some hit) {other : Nat}
    (hmem : other ∈ list) (hother : test other = true) : other ≤ hit := by
  obtain ⟨_, before, after, rfl, hmiss⟩ := List.find?_eq_some_iff_append.mp h
  rcases List.mem_append.mp hmem with hbefore | hafter
  · have hfalse := hmiss other hbefore
    rw [hother] at hfalse
    cases hfalse
  · rcases List.mem_cons.mp hafter with rfl | hlater
    · exact Nat.le_refl _
    · have htail := (List.pairwise_append.mp hsorted).2.1
      exact Nat.le_of_lt ((List.pairwise_cons.mp htail).1 other hlater)

end Descending

end Riley.Search
