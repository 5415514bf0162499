import Mathlib.Data.List.Forall2
import Mathlib.Data.List.GetD
import Mathlib.Data.List.MinMax
import Riley.Constraint.Grammar

/-!
What the checks of `build` buy. The rounds of `nullable_rules` end in a closed
set of marks; a successful depth-first search leaves every rule above a bounded
number of nested left corners; and therefore `expand` looks at a bounded number
of frames, so the bound in its definition is never reached.
-/

namespace Riley.Constraint

section Marks

/-- Every mark of the first list is kept by the second. -/
abbrev Keeps (kept : List Nat) : List Nat → List Nat → Prop :=
  List.Forall₂ fun before after => before ∈ kept → after = before

theorem keeps_refl (kept marks : List Nat) : Keeps kept marks marks := by
  induction marks with
  | nil => exact List.Forall₂.nil
  | cons mark rest ih => exact List.Forall₂.cons (fun _ => rfl) ih

theorem Keeps.trans {kept first second third : List Nat} (h : Keeps kept first second)
    (h' : Keeps kept second third) : Keeps kept first third := by
  induction h generalizing third with
  | nil => exact h'
  | cons hhead _ ih =>
      cases h' with
      | cons hhead' htail' =>
          refine List.Forall₂.cons (fun hmem => ?_) (ih htail')
          rw [hhead' (by rw [hhead hmem]; exact hmem), hhead hmem]

theorem Keeps.getD {kept first second : List Nat} (h : Keeps kept first second) {index : Nat}
    (hlt : index < first.length) (hmem : first.getD index 0 ∈ kept) :
    second.getD index 0 = first.getD index 0 := by
  induction h generalizing index with
  | nil => exact absurd hlt (Nat.not_lt_zero index)
  | cons hhead _ ih =>
      cases index with
      | zero => exact hhead hmem
      | succ index => exact ih (Nat.lt_of_succ_lt_succ hlt) hmem

/-- Marks that are not kept may change on the way. -/
theorem Keeps.set_back {kept first second : List Nat} {index mark mark' : Nat}
    (h : Keeps kept (first.set index mark) second) (hfree : first.getD index 0 ∉ kept) :
    Keeps kept first (second.set index mark') := by
  induction first generalizing index second with
  | nil =>
      cases h
      exact List.Forall₂.nil
  | cons head rest ih =>
      cases index with
      | zero =>
          cases h with
          | cons _ htail => exact List.Forall₂.cons (fun hmem => absurd hmem hfree) htail
      | succ index =>
          cases h with
          | cons hhead htail => exact List.Forall₂.cons hhead (ih htail hfree)

theorem getD_set_self {α : Type*} {items : List α} {index : Nat} {item default : α}
    (h : index < items.length) : (items.set index item).getD index default = item := by
  simp [List.getD_eq_getElem?_getD, h]

theorem getD_set_of_ne {α : Type*} {items : List α} {index other : Nat} {item default : α}
    (h : other ≠ index) :
    (items.set index item).getD other default = items.getD other default := by
  simp [List.getD_eq_getElem?_getD, List.getElem?_set_ne (Ne.symm h)]

end Marks

section Nullable

variable {rules : Rules}

/-- Marks only get set. -/
abbrev Grows : List Bool → List Bool → Prop :=
  List.Forall₂ fun before after => before = true → after = true

theorem grows_refl (marks : List Bool) : Grows marks marks := by
  induction marks with
  | nil => exact List.Forall₂.nil
  | cons mark rest ih => exact List.Forall₂.cons id ih

theorem Grows.trans {first second third : List Bool} (h : Grows first second)
    (h' : Grows second third) : Grows first third := by
  induction h generalizing third with
  | nil => exact h'
  | cons hhead _ ih =>
      cases h' with
      | cons hhead' htail' => exact List.Forall₂.cons (hhead' ∘ hhead) (ih htail')

theorem Grows.antisymm {first second : List Bool} (h : Grows first second)
    (h' : Grows second first) : first = second := by
  induction h with
  | nil => rfl
  | cons hhead _ ih =>
      cases h' with
      | cons hhead' htail' =>
          rw [ih htail', Bool.eq_iff_iff.mpr ⟨hhead, hhead'⟩]

theorem grows_set (marks : List Bool) (index : Nat) : Grows marks (marks.set index true) := by
  induction marks generalizing index with
  | nil => exact List.Forall₂.nil
  | cons mark rest ih =>
      cases index with
      | zero => exact List.Forall₂.cons (fun _ => rfl) (grows_refl rest)
      | succ index => exact List.Forall₂.cons id (ih index)

/-- Growing without a change of the count is no change. -/
theorem Grows.eq_of_count {first second : List Bool} (h : Grows first second)
    (hcount : second.count true ≤ first.count true) : first = second := by
  have hle : ∀ {a b : List Bool}, Grows a b → a.count true ≤ b.count true := by
    intro a b hab
    induction hab with
    | nil => exact Nat.le_refl _
    | @cons x y _ _ hhead _ ih =>
        rw [List.count_cons, List.count_cons]
        cases x with
        | false => exact Nat.le_trans ih (Nat.le_add_right _ _)
        | true =>
            rw [hhead rfl]
            exact Nat.add_le_add_right ih _
  induction h with
  | nil => rfl
  | @cons x y rest rest' hhead htail ih =>
      have htailLe := hle htail
      cases x <;> cases y
      · simp only [List.count_cons] at hcount
        rw [ih (by simpa using hcount)]
      · simp only [List.count_cons] at hcount
        simp at hcount
        omega
      · exact absurd (hhead rfl) (by simp)
      · simp only [List.count_cons] at hcount
        rw [ih (by simpa using hcount)]

/-- One index of a round. -/
def nullableStep (rules : Rules) (nullable : List Bool) (index : Nat) : List Bool :=
  if (rules.getD index []).any (matchesNothing nullable) then nullable.set index true
  else nullable

theorem grows_nullableStep (nullable : List Bool) (index : Nat) :
    Grows nullable (nullableStep rules nullable index) := by
  unfold nullableStep
  split
  · exact grows_set nullable index
  · exact grows_refl nullable

theorem grows_nullableSteps (rules : Rules) (indices : List Nat) (nullable : List Bool) :
    Grows nullable (indices.foldl (nullableStep rules) nullable) := by
  induction indices generalizing nullable with
  | nil => exact grows_refl nullable
  | cons index rest ih => exact (grows_nullableStep nullable index).trans (ih _)

/-- A round that changes nothing found nothing to set. -/
theorem nullableStep_of_fixed (indices : List Nat) {nullable : List Bool}
    (h : indices.foldl (nullableStep rules) nullable = nullable) :
    ∀ index ∈ indices, nullableStep rules nullable index = nullable := by
  induction indices with
  | nil => exact fun _ hindex => absurd hindex List.not_mem_nil
  | cons first rest ih =>
      rw [List.foldl_cons] at h
      have hback := grows_nullableSteps rules rest (nullableStep rules nullable first)
      rw [h] at hback
      have hfirst := hback.antisymm (grows_nullableStep nullable first)
      rw [hfirst] at h
      intro index hindex
      rcases List.mem_cons.mp hindex with rfl | hrest
      · exact hfirst
      · exact ih h index hrest

theorem nullablePass_eq (nullable : List Bool) :
    nullablePass rules nullable =
      (List.range rules.length).foldl (nullableStep rules) nullable := rfl

/-- With as many rounds left as there are marks to set, the rounds end in marks
that one more round keeps. -/
theorem nullableRounds_fixed (fuel : Nat) {nullable : List Bool}
    (hfuel : nullable.length < fuel + nullable.count true) :
    nullablePass rules (nullableRounds rules fuel nullable) =
      nullableRounds rules fuel nullable := by
  induction fuel generalizing nullable with
  | zero =>
      have hle := List.count_le_length (a := true) (l := nullable)
      omega
  | succ fuel ih =>
      unfold nullableRounds
      by_cases hsame : nullablePass rules nullable = nullable
      · simp only [hsame, if_true]
      · simp only [hsame, if_false]
        have hgrows : Grows nullable (nullablePass rules nullable) :=
          grows_nullableSteps rules (List.range rules.length) nullable
        have hmore : nullable.count true < (nullablePass rules nullable).count true := by
          by_contra hle
          exact hsame (hgrows.eq_of_count (Nat.le_of_not_lt hle)).symm
        have hlength := hgrows.length_eq
        exact ih (by omega)

theorem nullableRounds_length (fuel : Nat) (nullable : List Bool) :
    (nullableRounds rules fuel nullable).length = nullable.length := by
  induction fuel generalizing nullable with
  | zero => rfl
  | succ fuel ih =>
      simp only [nullableRounds]
      split
      · rfl
      · rw [ih]
        exact (grows_nullableSteps rules (List.range rules.length) nullable).length_eq.symm

/-- A rule with an alternative that matches nothing is marked. -/
theorem nullableRules_closed {rule : Nat} (hlt : rule < rules.length)
    {alternative : List GrammarElement} (hmem : alternative ∈ rules.getD rule [])
    (hmatches : matchesNothing (nullableRules rules) alternative = true) :
    (nullableRules rules).getD rule false = true := by
  have hlength : (nullableRules rules).length = rules.length := by
    rw [nullableRules, nullableRounds_length, List.length_replicate]
  have hfixed : nullablePass rules (nullableRules rules) = nullableRules rules := by
    apply nullableRounds_fixed
    rw [List.length_replicate]
    omega
  rw [nullablePass_eq] at hfixed
  have hstep := nullableStep_of_fixed (List.range rules.length) hfixed rule
    (List.mem_range.mpr hlt)
  unfold nullableStep at hstep
  rw [if_pos (List.any_eq_true.mpr ⟨alternative, hmem, hmatches⟩)] at hstep
  rw [← hstep]
  exact getD_set_self (by rw [hlength]; exact hlt)

end Nullable

section LeftRecursion

variable {rules : Rules} {nullable : List Bool}

/-- The rules that `visit` follows from one rule. -/
def corners (rules : Rules) (nullable : List Bool) (rule : Nat) : List Nat :=
  (rules.getD rule []).flatMap (leftCorner nullable)

/-- At most `depth` rules are nested at the left corner of a rule. -/
def Grounded (rules : Rules) (nullable : List Bool) : Nat → Nat → Prop
  | 0, _ => False
  | depth + 1, rule => ∀ next ∈ corners rules nullable rule, Grounded rules nullable depth next

theorem Grounded.succ {depth rule : Nat} (h : Grounded rules nullable depth rule) :
    Grounded rules nullable (depth + 1) rule := by
  induction depth generalizing rule with
  | zero => exact h.elim
  | succ depth ih => exact fun next hnext => ih (h next hnext)

theorem Grounded.mono {depth more rule : Nat} (h : Grounded rules nullable depth rule)
    (hle : depth ≤ more) : Grounded rules nullable more rule := by
  induction hle with
  | refl => exact h
  | step _ ih => exact ih.succ

/-- Finished rules are grounded, no deeper than the number of finished rules. -/
structure MarksOk (rules : Rules) (nullable : List Bool) (marks : List Nat) : Prop where
  length : marks.length = rules.length
  finished : ∀ rule, marks.getD rule 0 = 2 →
    Grounded rules nullable (marks.count 2) rule

/-- What a successful search from some rules leaves behind. -/
structure Visited (rules : Rules) (nullable : List Bool) (marks marks' : List Nat)
    (visited : List Nat) : Prop where
  ok : MarksOk rules nullable marks'
  keeps : Keeps [1, 2] marks marks'
  finished : ∀ rule ∈ visited, marks'.getD rule 0 = 2

theorem visitAll_visited {body : Nat → List Nat → Except GrammarError (List Nat)}
    (hbody : ∀ rule marks marks', rule < rules.length → MarksOk rules nullable marks →
      body rule marks = .ok marks' → Visited rules nullable marks marks' [rule])
    (items : List Nat) {marks marks' : List Nat} (hitems : ∀ item ∈ items, item < rules.length)
    (hok : MarksOk rules nullable marks) (hrun : visitAll body items marks = .ok marks') :
    Visited rules nullable marks marks' items := by
  induction items generalizing marks with
  | nil =>
      cases hrun
      exact ⟨hok, keeps_refl _ _, fun _ hmem => absurd hmem List.not_mem_nil⟩
  | cons item rest ih =>
      cases hfirst : body item marks with
      | error error => simp [visitAll, hfirst, bind, Except.bind] at hrun
      | ok middle =>
          simp only [visitAll, hfirst, bind, Except.bind] at hrun
          have hone := hbody item marks middle (hitems item List.mem_cons_self) hok hfirst
          have hmore := ih (fun other hother => hitems other (List.mem_cons_of_mem _ hother))
            hone.ok hrun
          refine ⟨hmore.ok, hone.keeps.trans hmore.keeps, fun rule hrule => ?_⟩
          rcases List.mem_cons.mp hrule with rfl | hrest
          · have hmark := hone.finished rule List.mem_cons_self
            have hlt : rule < middle.length := by
              rw [hone.ok.length]
              exact hitems rule List.mem_cons_self
            rw [hmore.keeps.getD hlt (by rw [hmark]; simp), hmark]
          · exact hmore.finished rule hrest

/-- Setting the mark of a rule on the path keeps the finished rules. -/
theorem MarksOk.enter {marks : List Nat} {rule : Nat} (h : MarksOk rules nullable marks)
    (hlt : rule < rules.length) (hnew : marks.getD rule 0 ≠ 2) :
    MarksOk rules nullable (marks.set rule 1) := by
  have hlt' : rule < marks.length := by rw [h.length]; exact hlt
  have hget : marks[rule] ≠ 2 := by
    rwa [List.getD_eq_getElem _ _ hlt'] at hnew
  have hcount : (marks.set rule 1).count 2 = marks.count 2 := by
    rw [List.count_set hlt']
    simp [hget]
  refine ⟨by rw [List.length_set, h.length], fun other hother => ?_⟩
  rw [hcount]
  by_cases heq : other = rule
  · subst heq
    rw [getD_set_self hlt'] at hother
    omega
  · rw [getD_set_of_ne heq] at hother
    exact h.finished other hother

/-- A rule whose left corners are finished is finished after them. -/
theorem MarksOk.finish {marks : List Nat} {rule : Nat} (h : MarksOk rules nullable marks)
    (hlt : rule < rules.length) (hpath : marks.getD rule 0 = 1)
    (hcorners : ∀ next ∈ corners rules nullable rule, marks.getD next 0 = 2) :
    MarksOk rules nullable (marks.set rule 2) := by
  have hlt' : rule < marks.length := by rw [h.length]; exact hlt
  have hget : marks[rule] = 1 := by
    rwa [List.getD_eq_getElem _ _ hlt'] at hpath
  have hcount : (marks.set rule 2).count 2 = marks.count 2 + 1 := by
    rw [List.count_set hlt']
    simp [hget]
  refine ⟨by rw [List.length_set, h.length], fun other hother => ?_⟩
  rw [hcount]
  by_cases heq : other = rule
  · subst heq
    exact fun next hnext => h.finished next (hcorners next hnext)
  · rw [getD_set_of_ne heq] at hother
    exact (h.finished other hother).succ

theorem visit_visited (hcorners : ∀ rule, ∀ next ∈ corners rules nullable rule,
      next < rules.length) (fuel : Nat) :
    ∀ rule marks marks', rule < rules.length → MarksOk rules nullable marks →
      visit rules nullable fuel rule marks = .ok marks' →
      Visited rules nullable marks marks' [rule] := by
  induction fuel with
  | zero =>
      intro rule marks marks' _ _ hrun
      cases hrun
  | succ fuel ih =>
      intro rule marks marks' hlt hok hrun
      unfold visit at hrun
      split at hrun
      · cases hrun
      · cases hrun
        exact ⟨hok, keeps_refl _ _, fun other hother => by
          rw [List.mem_singleton.mp hother]
          assumption⟩
      · rename_i hone htwo
        cases hall : visitAll (visit rules nullable fuel)
            ((rules.getD rule []).flatMap (leftCorner nullable)) (marks.set rule 1) with
        | error error =>
            simp only [hall, bind, Except.bind] at hrun
            cases hrun
        | ok middle =>
            simp only [hall, bind, Except.bind, Except.ok.injEq] at hrun
            subst hrun
            have hvisited := visitAll_visited ih _ (hcorners rule) (hok.enter hlt htwo) hall
            have hlength : rule < marks.length := by rw [hok.length]; exact hlt
            have hpath : middle.getD rule 0 = 1 := by
              have hset : (marks.set rule 1).getD rule 0 = 1 := getD_set_self hlength
              rw [hvisited.keeps.getD (by rwa [List.length_set]) (by rw [hset]; simp), hset]
            have hnew : marks.getD rule 0 ∉ [1, 2] := by
              rw [List.mem_cons, List.mem_singleton]
              exact not_or.mpr ⟨hone, htwo⟩
            refine ⟨hvisited.ok.finish hlt hpath hvisited.finished,
              hvisited.keeps.set_back hnew, fun other hother => ?_⟩
            rw [List.mem_singleton.mp hother]
            exact getD_set_self (by rw [hvisited.ok.length]; exact hlt)

/-- A grammar that passes the check has no left recursion. -/
theorem grounded_of_reject (hcorners : ∀ rule, ∀ next ∈ corners rules (nullableRules rules) rule,
      next < rules.length) (h : rejectLeftRecursion rules = .ok ()) {rule : Nat}
    (hlt : rule < rules.length) : Grounded rules (nullableRules rules) rules.length rule := by
  unfold rejectLeftRecursion at h
  cases hall : visitAll (visit rules (nullableRules rules) (rules.length + 1))
      (List.range rules.length) (List.replicate rules.length 0) with
  | error error => simp [hall, bind, Except.bind] at h
  | ok marks =>
      have hstart : MarksOk rules (nullableRules rules) (List.replicate rules.length 0) := by
        refine ⟨List.length_replicate, fun other hother => ?_⟩
        rw [List.getD_eq_getElem?_getD, List.getElem?_replicate] at hother
        split at hother <;> simp at hother
      have hvisited := visitAll_visited (visit_visited hcorners _) _
        (fun item hitem => List.mem_range.mp hitem) hstart hall
      have hground := hvisited.ok.finished rule
        (hvisited.finished rule (List.mem_range.mpr hlt))
      refine hground.mono ?_
      rw [← hvisited.ok.length]
      exact List.count_le_length

end LeftRecursion

namespace Grammar

variable (g : Grammar)

section Checked

theorem checked : rejectLeftRecursion g.rules = .ok () ∧ g.start < g.rules.length ∧
    ∀ alternatives ∈ g.rules, alternatives ≠ [] ∧
      ∀ alternative ∈ alternatives, dangling g.rules.length alternative = false := by
  have hvalid := g.valid
  unfold checkRules at hvalid
  split at hvalid
  · cases hvalid
  rename_i hstart
  split at hvalid
  · cases hvalid
  rename_i hrules
  refine ⟨hvalid, Nat.lt_of_not_le hstart, fun alternatives halternatives => ?_⟩
  rw [List.any_eq_true] at hrules
  have hfine := fun h => hrules ⟨alternatives, halternatives, h⟩
  rw [Bool.or_eq_true, List.isEmpty_iff, List.any_eq_true] at hfine
  constructor
  · exact fun hempty => hfine (Or.inl hempty)
  · intro alternative halternative
    by_contra hdangling
    exact hfine (Or.inr ⟨alternative, halternative, by simpa using hdangling⟩)

theorem mem_rules_of_mem_alternatives {rule : Nat} {alternative : List GrammarElement}
    (h : alternative ∈ g.alternatives rule) :
    rule < g.rules.length ∧ g.alternatives rule ∈ g.rules := by
  unfold alternatives at h ⊢
  by_cases hlt : rule < g.rules.length
  · rw [List.getD_eq_getElem _ _ hlt]
    exact ⟨hlt, List.getElem_mem hlt⟩
  · rw [List.getD_eq_default _ _ (Nat.le_of_not_lt hlt)] at h
    exact absurd h List.not_mem_nil

/-- Every rule that an alternative refers to exists. -/
theorem lt_of_mem_alternative {rule next : Nat} {alternative : List GrammarElement}
    (halternative : alternative ∈ g.alternatives rule)
    (hnext : GrammarElement.rule next ∈ alternative) : next < g.rules.length := by
  obtain ⟨_, hmem⟩ := g.mem_rules_of_mem_alternatives halternative
  have hdangling := (g.checked.2.2 _ hmem).2 _ halternative
  unfold dangling at hdangling
  rw [List.any_eq_false] at hdangling
  have hrule := hdangling _ hnext
  exact Nat.lt_of_not_le (by simpa using hrule)

/-- The elements left in a frame end one of the alternatives of its rule. -/
theorem remaining_cases (frame : Frame) :
    g.remaining frame = [] ∨ ∃ alternative ∈ g.alternatives frame.rule,
      g.remaining frame = alternative.drop frame.position := by
  unfold remaining
  by_cases hlt : frame.alternative < (g.alternatives frame.rule).length
  · rw [List.getD_eq_getElem _ _ hlt]
    exact Or.inr ⟨_, List.getElem_mem hlt, rfl⟩
  · rw [List.getD_eq_default _ _ (Nat.le_of_not_lt hlt), List.drop_nil]
    exact Or.inl rfl

theorem lt_of_mem_remaining {frame : Frame} {next : Nat}
    (h : GrammarElement.rule next ∈ g.remaining frame) : next < g.rules.length := by
  rcases g.remaining_cases frame with hnil | ⟨alternative, halternative, heq⟩
  · rw [hnil] at h
    exact absurd h List.not_mem_nil
  · rw [heq] at h
    exact g.lt_of_mem_alternative halternative (List.mem_of_mem_drop h)

theorem length_le_longest {rule : Nat} {alternative : List GrammarElement}
    (h : alternative ∈ g.alternatives rule) : alternative.length ≤ g.longest := by
  obtain ⟨_, hmem⟩ := g.mem_rules_of_mem_alternatives h
  exact List.le_max_of_le' 0
    (List.mem_flatMap.mpr ⟨_, hmem, List.mem_map_of_mem h⟩) (Nat.le_refl _)

theorem remaining_length_le (frame : Frame) : (g.remaining frame).length ≤ g.longest := by
  rcases g.remaining_cases frame with hnil | ⟨alternative, halternative, heq⟩
  · rw [hnil]
    exact Nat.zero_le _
  · rw [heq, List.length_drop]
    exact Nat.le_trans (Nat.sub_le _ _) (g.length_le_longest halternative)

theorem remaining_next (frame : Frame) : g.remaining frame.next = (g.remaining frame).tail := by
  unfold remaining Frame.next
  rw [List.tail_drop]

theorem entries_remaining {rule : Nat} {entry : Frame} (h : entry ∈ g.entries rule) :
    g.remaining entry ∈ g.alternatives rule := by
  unfold entries at h
  obtain ⟨alternative, hlt, rfl⟩ := List.mem_map.mp h
  rw [List.mem_range] at hlt
  unfold remaining
  rw [List.getD_eq_getElem _ _ hlt, List.drop_zero]
  exact List.getElem_mem hlt

theorem exists_entry {rule : Nat} {alternative : List GrammarElement}
    (h : alternative ∈ g.alternatives rule) :
    ∃ entry ∈ g.entries rule, g.remaining entry = alternative := by
  obtain ⟨index, hlt, rfl⟩ := List.getElem_of_mem h
  refine ⟨⟨rule, index, 0⟩, List.mem_map_of_mem (List.mem_range.mpr hlt), ?_⟩
  unfold remaining
  rw [List.getD_eq_getElem _ _ hlt, List.drop_zero]

end Checked

section Halts

theorem collect_eq_some {α β : Type} {body : α → Option (List β)} {items : List α}
    {found : List β} (h : collect body items = some found) (out : β) :
    out ∈ found ↔ ∃ item ∈ items, ∃ one, body item = some one ∧ out ∈ one := by
  induction items generalizing found with
  | nil =>
      cases h
      simp
  | cons item rest ih =>
      simp only [collect, Option.bind_eq_bind, Option.bind_eq_some_iff, Option.some.injEq] at h
      obtain ⟨first, hfirst, others, hothers, rfl⟩ := h
      rw [List.mem_append, ih hothers]
      simp [hfirst]

theorem collect_some {α β : Type} {body : α → Option (List β)} {items : List α}
    {found : List β} (h : collect body items = some found) :
    ∀ item ∈ items, ∃ one, body item = some one := by
  induction items generalizing found with
  | nil => exact fun _ hitem => absurd hitem List.not_mem_nil
  | cons item rest ih =>
      simp only [collect, Option.bind_eq_bind, Option.bind_eq_some_iff, Option.some.injEq] at h
      obtain ⟨first, hfirst, others, hothers, rfl⟩ := h
      intro other hother
      rcases List.mem_cons.mp hother with rfl | hrest
      · exact ⟨first, hfirst⟩
      · exact ih hothers other hrest

theorem collect_isSome {α β : Type} {body : α → Option (List β)} {items : List α}
    (h : ∀ item ∈ items, (body item).isSome) : (collect body items).isSome := by
  induction items with
  | nil => rfl
  | cons item rest ih =>
      obtain ⟨first, hfirst⟩ := Option.isSome_iff_exists.mp (h item List.mem_cons_self)
      obtain ⟨others, hothers⟩ := Option.isSome_iff_exists.mp
        (ih fun other hother => h other (List.mem_cons_of_mem _ hother))
      simp [collect, hfirst, hothers]

theorem collect_mono {α β : Type} {body body' : α → Option (List β)} {items : List α}
    {found : List β} (hbody : ∀ item one, body item = some one → body' item = some one)
    (h : collect body items = some found) : collect body' items = some found := by
  induction items generalizing found with
  | nil => exact h
  | cons item rest ih =>
      simp only [collect, Option.bind_eq_bind, Option.bind_eq_some_iff, Option.some.injEq] at h
      obtain ⟨first, hfirst, others, hothers, rfl⟩ := h
      simp [collect, hbody item first hfirst, ih hothers]

theorem expandWith_mono {fuel more : Nat} {stack : Stack} {found : List Stack}
    (h : g.expandWith fuel stack = some found) (hle : fuel ≤ more) :
    g.expandWith more stack = some found := by
  induction fuel generalizing more stack found with
  | zero => cases h
  | succ fuel ih =>
      obtain ⟨more, rfl⟩ := Nat.exists_eq_add_of_le' (Nat.lt_of_lt_of_le (Nat.succ_pos fuel) hle)
      have hle' : fuel ≤ more := by omega
      cases stack with
      | nil => exact h
      | cons frame rest =>
          cases helement : g.element frame with
          | none =>
              simp only [expandWith, helement] at h ⊢
              exact ih h hle'
          | some element =>
              cases element with
              | bytes byteClass =>
                  simp only [expandWith, helement] at h ⊢
                  exact h
              | rule rule =>
                  simp only [expandWith, helement] at h ⊢
                  by_cases hdeep : MAX_STACK_DEPTH ≤ (g.below frame rest).length
                  · rwa [if_pos hdeep] at h ⊢
                  · rw [if_neg hdeep] at h ⊢
                    exact collect_mono (fun _ _ hone => ih hone hle') h

/-- `expand` ends on a stack within some number of frames. -/
def Halts (fuel : Nat) (stack : Stack) : Prop := (g.expandWith fuel stack).isSome

variable {g}

theorem Halts.mono {fuel more : Nat} {stack : Stack} (h : g.Halts fuel stack)
    (hle : fuel ≤ more) : g.Halts more stack := by
  obtain ⟨found, hfound⟩ := Option.isSome_iff_exists.mp h
  exact Option.isSome_of_eq_some (g.expandWith_mono hfound hle)

theorem Halts.pop {fuel : Nat} {frame : Frame} {rest : Stack} (h : g.Halts fuel rest)
    (hdone : g.element frame = none) : g.Halts (fuel + 1) (frame :: rest) := by
  unfold Halts expandWith
  rw [hdone]
  exact h

theorem Halts.descend {fuel rule : Nat} {frame : Frame} {rest : Stack}
    (hrule : g.element frame = some (.rule rule))
    (h : ∀ entry ∈ g.entries rule, g.Halts fuel (entry :: g.below frame rest)) :
    g.Halts (fuel + 1) (frame :: rest) := by
  unfold Halts expandWith
  rw [hrule]
  by_cases hdeep : MAX_STACK_DEPTH ≤ (g.below frame rest).length
  · simp only [if_pos hdeep, Option.isSome_some]
  · simp only [if_neg hdeep]
    exact collect_isSome h

theorem matchesNothing_rule (nullable : List Bool) (rule : Nat) (rest : List GrammarElement) :
    matchesNothing nullable (.rule rule :: rest) =
      (nullable.getD rule false && matchesNothing nullable rest) := rfl

theorem mem_leftCorner_head {nullable : List Bool} {rule : Nat} {rest : List GrammarElement} :
    rule ∈ leftCorner nullable (.rule rule :: rest) := by
  unfold leftCorner
  split
  · exact List.mem_cons_self
  · exact List.mem_singleton_self rule

theorem mem_leftCorner_tail {nullable : List Bool} {rule next : Nat}
    {rest : List GrammarElement} (hnullable : nullable.getD rule false = true)
    (h : next ∈ leftCorner nullable rest) : next ∈ leftCorner nullable (.rule rule :: rest) := by
  unfold leftCorner
  rw [if_pos hnullable]
  exact List.mem_cons_of_mem _ h

/-- What a rule reference may add to the frames looked at: `cost` before the
stack under it is reached, and the stack under it only if the rule can match
nothing. -/
structure Costs (g : Grammar) (cost rule : Nat) : Prop where
  through : ∀ entry ∈ g.entries rule, ∀ fuel rest, g.Halts fuel rest →
    g.Halts (fuel + cost) (entry :: rest)
  stops : (nullableRules g.rules).getD rule false = false →
    ∀ entry ∈ g.entries rule, ∀ rest, g.Halts cost (entry :: rest)

/-- A frame costs at most one rule for each element left in it. -/
theorem halts_frame {cost : Nat} (elements : List GrammarElement) :
    ∀ frame : Frame, g.remaining frame = elements →
      (∀ rule ∈ leftCorner (nullableRules g.rules) elements, Costs g cost rule) →
      (∀ fuel rest, g.Halts fuel rest →
        g.Halts (fuel + (elements.length * (cost + 1) + 1)) (frame :: rest)) ∧
      (matchesNothing (nullableRules g.rules) elements = false →
        ∀ rest, g.Halts (elements.length * (cost + 1) + 1) (frame :: rest)) := by
  induction elements with
  | nil =>
      intro frame hremaining _
      have helement : g.element frame = none := by rw [element, hremaining, List.head?_nil]
      refine ⟨fun fuel rest hrest => ?_, fun hnothing => absurd hnothing (by simp [matchesNothing])⟩
      simpa using hrest.pop helement
  | cons first rest' ih =>
      intro frame hremaining hcorner
      have helement : g.element frame = some first := by
        rw [element, hremaining, List.head?_cons]
      have hnext : g.remaining frame.next = rest' := by
        rw [g.remaining_next, hremaining, List.tail_cons]
      cases first with
      | bytes byteClass =>
          have hhalts : ∀ fuel rest, g.Halts (fuel + 1) (frame :: rest) := by
            intro fuel rest
            unfold Halts expandWith
            rw [helement]
            rfl
          exact ⟨fun fuel rest _ => hhalts _ rest, fun _ rest => hhalts _ rest⟩
      | rule rule =>
          by_cases hnullable : (nullableRules g.rules).getD rule false = true
          · have hcosts : Costs g cost rule := hcorner rule mem_leftCorner_head
            have hbelow := ih frame.next hnext fun other hother =>
              hcorner other (mem_leftCorner_tail hnullable hother)
            have hsum : (rest'.length + 1) * (cost + 1) + 1 =
                (rest'.length * (cost + 1) + 1) + cost + 1 := by
              rw [Nat.succ_mul]
              omega
            rw [List.length_cons, hsum]
            constructor
            · intro fuel rest hrest
              have hunder : g.Halts (fuel + (rest'.length * (cost + 1) + 1))
                  (g.below frame rest) := by
                unfold below
                split
                · exact hbelow.1 fuel rest hrest
                · exact hrest.mono (by omega)
              apply Halts.descend helement
              intro entry hentry
              apply (hcosts.through entry hentry _ _ hunder).mono
              change _ ≤ fuel + (rest'.length * (cost + 1) + 1 + cost)
              omega
            · intro hnothing rest
              have hleft : matchesNothing (nullableRules g.rules) rest' = false := by
                rwa [matchesNothing_rule, hnullable, Bool.true_and] at hnothing
              have hunder : g.Halts (rest'.length * (cost + 1) + 1) (g.below frame rest) := by
                unfold below
                rw [element, hnext]
                cases rest' with
                | nil => simp [matchesNothing] at hleft
                | cons second more => exact hbelow.2 hleft rest
              apply Halts.descend helement
              intro entry hentry
              exact hcosts.through entry hentry _ _ hunder
          · have hfalse : (nullableRules g.rules).getD rule false = false := by
              simpa using hnullable
            have hcosts : Costs g cost rule := hcorner rule mem_leftCorner_head
            have hhalts : ∀ rest, g.Halts (cost + 1) (frame :: rest) := by
              intro rest
              apply Halts.descend helement
              intro entry hentry
              exact hcosts.stops hfalse entry hentry _
            have hle : cost + 1 ≤ (rest'.length + 1) * (cost + 1) + 1 := by
              rw [Nat.succ_mul]
              omega
            rw [List.length_cons]
            exact ⟨fun fuel rest _ => (hhalts rest).mono (by omega),
              fun _ rest => (hhalts rest).mono hle⟩

/-- A grounded rule costs what `ruleCost` says for its depth. -/
theorem costs_of_grounded {depth rule : Nat}
    (h : Grounded g.rules (nullableRules g.rules) depth rule) :
    Costs g (g.ruleCost depth) rule := by
  induction depth generalizing rule with
  | zero => exact h.elim
  | succ depth ih =>
      have hentry : ∀ entry ∈ g.entries rule,
          ∀ next ∈ leftCorner (nullableRules g.rules) (g.remaining entry),
            Costs g (g.ruleCost depth) next := by
        intro entry hmem next hnext
        exact ih (h next (List.mem_flatMap.mpr ⟨_, g.entries_remaining hmem, hnext⟩))
      have hle : ∀ entry, (g.remaining entry).length * (g.ruleCost depth + 1) + 1 ≤
          g.ruleCost (depth + 1) := fun entry =>
        Nat.succ_le_succ (Nat.mul_le_mul_right _ (g.remaining_length_le entry))
      constructor
      · intro entry hmem fuel rest hrest
        have hframe := halts_frame _ entry rfl (hentry entry hmem)
        exact (hframe.1 fuel rest hrest).mono (Nat.add_le_add_left (hle entry) _)
      · intro hnullable entry hmem rest
        have hframe := halts_frame _ entry rfl (hentry entry hmem)
        apply (hframe.2 _ rest).mono (hle entry)
        by_contra hmatches
        have halternative := g.entries_remaining hmem
        have hmarked := nullableRules_closed (g.mem_rules_of_mem_alternatives halternative).1
          halternative (by simpa using hmatches)
        rw [hnullable] at hmarked
        cases hmarked

variable (g)

theorem mem_of_mem_leftCorner {nullable : List Bool} {elements : List GrammarElement}
    {next : Nat} (h : next ∈ leftCorner nullable elements) :
    GrammarElement.rule next ∈ elements := by
  induction elements with
  | nil => exact absurd h List.not_mem_nil
  | cons first rest ih =>
      cases first with
      | bytes byteClass => exact absurd h List.not_mem_nil
      | rule rule =>
          unfold leftCorner at h
          split at h
          · rcases List.mem_cons.mp h with rfl | hrest
            · exact List.mem_cons_self
            · exact List.mem_cons_of_mem _ (ih hrest)
          · rw [List.mem_singleton.mp h]
            exact List.mem_cons_self

theorem costs {rule : Nat} (hlt : rule < g.rules.length) :
    Costs g (g.ruleCost g.rules.length) rule := by
  apply costs_of_grounded
  apply grounded_of_reject _ g.checked.1 hlt
  intro other next hnext
  obtain ⟨alternative, halternative, hcorner⟩ := List.mem_flatMap.mp hnext
  exact g.lt_of_mem_alternative halternative (mem_of_mem_leftCorner hcorner)

theorem halts (stack : Stack) : g.Halts (stack.length * g.frameCost + 1) stack := by
  induction stack with
  | nil =>
      unfold Halts expandWith
      rfl
  | cons frame rest ih =>
      have hframe := halts_frame _ frame rfl fun rule hrule =>
        g.costs (g.lt_of_mem_remaining (mem_of_mem_leftCorner hrule))
      apply (hframe.1 _ _ ih).mono
      have hle : (g.remaining frame).length * (g.ruleCost g.rules.length + 1) + 1 ≤
          g.frameCost :=
        Nat.succ_le_succ (Nat.mul_le_mul_right _ (g.remaining_length_le frame))
      rw [List.length_cons, Nat.succ_mul]
      omega

/-- The bound of `expand` is never reached. -/
theorem expandWith_isSome (stack : Stack) :
    g.expandWith (stack.length * g.frameCost + 1) stack = some (g.expand stack) := by
  obtain ⟨found, hfound⟩ := Option.isSome_iff_exists.mp (g.halts stack)
  unfold expand
  rw [hfound, Option.getD_some]

end Halts

end Grammar

end Riley.Constraint
