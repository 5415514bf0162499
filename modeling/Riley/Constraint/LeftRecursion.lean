import Riley.Constraint.Recursion
import Riley.Constraint.Stacks

/-!
The check for left recursion is exact: the marks of `nullable_rules` are the rules that
derive nothing, and the search fails when and only when some rule comes first again in a
leftmost derivation from itself.
-/

namespace Riley.Constraint

open Riley.Derivation
open Grammar (matchesNothing_rule mem_leftCorner_head mem_leftCorner_tail)

/-- The bodies of an element among these rules. -/
def Rewrites (rules : Rules) (element : GrammarElement) (body : List GrammarElement) : Prop :=
  ∃ rule, element = .rule rule ∧ body ∈ rules.getD rule []

/-- Some rule comes first again in a leftmost derivation from itself. -/
def LeftRecursive (rules : Rules) : Prop :=
  ∃ rule rest, Relation.TransGen (LeftStep (Rewrites rules)) [.rule rule] (.rule rule :: rest)

section Nullable

variable {rules : Rules}

/-- Marked rules derive nothing at all. -/
def Vanishing (rules : Rules) (nullable : List Bool) : Prop :=
  ∀ rule, nullable.getD rule false = true → Leftmost (Rewrites rules) [.rule rule] []

theorem Vanishing.alternative {nullable : List Bool} (h : Vanishing rules nullable)
    {elements : List GrammarElement} (hmatches : matchesNothing nullable elements = true) :
    Leftmost (Rewrites rules) elements [] := by
  induction elements with
  | nil => exact .refl
  | cons element rest ih =>
      cases element with
      | bytes byteClass => simp [matchesNothing] at hmatches
      | rule rule =>
          rw [matchesNothing_rule, Bool.and_eq_true] at hmatches
          have hfirst := (h rule hmatches.1).append rest
          exact hfirst.trans (ih hmatches.2)

theorem Vanishing.step {nullable : List Bool} (h : Vanishing rules nullable) (index : Nat) :
    Vanishing rules (nullableStep rules nullable index) := by
  unfold nullableStep
  split
  next hany =>
    obtain ⟨alternative, hmem, hmatches⟩ := List.any_eq_true.mp hany
    intro rule hrule
    by_cases hsame : rule = index
    · subst hsame
      have hstep : LeftStep (Rewrites rules) [.rule rule] (alternative ++ []) :=
        LeftStep.expand [] ⟨rule, rfl, hmem⟩
      rw [List.append_nil] at hstep
      exact .head hstep (h.alternative hmatches)
    · rw [getD_set_of_ne hsame] at hrule
      exact h rule hrule
  · exact h

theorem Vanishing.pass {nullable : List Bool} (h : Vanishing rules nullable) :
    Vanishing rules (nullablePass rules nullable) := by
  rw [nullablePass_eq]
  generalize List.range rules.length = indices
  induction indices generalizing nullable with
  | nil => exact h
  | cons index rest ih => exact ih (h.step index)

theorem vanishing_rounds (fuel : Nat) {nullable : List Bool} (h : Vanishing rules nullable) :
    Vanishing rules (nullableRounds rules fuel nullable) := by
  induction fuel generalizing nullable with
  | zero => exact h
  | succ fuel ih =>
      simp only [nullableRounds]
      split
      · exact h
      · exact ih h.pass

theorem vanishing_nullableRules : Vanishing rules (nullableRules rules) := by
  apply vanishing_rounds
  intro rule hrule
  rw [List.getD_eq_getElem?_getD, List.getElem?_replicate] at hrule
  split at hrule <;> simp at hrule

theorem lt_of_alternative {rule : Nat} {alternative : List GrammarElement}
    (h : alternative ∈ rules.getD rule []) : rule < rules.length := by
  by_contra hle
  rw [List.getD_eq_default _ _ (Nat.le_of_not_lt hle)] at h
  exact absurd h List.not_mem_nil

end Nullable

section Corners

variable {rules : Rules}

/-- The left corners of an alternative stand behind elements that match nothing. -/
theorem mem_leftCorner_iff {nullable : List Bool} {elements : List GrammarElement} {next : Nat} :
    next ∈ leftCorner nullable elements ↔
      ∃ before after, elements = before ++ .rule next :: after ∧
        matchesNothing nullable before = true := by
  induction elements with
  | nil => simp [leftCorner]
  | cons element rest ih =>
      cases element with
      | bytes byteClass =>
          constructor
          · exact fun h => absurd h List.not_mem_nil
          · rintro ⟨before, after, heq, hmatches⟩
            cases before with
            | nil => cases heq
            | cons first before =>
                cases heq
                simp [matchesNothing] at hmatches
      | rule rule =>
          constructor
          · intro h
            unfold leftCorner at h
            split at h
            next hnullable =>
              rcases List.mem_cons.mp h with rfl | hrest
              · exact ⟨[], rest, rfl, rfl⟩
              · obtain ⟨before, after, rfl, hmatches⟩ := ih.mp hrest
                refine ⟨.rule rule :: before, after, rfl, ?_⟩
                rw [matchesNothing_rule, hnullable, hmatches]
                rfl
            · rw [List.mem_singleton.mp h]
              exact ⟨[], rest, rfl, rfl⟩
          · rintro ⟨before, after, heq, hmatches⟩
            cases before with
            | nil =>
                cases heq
                exact mem_leftCorner_head
            | cons first before =>
                cases heq
                rw [matchesNothing_rule, Bool.and_eq_true] at hmatches
                exact mem_leftCorner_tail hmatches.1 (ih.mpr ⟨before, after, rfl, hmatches.2⟩)

/-- One rule at the left corner of another. -/
def Corner (rules : Rules) (rule next : Nat) : Prop :=
  next ∈ corners rules (nullableRules rules) rule

theorem corner_iff {rule next : Nat} : Corner rules rule next ↔
    ∃ alternative ∈ rules.getD rule [], next ∈ leftCorner (nullableRules rules) alternative :=
  List.mem_flatMap

/-- A left corner comes first in some derivation. -/
theorem Corner.derives {rule next : Nat} (h : Corner rules rule next) (rest : List GrammarElement) :
    ∃ after, Relation.TransGen (LeftStep (Rewrites rules)) (.rule rule :: rest)
      (.rule next :: after) := by
  obtain ⟨alternative, hmem, hcorner⟩ := corner_iff.mp h
  obtain ⟨before, after, rfl, hmatches⟩ := mem_leftCorner_iff.mp hcorner
  refine ⟨after ++ rest, ?_⟩
  have hstep : LeftStep (Rewrites rules) (.rule rule :: rest)
      ((before ++ .rule next :: after) ++ rest) := LeftStep.expand rest ⟨rule, rfl, hmem⟩
  have hvanish := (vanishing_nullableRules.alternative hmatches).append (.rule next :: after ++ rest)
  rw [List.append_assoc] at hstep
  exact .head' hstep hvanish

theorem corners_derive {rule next : Nat} (h : Relation.TransGen (Corner rules) rule next) :
    ∃ after, Relation.TransGen (LeftStep (Rewrites rules)) [.rule rule] (.rule next :: after) := by
  induction h with
  | single hcorner => exact hcorner.derives []
  | tail _ hcorner ih =>
      obtain ⟨rest, hfirst⟩ := ih
      obtain ⟨after, hlast⟩ := hcorner.derives rest
      exact ⟨after, hfirst.trans hlast⟩

/-- A rule that comes first in a derivation stands at a left corner of the form. -/
theorem first_of_leftmost {form rest : List GrammarElement} {rule : Nat}
    (h : Leftmost (Rewrites rules) form (.rule rule :: rest)) :
    ∃ before next after, form = before ++ .rule next :: after ∧
      matchesNothing (nullableRules rules) before = true ∧
      Relation.ReflTransGen (Corner rules) next rule := by
  induction h using Relation.ReflTransGen.head_induction_on with
  | refl => exact ⟨[], rule, rest, rfl, rfl, .refl⟩
  | head hstep hmore ih =>
      cases hstep with
      | @expand element body tail hexpands =>
          obtain ⟨first, rfl, hmem⟩ := hexpands
          obtain ⟨before, next, after, hform, hmatches, hcorners⟩ := ih
          have hskip : matchesNothing (nullableRules rules) body = true →
              matchesNothing (nullableRules rules) [.rule first] = true := by
            intro hbody
            rw [matchesNothing_rule, nullableRules_closed (lt_of_alternative hmem) hmem hbody]
            rfl
          rcases List.append_eq_append_iff.mp hform with ⟨more, rfl, htail⟩ | ⟨more, hbody, hmore⟩
          · -- The body vanishes, and the corner is further on.
            rw [matchesNothing, List.all_append, Bool.and_eq_true] at hmatches
            refine ⟨.rule first :: more, next, after, by rw [htail, List.cons_append], ?_, hcorners⟩
            rw [← List.singleton_append, matchesNothing, List.all_append, Bool.and_eq_true]
            exact ⟨hskip hmatches.1, hmatches.2⟩
          · cases more with
            | nil =>
                rw [List.append_nil] at hbody
                rw [List.nil_append] at hmore
                subst hbody
                exact ⟨[.rule first], next, after, by rw [← hmore]; rfl, hskip hmatches, hcorners⟩
            | cons element more =>
                obtain ⟨rfl, rfl⟩ := List.cons.inj hmore
                have hcorner : Corner rules first next :=
                  corner_iff.mpr ⟨body, hmem, mem_leftCorner_iff.mpr ⟨before, more, hbody, hmatches⟩⟩
                exact ⟨[], first, tail, rfl, rfl, .head hcorner hcorners⟩

theorem leftRecursive_iff :
    LeftRecursive rules ↔ ∃ rule, Relation.TransGen (Corner rules) rule rule := by
  constructor
  · rintro ⟨rule, rest, h⟩
    obtain ⟨middle, hstep, hmore⟩ := Relation.TransGen.head'_iff.mp h
    cases hstep with
    | @expand element body tail hexpands =>
        obtain ⟨first, hrule, hmem⟩ := hexpands
        cases hrule
        rw [List.append_nil] at hmore
        obtain ⟨before, next, after, hbody, hmatches, hcorners⟩ := first_of_leftmost hmore
        have hcorner : Corner rules rule next :=
          corner_iff.mpr ⟨body, hmem, mem_leftCorner_iff.mpr ⟨before, after, hbody, hmatches⟩⟩
        exact ⟨rule, .head' hcorner hcorners⟩
  · rintro ⟨rule, h⟩
    obtain ⟨rest, hderives⟩ := corners_derive h
    exact ⟨rule, rest, hderives⟩

/-- A grounded rule is on no cycle. -/
theorem Grounded.below {depth rule next : Nat}
    (h : Grounded rules (nullableRules rules) depth rule)
    (hcorners : Relation.TransGen (Corner rules) rule next) :
    ∃ less < depth, Grounded rules (nullableRules rules) less next := by
  induction hcorners with
  | single hcorner =>
      cases depth with
      | zero => exact h.elim
      | succ depth => exact ⟨depth, Nat.lt_succ_self depth, h _ hcorner⟩
  | tail _ hcorner ih =>
      obtain ⟨less, hless, hground⟩ := ih
      cases less with
      | zero => exact hground.elim
      | succ less => exact ⟨less, by omega, hground _ hcorner⟩

theorem not_cycle_of_grounded {depth rule : Nat}
    (h : Grounded rules (nullableRules rules) depth rule) :
    ¬ Relation.TransGen (Corner rules) rule rule := by
  intro hcycle
  induction depth using Nat.strong_induction_on with
  | h depth ih =>
      obtain ⟨less, hless, hground⟩ := h.below hcycle
      exact ih less hless hground

end Corners

section Search

variable {rules : Rules}

/-- Which rules are on the current path. -/
def path (marks : List Nat) : List Bool := marks.map (· == 1)

theorem path_set (marks : List Nat) (rule mark : Nat) :
    path (marks.set rule mark) = (path marks).set rule (mark == 1) := List.map_set

theorem path_getD (marks : List Nat) (rule : Nat) :
    (path marks).getD rule false = (marks.getD rule 0 == 1) := by
  unfold path
  rw [List.getD_eq_getElem?_getD, List.getD_eq_getElem?_getD, List.getElem?_map]
  cases marks[rule]? <;> rfl

theorem path_length (marks : List Nat) : (path marks).length = marks.length := List.length_map _

theorem set_of_getD {marks : List Bool} {rule : Nat} {mark : Bool}
    (h : marks.getD rule false = mark) : marks.set rule mark = marks := by
  by_cases hlt : rule < marks.length
  · rw [List.getD_eq_getElem _ _ hlt] at h
    rw [← h, List.set_getElem_self]
  · exact List.set_eq_of_length_le (Nat.le_of_not_lt hlt)

theorem visitAll_path {body : Nat → List Nat → Except GrammarError (List Nat)} {items : List Nat}
    (hbody : ∀ item ∈ items, ∀ marks marks', body item marks = .ok marks' → path marks' = path marks)
    {marks marks' : List Nat} (hrun : visitAll body items marks = .ok marks') :
    path marks' = path marks := by
  induction items generalizing marks with
  | nil =>
      cases hrun
      rfl
  | cons item rest ih =>
      cases hfirst : body item marks with
      | error error => simp [visitAll, hfirst, bind, Except.bind] at hrun
      | ok middle =>
          simp only [visitAll, hfirst, bind, Except.bind] at hrun
          have hone := hbody item List.mem_cons_self marks middle hfirst
          exact (ih (fun other hother => hbody other (List.mem_cons_of_mem _ hother)) hrun).trans hone

/-- A search that succeeds leaves the path as it was. -/
theorem visit_path (nullable : List Bool) (fuel : Nat) {rule : Nat} {marks marks' : List Nat}
    (hrun : visit rules nullable fuel rule marks = .ok marks') : path marks' = path marks := by
  induction fuel generalizing rule marks marks' with
  | zero => cases hrun
  | succ fuel ih =>
      unfold visit at hrun
      split at hrun
      · cases hrun
      · cases hrun
        rfl
      next hone htwo =>
        cases hall : visitAll (visit rules nullable fuel)
            ((rules.getD rule []).flatMap (leftCorner nullable)) (marks.set rule 1) with
        | error error =>
            simp only [hall, bind, Except.bind] at hrun
            cases hrun
        | ok middle =>
            simp only [hall, bind, Except.bind, Except.ok.injEq] at hrun
            subst hrun
            have hsame := visitAll_path (fun _ _ _ _ hbody => ih hbody) hall
            have hoff : (path marks).getD rule false = false := by
              rw [path_getD]
              exact beq_false_of_ne hone
            rw [path_set, hsame, path_set, List.set_set]
            exact set_of_getD hoff

theorem visitAll_error {body : Nat → List Nat → Except GrammarError (List Nat)} {items : List Nat}
    (hbody : ∀ item ∈ items, ∀ marks marks', body item marks = .ok marks' → path marks' = path marks)
    {marks : List Nat} {error : GrammarError} (hrun : visitAll body items marks = .error error) :
    ∃ item ∈ items, ∃ middle, path middle = path marks ∧ body item middle = .error error := by
  induction items generalizing marks with
  | nil => cases hrun
  | cons item rest ih =>
      cases hfirst : body item marks with
      | error error' =>
          simp only [visitAll, hfirst, bind, Except.bind, Except.error.injEq] at hrun
          subst hrun
          exact ⟨item, List.mem_cons_self, marks, rfl, hfirst⟩
      | ok middle =>
          simp only [visitAll, hfirst, bind, Except.bind] at hrun
          have hone := hbody item List.mem_cons_self marks middle hfirst
          obtain ⟨other, hother, before, hpath, herror⟩ :=
            ih (fun other hother => hbody other (List.mem_cons_of_mem _ hother)) hrun
          exact ⟨other, List.mem_cons_of_mem _ hother, before, hpath.trans hone, herror⟩

/-- A search fails on a cycle only: the rules on the path lead to the one visited, and no path
is longer than there are rules. -/
theorem visit_error (fuel : Nat) {rule : Nat} {marks : List Nat} {error : GrammarError}
    (hlength : marks.length = rules.length) (hlt : rule < rules.length)
    (hcorners : ∀ rule, ∀ next ∈ corners rules (nullableRules rules) rule, next < rules.length)
    (hpath : ∀ above, (path marks).getD above false = true →
      Relation.TransGen (Corner rules) above rule)
    (hfuel : rules.length < fuel + (path marks).count true)
    (hrun : visit rules (nullableRules rules) fuel rule marks = .error error) :
    error = .leftRecursion ∧ ∃ rule, Relation.TransGen (Corner rules) rule rule := by
  induction fuel generalizing rule marks with
  | zero =>
      have hle := List.count_le_length (a := true) (l := path marks)
      rw [path_length] at hle
      omega
  | succ fuel ih =>
      unfold visit at hrun
      split at hrun
      next hone =>
        cases hrun
        refine ⟨rfl, rule, hpath rule ?_⟩
        rw [path_getD, hone]
        rfl
      · cases hrun
      next hone htwo =>
        cases hall : visitAll (visit rules (nullableRules rules) fuel)
            ((rules.getD rule []).flatMap (leftCorner (nullableRules rules))) (marks.set rule 1) with
        | ok middle =>
            simp only [hall, bind, Except.bind] at hrun
            cases hrun
        | error error' =>
            simp only [hall, bind, Except.bind, Except.error.injEq] at hrun
            subst hrun
            obtain ⟨next, hnext, middle, hsame, herror⟩ :=
              visitAll_error (fun _ _ _ _ hbody => visit_path _ _ hbody) hall
            have hoff : (path marks).getD rule false = false := by
              rw [path_getD]
              exact beq_false_of_ne hone
            have hentered : path middle = (path marks).set rule true := by
              rw [hsame, path_set]
              rfl
            refine ih ?_ (hcorners rule next hnext) ?_ ?_ herror
            · rw [← path_length, hentered, List.length_set, path_length, hlength]
            · intro above habove
              rw [hentered] at habove
              by_cases hrule : above = rule
              · subst hrule
                exact .single hnext
              · rw [getD_set_of_ne hrule] at habove
                exact (hpath above habove).tail hnext
            · have hinside : rule < (path marks).length := by rw [path_length, hlength]; exact hlt
              have hget : (path marks)[rule] = false := by
                rwa [List.getD_eq_getElem _ _ hinside] at hoff
              have hcount : ((path marks).set rule true).count true = (path marks).count true + 1 := by
                rw [List.count_set hinside]
                simp [hget]
              rw [hentered, hcount]
              omega

theorem reject_error {error : GrammarError}
    (hcorners : ∀ rule, ∀ next ∈ corners rules (nullableRules rules) rule, next < rules.length)
    (h : rejectLeftRecursion rules = .error error) :
    error = .leftRecursion ∧ LeftRecursive rules := by
  rw [leftRecursive_iff]
  unfold rejectLeftRecursion at h
  cases hall : visitAll (visit rules (nullableRules rules) (rules.length + 1))
      (List.range rules.length) (List.replicate rules.length 0) with
  | ok marks => simp [hall, bind, Except.bind] at h
  | error error' =>
      simp only [hall, bind, Except.bind, Except.error.injEq] at h
      subst h
      obtain ⟨rule, hrule, middle, hsame, herror⟩ :=
        visitAll_error (fun _ _ _ _ hbody => visit_path _ _ hbody) hall
      have hlength : middle.length = rules.length := by
        rw [← path_length, hsame, path_length, List.length_replicate]
      refine visit_error _ hlength (List.mem_range.mp hrule) hcorners (fun above habove => ?_)
        (by omega) herror
      rw [hsame, path_getD, List.getD_eq_getElem?_getD, List.getElem?_replicate] at habove
      split at habove <;> simp at habove

/-- The search succeeds when and only when no rule is left-recursive. -/
theorem reject_ok_iff
    (hcorners : ∀ rule, ∀ next ∈ corners rules (nullableRules rules) rule, next < rules.length) :
    rejectLeftRecursion rules = .ok () ↔ ¬ LeftRecursive rules := by
  constructor
  · intro hok hrecursive
    obtain ⟨rule, hcycle⟩ := leftRecursive_iff.mp hrecursive
    obtain ⟨next, hcorner, _⟩ := Relation.TransGen.head'_iff.mp hcycle
    obtain ⟨alternative, hmem, _⟩ := corner_iff.mp hcorner
    exact not_cycle_of_grounded (grounded_of_reject hcorners hok (lt_of_alternative hmem)) hcycle
  · intro hnone
    cases hrun : rejectLeftRecursion rules with
    | ok done => rfl
    | error error => exact absurd (reject_error hcorners hrun).2 hnone

end Search

section Build

/-- What `build` refuses before it looks for left recursion: a missing start, a rule without
alternatives or a reference to a missing rule. -/
def Malformed (rules : Rules) (start : Nat) : Prop :=
  rules.length ≤ start ∨ ∃ alternatives ∈ rules, alternatives = [] ∨
    ∃ alternative ∈ alternatives, ∃ rule, .rule rule ∈ alternative ∧ rules.length ≤ rule

theorem dangling_iff {count : Nat} {alternative : List GrammarElement} :
    dangling count alternative = true ↔ ∃ rule, .rule rule ∈ alternative ∧ count ≤ rule := by
  unfold dangling
  rw [List.any_eq_true]
  constructor
  · rintro ⟨element, hmem, helement⟩
    cases element with
    | bytes byteClass => cases helement
    | rule rule => exact ⟨rule, hmem, of_decide_eq_true helement⟩
  · rintro ⟨rule, hmem, hle⟩
    exact ⟨.rule rule, hmem, decide_eq_true hle⟩

theorem checkRules_eq (rules : Rules) (start : Nat) :
    Malformed rules start ∧ checkRules rules start = .error .malformedRule ∨
      ¬ Malformed rules start ∧ checkRules rules start = rejectLeftRecursion rules := by
  unfold checkRules
  split
  next hstart => exact .inl ⟨.inl hstart, rfl⟩
  next hstart =>
    split
    next hany =>
      obtain ⟨alternatives, hmem, hbad⟩ := List.any_eq_true.mp hany
      refine .inl ⟨.inr ⟨alternatives, hmem, ?_⟩, rfl⟩
      rw [Bool.or_eq_true, List.isEmpty_iff, List.any_eq_true] at hbad
      rcases hbad with hnil | ⟨alternative, halternative, hdangling⟩
      · exact .inl hnil
      · exact .inr ⟨alternative, halternative, dangling_iff.mp hdangling⟩
    next hany =>
      refine .inr ⟨?_, rfl⟩
      rintro (hle | ⟨alternatives, hmem, hbad⟩)
      · exact hstart hle
      · refine hany (List.any_eq_true.mpr ⟨alternatives, hmem, ?_⟩)
        rw [Bool.or_eq_true, List.isEmpty_iff, List.any_eq_true]
        rcases hbad with hnil | ⟨alternative, halternative, hdangling⟩
        · exact .inl hnil
        · exact .inr ⟨alternative, halternative, dangling_iff.mpr hdangling⟩

/-- The corners of rules that pass the other checks exist. -/
theorem corners_lt {rules : Rules} {start : Nat} (h : ¬ Malformed rules start) :
    ∀ rule, ∀ next ∈ corners rules (nullableRules rules) rule, next < rules.length := by
  intro rule next hcorner
  obtain ⟨alternative, hmem, hnext⟩ := corner_iff.mp hcorner
  by_contra hle
  have hlt := lt_of_alternative hmem
  rw [List.getD_eq_getElem _ _ hlt] at hmem
  exact h (.inr ⟨rules[rule], List.getElem_mem hlt, .inr ⟨alternative, hmem, next,
    Grammar.mem_of_mem_leftCorner hnext, Nat.le_of_not_lt hle⟩⟩)

theorem checkRules_malformed_iff {rules : Rules} {start : Nat} :
    checkRules rules start = .error .malformedRule ↔ Malformed rules start := by
  rcases checkRules_eq rules start with ⟨hbad, hrun⟩ | ⟨hgood, hrun⟩
  · exact ⟨fun _ => hbad, fun _ => hrun⟩
  · constructor
    · intro h
      rw [hrun] at h
      cases (reject_error (corners_lt hgood) h).1
    · exact fun hbad => absurd hbad hgood

theorem checkRules_recursion_iff {rules : Rules} {start : Nat} :
    checkRules rules start = .error .leftRecursion ↔
      ¬ Malformed rules start ∧ LeftRecursive rules := by
  rcases checkRules_eq rules start with ⟨hbad, hrun⟩ | ⟨hgood, hrun⟩
  · rw [hrun]
    exact ⟨fun h => (by cases h), fun h => absurd hbad h.1⟩
  · rw [hrun]
    constructor
    · exact fun h => ⟨hgood, (reject_error (corners_lt hgood) h).2⟩
    · rintro ⟨_, hrecursive⟩
      cases hreject : rejectLeftRecursion rules with
      | ok done => exact absurd hrecursive ((reject_ok_iff (corners_lt hgood)).mp hreject)
      | error error => rw [(reject_error (corners_lt hgood) hreject).1]

theorem build_eq_error {builder : GrammarBuilder} {start : Nat} {error : GrammarError} :
    builder.build start = .error error ↔ checkRules builder.rules start = .error error := by
  unfold GrammarBuilder.build
  split
  next hok => simp [hok]
  next found herror => simp [herror]

/-- `build` refuses a grammar for recursion when and only when some rule comes first again in
a leftmost derivation from itself, and `expand` ends on every stack of the others. -/
theorem build_leftRecursion (builder : GrammarBuilder) (start : Nat) :
    (builder.build start = .error .malformedRule ↔ Malformed builder.rules start) ∧
      (builder.build start = .error .leftRecursion ↔
        ¬ Malformed builder.rules start ∧ LeftRecursive builder.rules) ∧
      ∀ g, builder.build start = .ok g →
        ∀ stack, ∃ fuel, ∀ more, fuel ≤ more → g.expandWith more stack = some (g.expand stack) := by
  rw [build_eq_error, build_eq_error]
  refine ⟨checkRules_malformed_iff, checkRules_recursion_iff, fun g _ stack => ?_⟩
  exact ⟨_, fun more hle => g.expandWith_mono (g.expandWith_isSome stack) hle⟩

end Build

end Riley.Constraint
