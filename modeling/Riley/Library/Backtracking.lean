import Mathlib.Data.List.DropRight

/-!
Regular expressions as a backtracking matcher reads them: alternatives in their
order, loops that give back one round at a time, and a look at what must not come
next. A match is known by what it leaves of the text.
-/

namespace Riley.Backtracking

/-- Regular expressions over characters of any kind. -/
inductive Regex (α : Type)
  | empty
  | one (test : α → Bool)
  | seq (left right : Regex α)
  | alt (left right : Regex α)
  | star (body : Regex α)
  | notAhead (body : Regex α)

variable {α : Type}

/-- What a greedy loop may leave, the longest match first. A round that takes nothing
ends the loop. -/
def rounds (body : List α → List (List α)) : Nat → List α → List (List α)
  | 0, input => [input]
  | fuel + 1, input =>
      ((body input).filter fun rest => rest.length < input.length).flatMap (rounds body fuel) ++
        [input]

namespace Regex

/-- What the matches of an expression at the beginning of a text leave, in the order of
preference. -/
def rests : Regex α → List α → List (List α)
  | empty, input => [input]
  | one _, [] => []
  | one test, first :: rest => if test first then [rest] else []
  | seq left right, input => (left.rests input).flatMap right.rests
  | alt left right, input => left.rests input ++ right.rests input
  | star body, input => rounds body.rests input.length input
  | notAhead body, input => if body.rests input = [] then [input] else []

def plus (body : Regex α) : Regex α := body.seq body.star

/-- At most one match, one if possible. -/
def optional (body : Regex α) : Regex α := body.alt empty

/-- At most so many matches, as many as possible. -/
def upTo (body : Regex α) : Nat → Regex α
  | 0 => empty
  | count + 1 => optional (body.seq (body.upTo count))

/-- The characters of a text, up to some equality. -/
def word (same : α → α → Bool) (text : List α) : Regex α :=
  text.foldr (fun expected => (one fun actual => same actual expected).seq) empty

def anyOf (choices : List (Regex α)) : Regex α := choices.foldr alt (one fun _ => false)

/-- What the preferred match leaves. -/
def preferred (regex : Regex α) (input : List α) : Option (List α) := (regex.rests input).head?

/-- The leftmost match: its text and what comes after it. -/
def search (regex : Regex α) : List α → Option (List α × List α)
  | [] => (regex.preferred []).map fun rest => ([], rest)
  | first :: input =>
      match regex.preferred (first :: input) with
      | some rest => some ((first :: input).take ((first :: input).length - rest.length), rest)
      | none => regex.search input

/-- The successive leftmost matches. After a match of nothing the next one begins a
character later. -/
def successive (regex : Regex α) : Nat → List α → List (List α)
  | 0, _ => []
  | fuel + 1, input =>
      match regex.search input with
      | none => []
      | some ([], []) => [[]]
      | some ([], _ :: rest) => [] :: regex.successive fuel rest
      | some (found, rest) => found :: regex.successive fuel rest

/-- All matches in a text. -/
def findAll (regex : Regex α) (input : List α) : List (List α) :=
  regex.successive (input.length + 1) input

section Preferred

variable (left right body : Regex α) (test : α → Bool) (input : List α)

@[simp] theorem preferred_empty : (empty : Regex α).preferred input = some input := rfl

@[simp] theorem preferred_one_nil : (one test).preferred [] = none := rfl

@[simp] theorem preferred_one_cons (first : α) (rest : List α) :
    (one test).preferred (first :: rest) = if test first then some rest else none := by
  unfold preferred rests
  split <;> rfl

theorem preferred_seq :
    (left.seq right).preferred input = (left.rests input).findSome? right.preferred :=
  List.head?_flatMap

@[simp] theorem preferred_alt :
    (left.alt right).preferred input = (left.preferred input).or (right.preferred input) :=
  List.head?_append

theorem preferred_notAhead :
    body.notAhead.preferred input = if body.preferred input = none then some input else none := by
  unfold preferred
  simp only [rests, List.head?_eq_none_iff]
  split <;> rfl

/-- A character in front of an expression. -/
theorem preferred_one_seq (first : α) (rest : List α) :
    ((one test).seq right).preferred (first :: rest) =
      if test first then right.preferred rest else none := by
  rw [preferred_seq, rests]
  split
  · rw [List.findSome?_singleton]
  · rfl

/-- Without the optional part where the rest does not match behind it. -/
theorem preferred_optional_seq :
    (left.optional.seq right).preferred input =
      ((left.seq right).preferred input).or (right.preferred input) := by
  rw [preferred_seq, preferred_seq, optional, rests, List.findSome?_append, rests,
    List.findSome?_singleton]

theorem preferred_anyOf (choices : List (Regex α)) :
    (anyOf choices).preferred input = choices.findSome? (·.preferred input) := by
  induction choices with
  | nil => cases input <;> rfl
  | cons choice choices ih =>
      have hcons : anyOf (choice :: choices) = choice.alt (anyOf choices) := rfl
      rw [hcons, preferred_alt, ih, List.findSome?_cons]
      cases choice.preferred input <;> rfl

end Preferred

section Runs

variable (test : α → Bool)

/-- What a loop over the characters of a class may leave. -/
def givenBack : List α → List (List α)
  | [] => [[]]
  | first :: rest => if test first then givenBack rest ++ [first :: rest] else [first :: rest]

theorem rounds_one (fuel : Nat) (input : List α) (hfuel : input.length ≤ fuel) :
    rounds (one test).rests fuel input = givenBack test input := by
  induction input generalizing fuel with
  | nil => cases fuel <;> rfl
  | cons first rest ih =>
      cases fuel with
      | zero => cases hfuel
      | succ fuel =>
          rw [rounds, rests, givenBack]
          split
          · have hshorter : rest.length < (first :: rest).length := Nat.lt_succ_self _
            have hkept :
                [rest].filter (fun left => left.length < (first :: rest).length) = [rest] :=
              List.filter_cons_of_pos (decide_eq_true hshorter)
            rw [hkept, List.flatMap_singleton, ih fuel (Nat.le_of_succ_le_succ hfuel)]
          · rfl

theorem rests_star_one (input : List α) : (star (one test)).rests input = givenBack test input :=
  rounds_one test input.length input (Nat.le_refl _)

theorem head?_givenBack (input : List α) :
    (givenBack test input).head? = some (input.dropWhile test) := by
  induction input with
  | nil => rfl
  | cons first rest ih =>
      rw [givenBack, List.dropWhile_cons]
      split
      · rw [List.head?_append, ih, Option.some_or]
      · rfl

theorem preferred_star_one (input : List α) :
    (star (one test)).preferred input = some (input.dropWhile test) := by
  rw [preferred, rests_star_one, head?_givenBack]

theorem preferred_plus_one (first : α) (rest : List α) :
    (plus (one test)).preferred (first :: rest) =
      if test first then some (rest.dropWhile test) else none := by
  rw [plus, preferred_one_seq, preferred_star_one]

theorem preferred_upTo_one (count : Nat) (input : List α) :
    ((one test).upTo count).preferred input =
      some (input.drop ((input.takeWhile test).take count).length) := by
  induction count generalizing input with
  | zero => rfl
  | succ count ih =>
      rw [upTo, optional, preferred_alt, preferred_empty]
      cases input with
      | nil => rfl
      | cons first rest =>
          rw [preferred_one_seq, List.takeWhile_cons]
          split
          · rw [ih, Option.some_or]
            rfl
          · rfl

/-- A loop over a class, and what it leaves is read to its end by another. -/
theorem preferred_seq_of_total (left right : Regex α)
    (htotal : ∀ input, (right.preferred input).isSome) (input : List α) :
    (left.seq right).preferred input = (left.preferred input).bind right.preferred := by
  rw [preferred_seq, preferred]
  cases left.rests input with
  | nil => rfl
  | cons rest others => exact List.findSome?_cons_of_isSome (htotal rest)

end Runs

section Back

variable (test : α → Bool)

theorem findSome?_givenBack_cons {β : Type} (read : List α → Option β) {first : α}
    (hfirst : test first = true) (rest : List α) :
    (givenBack test (first :: rest)).findSome? read =
      ((givenBack test rest).findSome? read).or (read (first :: rest)) := by
  rw [givenBack, if_pos hfirst, List.findSome?_append, List.findSome?_singleton]

/-- The end of the last character of a class in a run. -/
def endOfLast (mark : α → Bool) (run : List α) : Nat :=
  (run.reverse.dropWhile (!mark ·)).length

theorem endOfLast_cons (mark : α → Bool) (first : α) (run : List α) :
    endOfLast mark (first :: run) =
      if endOfLast mark run = 0 then (if mark first then 1 else 0)
      else endOfLast mark run + 1 := by
  unfold endOfLast
  rw [List.reverse_cons, List.dropWhile_append]
  cases hrun : run.reverse.dropWhile (!mark ·) with
  | nil => cases hfirst : mark first <;> simp [hfirst]
  | cons last others => simp

/-- Where no character of the class is in a run, none is at its beginning. -/
theorem dropWhile_of_endOfLast {mark : α → Bool} (hmark : ∀ c, mark c = true → test c = true)
    {input : List α} (hnone : endOfLast mark (input.takeWhile test) = 0) :
    input.dropWhile mark = input := by
  cases input with
  | nil => rfl
  | cons first rest =>
      apply List.dropWhile_cons_of_neg
      intro hfirst
      rw [List.takeWhile_cons_of_pos (hmark first hfirst), endOfLast_cons, if_pos hfirst] at hnone
      split at hnone <;> cases hnone

/-- A loop over a class, and then at least one of its characters of another class: the
match ends after the last of these in the run. -/
theorem preferred_star_seq_plus {mark : α → Bool} (hmark : ∀ c, mark c = true → test c = true)
    (input : List α) :
    ((star (one test)).seq (plus (one mark))).preferred input =
      if endOfLast mark (input.takeWhile test) = 0 then none
      else some (input.drop (endOfLast mark (input.takeWhile test))) := by
  rw [preferred_seq, rests_star_one]
  induction input with
  | nil => rfl
  | cons first rest ih =>
      by_cases hfirst : test first = true
      · rw [findSome?_givenBack_cons test _ hfirst, ih, List.takeWhile_cons_of_pos hfirst,
          preferred_plus_one, endOfLast_cons]
        by_cases hnone : endOfLast mark (rest.takeWhile test) = 0
        · rw [if_pos hnone, if_pos hnone, dropWhile_of_endOfLast test hmark hnone, Option.none_or]
          cases mark first <;> rfl
        · rw [if_neg hnone, if_neg hnone, if_neg (Nat.succ_ne_zero _), Option.some_or]
          rfl
      · have hother : ¬ mark first = true := fun h => hfirst (hmark first h)
        rw [givenBack, if_neg hfirst, List.findSome?_singleton, preferred_plus_one, if_neg hother,
          List.takeWhile_cons_of_neg hfirst]
        rfl

/-- A loop over a class that stops where nothing else follows: it gives back its last round
unless the text ends there. -/
theorem findSome?_givenBack_notAhead (input : List α) :
    (givenBack test input).findSome? (one (!test ·)).notAhead.preferred =
      if input.dropWhile test = [] then some []
      else if input.takeWhile test = [] then none
      else some (input.drop ((input.takeWhile test).length - 1)) := by
  induction input with
  | nil => rfl
  | cons first rest ih =>
      by_cases hfirst : test first = true
      · have hhere : (one (!test ·)).notAhead.preferred (first :: rest) = some (first :: rest) := by
          rw [preferred_notAhead, preferred_one_cons, hfirst]
          rfl
        rw [findSome?_givenBack_cons test _ hfirst, ih, hhere, List.takeWhile_cons_of_pos hfirst,
          List.dropWhile_cons_of_pos hfirst]
        by_cases hend : rest.dropWhile test = []
        · rw [if_pos hend, if_pos hend, Option.some_or]
        · rw [if_neg hend, if_neg hend, if_neg (List.cons_ne_nil _ _), List.length_cons,
            Nat.add_sub_cancel]
          cases hrun : rest.takeWhile test with
          | nil => rfl
          | cons second run =>
              rw [if_neg (List.cons_ne_nil _ _), Option.some_or, List.length_cons,
                Nat.add_sub_cancel]
              rfl
      · have hhere : (one (!test ·)).notAhead.preferred (first :: rest) = none := by
          have hother : (!test first) = true := by simpa using hfirst
          rw [preferred_notAhead, preferred_one_cons, if_pos hother,
            if_neg (Option.some_ne_none rest)]
        rw [givenBack, if_neg hfirst, List.findSome?_singleton, hhere,
          List.dropWhile_cons_of_neg hfirst, List.takeWhile_cons_of_neg hfirst,
          if_neg (List.cons_ne_nil _ _), if_pos rfl]

theorem preferred_plus_seq (right : Regex α) (first : α) (rest : List α) :
    ((plus (one test)).seq right).preferred (first :: rest) =
      if test first then (givenBack test rest).findSome? right.preferred else none := by
  rw [preferred_seq, plus, rests, rests]
  split
  · rw [List.flatMap_singleton, rests_star_one]
  · rfl

end Back

section Successive

variable {regex : Regex α}

/-- Where the expression matches something, that is the next piece. -/
theorem successive_cons {first : α} {rest left : List α} (fuel : Nat)
    (hmatch : regex.preferred (first :: rest) = some left)
    (hshorter : left.length < (first :: rest).length) :
    regex.successive (fuel + 1) (first :: rest) =
      (first :: rest).take ((first :: rest).length - left.length) ::
        regex.successive fuel left := by
  obtain ⟨count, hcount⟩ := Nat.exists_eq_add_one_of_ne_zero (Nat.sub_ne_zero_of_lt hshorter)
  rw [successive, search, hmatch]
  simp only [hcount, List.take_succ_cons]

theorem successive_nil (fuel : Nat) (hmatch : regex.preferred [] = none) :
    regex.successive fuel [] = [] := by
  cases fuel with
  | zero => rfl
  | succ fuel => rw [successive, search, hmatch, Option.map_none]

end Successive

end Regex

end Riley.Backtracking
