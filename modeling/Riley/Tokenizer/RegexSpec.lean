import Riley.Library.Backtracking
import Riley.Tokenizer.PiecesSpec

/-!
The scanners against the expressions they replace. Each branch of a scanner is one
alternative of its expression: the number of characters it consumes is what a
backtracking matcher takes there.
-/

namespace Riley.Tokenizer

open Backtracking Backtracking.Regex
open Utf8 (Text)

/-- Letters, numbers and blanks exclude each other, and the blanks that the scanners name
are blanks. -/
structure Unicode.Separate (unicode : Unicode) : Prop where
  letter (c : Char) : unicode.isGeneralCategoryLetter c = true → unicode.isWhitespace c = false
  number (c : Char) : unicode.isNumeric c = true → unicode.isWhitespace c = false
  space : unicode.isWhitespace ' ' = true
  newline (c : Char) : isNewline c = true → unicode.isWhitespace c = true

section Expressions

variable (unicode : Unicode)

namespace Unicode

/-- `\p{L}` -/
def letter : Regex Char := .one unicode.isGeneralCategoryLetter

/-- `\p{N}` -/
def number : Regex Char := .one unicode.isNumeric

/-- `\s` -/
def blank : Regex Char := .one unicode.isWhitespace

/-- `[^\s\p{L}\p{N}]` -/
def other : Regex Char := .one fun character =>
  !unicode.isWhitespace character && !unicode.isGeneralCategoryLetter character &&
    !unicode.isNumeric character

/-- ` ?` -/
def space : Regex Char := optional (.one (· = ' '))

/-- `[\r\n]` -/
def newline : Regex Char := .one isNewline

/-- `\s+(?!\S)` -/
def blanksBefore : Regex Char := unicode.blank.plus.seq (.notAhead (.one (!unicode.isWhitespace ·)))

/-- `\p{N}|[^\p{N}]+` -/
def digitsRegex : Regex Char := unicode.number.alt (plus (.one (!unicode.isNumeric ·)))

/-- `'s|'t|'re|'ve|'m|'ll|'d| ?\p{L}+| ?\p{N}+| ?[^\s\p{L}\p{N}]+|\s+(?!\S)|\s+` -/
def gpt2Regex : Regex Char :=
  anyOf
    [anyOf (contractions.map (word fun actual expected => actual = expected)),
      space.seq unicode.letter.plus, space.seq unicode.number.plus, space.seq unicode.other.plus,
      unicode.blanksBefore, unicode.blank.plus]

/-- `(?i:'s|'t|'re|'ve|'m|'ll|'d)|[^\r\n\p{L}\p{N}]?\p{L}+|\p{N}{1,n}| ?[^\s\p{L}\p{N}]+[\r\n]*|`
`\s*[\r\n]+|\s+(?!\S)|\s+` -/
def splitRegex (maximumNumberRun : Nat) : Regex Char :=
  anyOf
    [anyOf (contractions.map (word qwen2RegexCaseEq)),
      (optional (.one fun character => !isNewline character &&
        !unicode.isGeneralCategoryLetter character && !unicode.isNumeric character)).seq
          unicode.letter.plus,
      unicode.number.seq (unicode.number.upTo (maximumNumberRun - 1)),
      space.seq (unicode.other.plus.seq newline.star),
      unicode.blank.star.seq newline.plus, unicode.blanksBefore, unicode.blank.plus]

end Unicode

end Expressions

section Words

/-- What is left behind the contraction that a text begins with. -/
theorem findSome?_ite {α β : Type} (test : α → Bool) (f : α → β) (items : List α) :
    items.findSome? (fun item => if test item then some (f item) else none) =
      (items.find? test).map f := by
  induction items with
  | nil => rfl
  | cons item items ih =>
      rw [List.findSome?_cons, List.find?_cons, ih]
      cases test item <;> rfl

theorem preferred_word_cons {same : Char → Char → Bool} (expected : Char) (text : Text)
    (input : Text) :
    (word same (expected :: text)).preferred input =
      ((Regex.one fun actual => same actual expected).seq (word same text)).preferred input := rfl

theorem preferred_word_exact (text input : Text) :
    (word (fun actual expected => actual = expected) text).preferred input =
      if text.isPrefixOf input then some (input.drop text.length) else none := by
  induction text generalizing input with
  | nil => rfl
  | cons expected text ih =>
      cases input with
      | nil => rfl
      | cons actual input =>
          rw [preferred_word_cons, preferred_one_seq, ih, List.isPrefixOf]
          by_cases hsame : actual = expected
          · subst hsame
            simp
          · have hdiffers : (expected == actual) = false := beq_false_of_ne (Ne.symm hsame)
            rw [hdiffers]
            simp [hsame]

theorem preferred_word_case (text input : Text) :
    (word qwen2RegexCaseEq text).preferred input =
      if qwen2ContractionMatches input text then some (input.drop text.length) else none := by
  induction text generalizing input with
  | nil => cases input <;> rfl
  | cons expected text ih =>
      cases input with
      | nil => rfl
      | cons actual input =>
          rw [preferred_word_cons, preferred_one_seq, ih, qwen2ContractionMatches]
          cases qwen2RegexCaseEq actual expected <;> rfl

theorem preferred_contractions_exact (input : Text) :
    (anyOf (contractions.map (word fun actual expected => actual = expected))).preferred input =
      (contractions.find? (·.isPrefixOf input)).map fun contraction =>
        input.drop contraction.length := by
  rw [preferred_anyOf, List.findSome?_map, ← findSome?_ite]
  congr
  funext contraction
  exact preferred_word_exact contraction input

theorem preferred_contractions_case (input : Text) :
    (anyOf (contractions.map (word qwen2RegexCaseEq))).preferred input =
      (qwen2ContractionEnd input).map fun count => input.drop count := by
  rw [preferred_anyOf, List.findSome?_map, qwen2ContractionEnd, Option.map_map, ← findSome?_ite]
  congr
  funext contraction
  exact preferred_word_case contraction input

end Words

section Runs

variable {unicode : Unicode}

/-- What is left behind a run of a class is what comes after its characters. -/
theorem drop_consumeWhile (input : Text) (predicate : Char → Bool) :
    input.drop (consumeWhile input predicate) = input.dropWhile predicate := by
  unfold consumeWhile
  calc input.drop (input.takeWhile predicate).length
      = (input.takeWhile predicate ++ input.dropWhile predicate).drop
          (input.takeWhile predicate).length := by rw [List.takeWhile_append_dropWhile]
    _ = input.dropWhile predicate := List.drop_left

/-- An optional space in front of an expression. -/
theorem preferred_space_seq (right : Regex Char) (first : Char) (rest : Text) :
    (Unicode.space.seq right).preferred (first :: rest) =
      (if first = ' ' then right.preferred rest else none).or
        (right.preferred (first :: rest)) := by
  rw [Unicode.space, preferred_optional_seq, preferred_one_seq]
  simp

/-- The blanks up to a word leave it the last one, unless that is the only one. -/
theorem preferred_blanks {first : Char} (hfirst : unicode.isWhitespace first = true)
    (rest : Text) :
    (unicode.blanksBefore.preferred (first :: rest)).or
        (unicode.blank.plus.preferred (first :: rest)) =
      some ((first :: rest).drop (unicode.consumeWhitespace (first :: rest))) := by
  rw [Unicode.blanksBefore, Unicode.blank, preferred_plus_seq, if_pos hfirst,
    findSome?_givenBack_notAhead, preferred_plus_one, if_pos hfirst, Unicode.consumeWhitespace,
    consumeWhile, List.takeWhile_cons_of_pos hfirst]
  have hsplit : (rest.takeWhile unicode.isWhitespace).length +
      (rest.dropWhile unicode.isWhitespace).length = rest.length := by
    rw [← List.length_append, List.takeWhile_append_dropWhile]
  have hdrop := drop_consumeWhile rest unicode.isWhitespace
  rw [consumeWhile] at hdrop
  generalize rest.takeWhile unicode.isWhitespace = run at hsplit hdrop ⊢
  by_cases hend : rest.dropWhile unicode.isWhitespace = []
  · -- The blanks end the text.
    rw [hend, List.length_nil, Nat.add_zero] at hsplit
    rw [if_pos hend, Option.some_or]
    simp [hsplit]
  · have hlonger : run.length < rest.length := by
      have := List.length_pos_of_ne_nil hend
      omega
    rw [if_neg hend]
    cases run with
    | nil => simp [← hdrop]
    | cons second run =>
        rw [if_neg (List.cons_ne_nil _ _), Option.some_or]
        simp at hlonger
        simp [hlonger]

end Runs

section Gpt2

variable {unicode : Unicode}

/-- The characters of a category that are no blanks. -/
def classOf (unicode : Unicode) (wanted : CharacterCategory) (character : Char) : Bool :=
  !unicode.isWhitespace character && unicode.category character = wanted

/-- At least one character of a category, with an optional space in front. -/
def categoryRun (unicode : Unicode) (wanted : CharacterCategory) : Regex Char :=
  Unicode.space.seq (plus (.one (classOf unicode wanted)))

theorem classOf_of_blank {character : Char} (hblank : unicode.isWhitespace character = true)
    (wanted : CharacterCategory) : classOf unicode wanted character = false := by
  unfold classOf
  rw [hblank]
  rfl

theorem classOf_iff {character : Char} (hblank : unicode.isWhitespace character = false)
    (wanted : CharacterCategory) :
    classOf unicode wanted character = true ↔ wanted = unicode.category character := by
  unfold classOf
  rw [hblank, Bool.not_false, Bool.true_and, decide_eq_true_eq, eq_comm]

/-- A run of a category takes what the scanner consumes. -/
theorem preferred_plus_category (wanted : CharacterCategory) (first : Char) (rest : Text) :
    (plus (.one (classOf unicode wanted))).preferred (first :: rest) =
      if classOf unicode wanted first then
        some ((first :: rest).drop (unicode.consumeCategoryRun (first :: rest) wanted))
      else none := by
  have hrun : (first :: rest).drop (unicode.consumeCategoryRun (first :: rest) wanted) =
      (first :: rest).dropWhile (classOf unicode wanted) := drop_consumeWhile _ _
  rw [preferred_plus_one, hrun]
  split
  · next hfirst => rw [List.dropWhile_cons_of_pos hfirst]
  · rfl

theorem preferred_plus_blank (wanted : CharacterCategory) {first : Char}
    (hblank : unicode.isWhitespace first = true) (rest : Text) :
    (plus (.one (classOf unicode wanted))).preferred (first :: rest) = none := by
  rw [preferred_plus_category, classOf_of_blank hblank]
  rfl

theorem findSome?_category {β : Type} {found : CharacterCategory → Option β}
    (category : CharacterCategory) {value : β}
    (hfound : ∀ wanted, found wanted = if wanted = category then some value else none) :
    [CharacterCategory.letter, .number, .other].findSome? found = some value := by
  cases category <;> simp [hfound]

theorem classes_eq (h : unicode.Separate) :
    unicode.letter = .one (classOf unicode .letter) ∧
      unicode.number = .one (classOf unicode .number) ∧
      unicode.other = .one (classOf unicode .other) := by
  unfold Unicode.letter Unicode.number Unicode.other classOf Unicode.category
  simp only [Regex.one.injEq, funext_iff]
  refine ⟨fun c => ?_, fun c => ?_, fun c => ?_⟩
  all_goals
    have hletter := h.letter c
    have hnumber := h.number c
    have hapart : unicode.isGeneralCategoryLetter c = true → unicode.isNumeric c = false := by
      simp +contextual [Unicode.isGeneralCategoryLetter]
    revert hletter hnumber hapart
    cases unicode.isGeneralCategoryLetter c <;> cases unicode.isNumeric c <;>
      cases unicode.isWhitespace c <;> decide

theorem preferred_word_run {first : Char} (hblank : unicode.isWhitespace first = false)
    (wanted : CharacterCategory) (rest : Text) :
    (plus (.one (classOf unicode wanted))).preferred (first :: rest) =
      if wanted = unicode.category first then
        some ((first :: rest).drop
          (unicode.consumeCategoryRun (first :: rest) (unicode.category first)))
      else none := by
  rw [preferred_plus_category]
  by_cases hwanted : wanted = unicode.category first
  · rw [if_pos ((classOf_iff hblank wanted).mpr hwanted), if_pos hwanted, hwanted]
  · rw [if_neg fun hclass => hwanted ((classOf_iff hblank wanted).mp hclass), if_neg hwanted]

/-- One piece of the byte-level split. -/
theorem preferred_gpt2 (h : unicode.Separate) (first : Char) (rest : Text) :
    unicode.gpt2Regex.preferred (first :: rest) =
      some ((first :: rest).drop (unicode.nextGpt2PieceEnd (first :: rest))) := by
  obtain ⟨hletter, hnumber, hother⟩ := classes_eq h
  have hruns : [Unicode.space.seq unicode.letter.plus, Unicode.space.seq unicode.number.plus,
      Unicode.space.seq unicode.other.plus, unicode.blanksBefore, unicode.blank.plus] =
        [CharacterCategory.letter, .number, .other].map (categoryRun unicode) ++
          [unicode.blanksBefore, unicode.blank.plus] := by
    rw [hletter, hnumber, hother]
    rfl
  have hspace : ∀ wanted, (plus (.one (classOf unicode wanted))).preferred (' ' :: rest) = none :=
    fun wanted => preferred_plus_blank wanted h.space rest
  rw [Unicode.gpt2Regex, preferred_anyOf, List.findSome?_cons, preferred_contractions_exact, hruns]
  unfold Unicode.nextGpt2PieceEnd
  cases contractions.find? (·.isPrefixOf (first :: rest)) with
  | some contraction => rfl
  | none =>
      rw [Option.map_none, List.findSome?_append, List.findSome?_map]
      simp only
      cases hfilter : rest.head?.filter fun next => first = ' ' && !unicode.isWhitespace next with
      | some next =>
          -- A space and the word after it.
          obtain ⟨hhead, htest⟩ := Option.filter_eq_some_iff.mp hfilter
          obtain ⟨tail, rfl⟩ := List.head?_eq_some_iff.mp hhead
          simp only [Bool.and_eq_true, decide_eq_true_eq, Bool.not_eq_true'] at htest
          obtain ⟨rfl, hnext⟩ := htest
          rw [findSome?_category (unicode.category next) fun wanted => by
            rw [Function.comp_apply, categoryRun, preferred_space_seq, if_pos rfl, hspace,
              Option.or_none, preferred_word_run hnext], Option.some_or]
          simp only [Nat.add_comm 1, List.drop_succ_cons]
      | none =>
          have hbefore : first = ' ' → ∀ next ∈ rest.head?, unicode.isWhitespace next = true := by
            rintro rfl next hnext
            have htest := Option.filter_eq_none_iff.mp hfilter next hnext
            simpa using htest
          cases hblank : unicode.isWhitespace first with
          | true =>
              have hnone : ∀ wanted, (categoryRun unicode wanted).preferred (first :: rest) =
                  none := by
                intro wanted
                rw [categoryRun, preferred_space_seq, preferred_plus_blank wanted hblank,
                  Option.or_none]
                split
                · next hfirst =>
                    cases rest with
                    | nil => rfl
                    | cons next rest =>
                        exact preferred_plus_blank wanted (hbefore hfirst next rfl) rest
                · rfl
              simp only [List.findSome?_cons, List.findSome?_nil, Function.comp_apply, hnone,
                Option.none_or, if_true]
              rw [← preferred_blanks hblank rest]
              cases unicode.blanksBefore.preferred (first :: rest) <;>
                cases unicode.blank.plus.preferred (first :: rest) <;> rfl
          | false =>
              have hother : first ≠ ' ' := by
                rintro rfl
                rw [h.space] at hblank
                cases hblank
              rw [findSome?_category (unicode.category first) fun wanted => by
                rw [Function.comp_apply, categoryRun, preferred_space_seq, if_neg hother,
                  Option.none_or, preferred_word_run hblank], Option.some_or]
              rfl

end Gpt2

section Split

variable {unicode : Unicode}

theorem preferred_letters (first : Char) (rest : Text) :
    unicode.letter.plus.preferred (first :: rest) =
      (unicode.qwen2LettersEnd (first :: rest)).map fun count => (first :: rest).drop count := by
  rw [Unicode.letter, preferred_plus_one, Unicode.qwen2LettersEnd]
  split
  · next hletter =>
      rw [Option.map_some, drop_consumeWhile, List.dropWhile_cons_of_pos hletter]
  · rfl

/-- A word, with an optional character in front that is neither of a word nor a newline. -/
theorem preferred_word (first : Char) (rest : Text) :
    ((optional (.one fun character => !isNewline character &&
        !unicode.isGeneralCategoryLetter character && !unicode.isNumeric character)).seq
          unicode.letter.plus).preferred (first :: rest) =
      (unicode.qwen2WordEnd (first :: rest)).map fun count => (first :: rest).drop count := by
  have hhead : ((Regex.one fun character => !isNewline character &&
      !unicode.isGeneralCategoryLetter character && !unicode.isNumeric character).seq
        unicode.letter.plus).preferred (first :: rest) =
      if unicode.qwen2OptionalWordPrefix first then unicode.letter.plus.preferred rest else none :=
    preferred_one_seq _ _ _ _
  rw [preferred_optional_seq, hhead, preferred_letters, Unicode.qwen2WordEnd]
  cases hprefix : unicode.qwen2OptionalWordPrefix first with
  | true =>
      have hletter : unicode.isGeneralCategoryLetter first = false := by
        simp only [Unicode.qwen2OptionalWordPrefix, Bool.and_eq_true, Bool.not_eq_true'] at hprefix
        exact hprefix.1.2
      have hnone : unicode.qwen2LettersEnd (first :: rest) = none := by
        rw [Unicode.qwen2LettersEnd, hletter]
        rfl
      simp only [if_true, hnone, List.drop_succ_cons, List.drop_zero]
      cases rest with
      | nil => rfl
      | cons next rest =>
          rw [preferred_letters]
          cases unicode.qwen2LettersEnd (next :: rest) with
          | none => rfl
          | some count =>
              simp only [Option.map_some, Option.map_none, Option.or_none, Nat.add_comm 1,
                List.drop_succ_cons]
  | false =>
      simp only [Bool.false_eq_true, if_false, Option.none_or, List.drop_zero]
      cases unicode.qwen2LettersEnd (first :: rest) with
      | none => rfl
      | some count => simp only [Nat.zero_add]

/-- Every letter begins a word. -/
theorem not_letter_of_wordEnd {first : Char} {rest : Text}
    (hword : unicode.qwen2WordEnd (first :: rest) = none) :
    unicode.isGeneralCategoryLetter first = false := by
  cases hletter : unicode.isGeneralCategoryLetter first with
  | false => rfl
  | true =>
      have hprefix : unicode.qwen2OptionalWordPrefix first = false := by
        unfold Unicode.qwen2OptionalWordPrefix
        rw [hletter, Bool.not_true, Bool.and_false, Bool.false_and]
      rw [Unicode.qwen2WordEnd, hprefix] at hword
      simp only [Unicode.qwen2LettersEnd, hletter, Bool.false_eq_true, if_false, if_true,
        List.drop_zero] at hword
      cases hword

/-- A run of numbers up to the bound. -/
theorem preferred_numbers (maximumNumberRun : Nat) (first : Char) (rest : Text) :
    (unicode.number.seq (unicode.number.upTo (maximumNumberRun - 1))).preferred (first :: rest) =
      if unicode.isNumeric first then
        some ((first :: rest).drop
          (max 1 (((first :: rest).takeWhile unicode.isNumeric).take maximumNumberRun).length))
      else none := by
  rw [Unicode.number, preferred_one_seq]
  split
  · next hnumber =>
      rw [preferred_upTo_one, List.takeWhile_cons_of_pos hnumber]
      cases maximumNumberRun with
      | zero => rfl
      | succ bound =>
          rw [Nat.add_sub_cancel, List.take_succ_cons, List.length_cons,
            Nat.max_eq_right (Nat.succ_le_succ (Nat.zero_le _)), List.drop_succ_cons]
  · rfl

/-- The characters of punctuation. -/
def otherClass (unicode : Unicode) (character : Char) : Bool :=
  !unicode.isWhitespace character && !unicode.isGeneralCategoryLetter character &&
    !unicode.isNumeric character

/-- How many characters of punctuation a text begins with, and the newlines behind them. -/
theorem preferred_punctuation_run (first : Char) (rest : Text) :
    (unicode.other.plus.seq Unicode.newline.star).preferred (first :: rest) =
      if otherClass unicode first then
        some ((rest.dropWhile (otherClass unicode)).dropWhile isNewline)
      else none := by
  have htotal : ∀ input, (Unicode.newline.star.preferred input).isSome := by
    intro input
    rw [Unicode.newline, preferred_star_one]
    rfl
  have hrun : unicode.other.plus.preferred (first :: rest) =
      if otherClass unicode first then some (rest.dropWhile (otherClass unicode)) else none :=
    preferred_plus_one _ _ _
  rw [preferred_seq_of_total _ _ htotal, hrun]
  split
  · rw [Option.bind_some, Unicode.newline, preferred_star_one]
  · rfl

/-- The same, counted from some characters on. -/
theorem preferred_punctuation_from (input : Text) (start : Nat) :
    (unicode.other.plus.seq Unicode.newline.star).preferred (input.drop start) =
      (if consumeWhile (input.drop start) (otherClass unicode) = 0 then none
        else some (start + consumeWhile (input.drop start) (otherClass unicode) +
          consumeWhile (input.drop (start + consumeWhile (input.drop start) (otherClass unicode)))
            isNewline)).map fun count => input.drop count := by
  rw [← List.drop_drop (i := consumeWhile _ _) (j := start), drop_consumeWhile]
  cases htail : input.drop start with
  | nil => rfl
  | cons first rest =>
      rw [preferred_punctuation_run]
      split
      · next hfirst =>
          rw [if_neg (Nat.ne_of_gt (consumeWhile_pos hfirst rest)), Option.map_some, Nat.add_assoc,
            ← List.drop_drop, htail, ← List.drop_drop, drop_consumeWhile, drop_consumeWhile,
            List.dropWhile_cons_of_pos hfirst]
      · next hfirst =>
          rw [consumeWhile, List.takeWhile_cons_of_neg hfirst]
          rfl

variable (h : unicode.Separate)
include h

/-- Punctuation and the newlines behind it, with an optional space in front. -/
theorem preferred_punctuation (first : Char) (rest : Text) :
    (Unicode.space.seq (unicode.other.plus.seq Unicode.newline.star)).preferred (first :: rest) =
      (unicode.qwen2PunctuationEnd (first :: rest)).map fun count =>
        (first :: rest).drop count := by
  have hspace : otherClass unicode ' ' = false := by
    unfold otherClass
    rw [h.space]
    rfl
  rw [preferred_space_seq]
  by_cases hfirst : first = ' '
  · subst hfirst
    rw [if_pos rfl, preferred_punctuation_run, hspace]
    simp only [Bool.false_eq_true, if_false, Option.or_none]
    exact preferred_punctuation_from (' ' :: rest) 1
  · have hstart : [' '].isPrefixOf (first :: rest) = false := by
      rw [List.isPrefixOf, beq_false_of_ne (Ne.symm hfirst), Bool.false_and]
    rw [if_neg hfirst, Option.none_or, Unicode.qwen2PunctuationEnd, hstart]
    exact preferred_punctuation_from (first :: rest) 0

/-- Whatever is no letter, number or blank is punctuation. -/
theorem punctuationEnd_ne_none {first : Char}
    (hletter : unicode.isGeneralCategoryLetter first = false)
    (hnumber : unicode.isNumeric first = false) (hblank : unicode.isWhitespace first = false)
    (rest : Text) : unicode.qwen2PunctuationEnd (first :: rest) ≠ none := by
  have hclass : otherClass unicode first = true := by
    unfold otherClass
    rw [hletter, hnumber, hblank]
    rfl
  have hother : first ≠ ' ' := by
    rintro rfl
    rw [h.space] at hblank
    cases hblank
  intro hnone
  have hmatch := preferred_punctuation h first rest
  rw [hnone, Option.map_none, preferred_space_seq, if_neg hother, Option.none_or,
    preferred_punctuation_run, if_pos hclass] at hmatch
  cases hmatch

theorem preferred_newlines (input : Text) :
    (unicode.blank.star.seq Unicode.newline.plus).preferred input =
      (unicode.qwen2NewlineWhitespaceEnd input).map fun count => input.drop count := by
  have hend : unicode.qwen2NewlineWhitespaceEnd input =
      if endOfLast isNewline (input.takeWhile unicode.isWhitespace) = 0 then none
      else some (endOfLast isNewline (input.takeWhile unicode.isWhitespace)) := rfl
  rw [Unicode.blank, Unicode.newline, preferred_star_seq_plus _ h.newline, hend]
  split <;> rfl

/-- One piece of the other splits. -/
theorem preferred_split (maximumNumberRun : Nat) (first : Char) (rest : Text) :
    (unicode.splitRegex maximumNumberRun).preferred (first :: rest) =
      some ((first :: rest).drop
        (unicode.nextSplitPieceEnd maximumNumberRun (first :: rest))) := by
  rw [Unicode.splitRegex, preferred_anyOf]
  simp only [List.findSome?_cons, List.findSome?_nil, preferred_contractions_case, preferred_word,
    preferred_numbers, preferred_punctuation h, preferred_newlines h]
  unfold Unicode.nextSplitPieceEnd
  cases qwen2ContractionEnd (first :: rest) with
  | some count => rfl
  | none =>
  cases hword : unicode.qwen2WordEnd (first :: rest) with
  | some count => rfl
  | none =>
  simp only [Option.map_none]
  cases hnumber : unicode.isNumeric first with
  | true => rfl
  | false =>
  cases hpunctuation : unicode.qwen2PunctuationEnd (first :: rest) with
  | some count => rfl
  | none =>
  cases hblank : unicode.isWhitespace first with
  | true =>
      have hblanks := preferred_blanks hblank rest
      cases unicode.qwen2NewlineWhitespaceEnd (first :: rest) with
      | some count => rfl
      | none =>
          simp only [Option.map_none, Bool.false_eq_true, if_false, if_true, Option.getD_none,
            ← hblanks]
          cases unicode.blanksBefore.preferred (first :: rest) <;>
            cases unicode.blank.plus.preferred (first :: rest) <;> rfl
  | false =>
      -- Every other character is punctuation.
      have hletter := not_letter_of_wordEnd hword
      exact absurd hpunctuation (punctuationEnd_ne_none h hletter hnumber hblank rest)

end Split

section Pieces

/-- The pieces of every text are the matches found in it: none is empty, and together they are
the text. -/
structure Replaces (pieces found : Text → List Text) : Prop where
  found (input : Text) : pieces input = found input
  flatten (input : Text) : (pieces input).flatten = input
  nonempty (input : Text) : ∀ piece ∈ pieces input, piece ≠ []

theorem piecesBy_cons (next : Text → Nat) (fuel : Nat) (first : Char) (rest : Text) :
    piecesBy next (fuel + 1) (first :: rest) =
      (first :: rest).take (next (first :: rest)) ::
        piecesBy next fuel ((first :: rest).drop (next (first :: rest))) := rfl

variable {next : Text → Nat} {regex : Regex Char}

theorem piecesBy_eq_successive
    (hwithin : ∀ first rest, Within (first :: rest) (next (first :: rest)))
    (hmatch : ∀ first rest, regex.preferred (first :: rest) =
      some ((first :: rest).drop (next (first :: rest))))
    (hnil : regex.preferred [] = none) (fuel : Nat) (input : Text) (hfuel : input.length ≤ fuel) :
    piecesBy next fuel input = regex.successive (fuel + 1) input := by
  induction fuel generalizing input with
  | zero =>
      rw [List.eq_nil_of_length_eq_zero (Nat.le_zero.mp hfuel), successive_nil _ hnil]
      rfl
  | succ fuel ih =>
      cases input with
      | nil =>
          rw [successive_nil _ hnil]
          rfl
      | cons first rest =>
          obtain ⟨hpos, hle⟩ := hwithin first rest
          have hlength := List.length_drop (i := next (first :: rest)) (l := first :: rest)
          have hcount : (first :: rest).length -
              ((first :: rest).drop (next (first :: rest))).length = next (first :: rest) := by
            omega
          rw [piecesBy_cons, successive_cons _ (hmatch first rest) (by omega), hcount, ih _ (by omega)]

theorem ne_nil_of_piecesBy
    (hwithin : ∀ first rest, Within (first :: rest) (next (first :: rest))) (fuel : Nat)
    (input : Text) : ∀ piece ∈ piecesBy next fuel input, piece ≠ [] := by
  induction fuel generalizing input with
  | zero => exact fun _ h => absurd h List.not_mem_nil
  | succ fuel ih =>
      cases input with
      | nil => exact fun _ h => absurd h List.not_mem_nil
      | cons first rest =>
          apply List.forall_mem_cons.mpr ⟨?_, ih _⟩
          intro hnil
          have hpos := (hwithin first rest).1
          rw [List.take_eq_nil_iff] at hnil
          rcases hnil with hzero | hnil
          · exact absurd hzero (Nat.ne_of_gt hpos)
          · cases hnil

theorem replaces_piecesBy
    (hwithin : ∀ first rest, Within (first :: rest) (next (first :: rest)))
    (hmatch : ∀ first rest, regex.preferred (first :: rest) =
      some ((first :: rest).drop (next (first :: rest))))
    (hnil : regex.preferred [] = none) :
    Replaces (fun input => piecesBy next input.length input) regex.findAll where
  found input := piecesBy_eq_successive hwithin hmatch hnil _ input (Nat.le_refl _)
  flatten input := flatten_piecesBy hwithin _ input (Nat.le_refl _)
  nonempty input := ne_nil_of_piecesBy hwithin _ input

/-- One cut after another. -/
theorem Replaces.flatMap {pieces found pieces' found' : Text → List Text}
    (h : Replaces pieces found) (h' : Replaces pieces' found') :
    Replaces (fun input => (pieces input).flatMap pieces')
      (fun input => (found input).flatMap found') where
  found input := by
    rw [h.found, funext h'.found]
  flatten input := by
    have hparts : ∀ parts : List Text, (parts.flatMap pieces').flatten = parts.flatten := by
      intro parts
      induction parts with
      | nil => rfl
      | cons part parts ih =>
          rw [List.flatMap_cons, List.flatten_append, h'.flatten, ih, List.flatten_cons]
    exact (hparts _).trans (h.flatten input)
  nonempty input piece hpiece := by
    obtain ⟨part, _, hpiece⟩ := List.mem_flatMap.mp hpiece
    exact h'.nonempty part piece hpiece

end Pieces

section Digits

variable (unicode : Unicode)

/-- The end of one numeric character, or of the others up to the next. -/
def nextDigitsEnd : Text → Nat
  | [] => 0
  | first :: rest =>
      if unicode.isNumeric first then 1
      else consumeWhile (first :: rest) (!unicode.isNumeric ·)

/-- Characters that are not numeric, up to a numeric one or the end, are one piece. -/
theorem piecesBy_digits_run {run rest : Text} (hrun : ∀ c ∈ run, (!unicode.isNumeric c) = true)
    (hne : run ≠ []) (hrest : rest.takeWhile (!unicode.isNumeric ·) = []) (fuel : Nat) :
    piecesBy (nextDigitsEnd unicode) (fuel + 1) (run ++ rest) =
      run :: piecesBy (nextDigitsEnd unicode) fuel rest := by
  obtain ⟨first, others, rfl⟩ := List.exists_cons_of_ne_nil hne
  have hend : nextDigitsEnd unicode (first :: others ++ rest) = (first :: others).length := by
    have hfirst : ¬ unicode.isNumeric first = true := by simpa using hrun first List.mem_cons_self
    rw [List.cons_append, nextDigitsEnd, if_neg hfirst, ← List.cons_append, consumeWhile,
      List.takeWhile_append_of_pos hrun, hrest, List.append_nil]
  rw [List.cons_append, piecesBy_cons, ← List.cons_append, hend, List.take_left, List.drop_left]

/-- What is not cut off yet is the beginning of the next piece. -/
theorem splitIndividualDecimalDigitsFrom_eq (input run : Text) (fuel : Nat)
    (hrun : ∀ c ∈ run, (!unicode.isNumeric c) = true) (hfuel : (run ++ input).length ≤ fuel) :
    unicode.splitIndividualDecimalDigitsFrom run input =
      piecesBy (nextDigitsEnd unicode) fuel (run ++ input) := by
  induction input generalizing run fuel with
  | nil =>
      rw [Unicode.splitIndividualDecimalDigitsFrom]
      split
      · next hnil =>
          subst hnil
          cases fuel <;> rfl
      · next hne =>
          obtain ⟨fuel, rfl⟩ := Nat.exists_eq_add_one_of_ne_zero
            (Nat.ne_of_gt (Nat.lt_of_lt_of_le (by simpa using List.length_pos_of_ne_nil hne) hfuel))
          rw [piecesBy_digits_run unicode hrun hne rfl]
          cases fuel <;> rfl
  | cons character rest ih =>
      rw [Unicode.splitIndividualDecimalDigitsFrom]
      split
      · next hnumber =>
          have hcharacter : ∀ fuel, rest.length ≤ fuel →
              piecesBy (nextDigitsEnd unicode) (fuel + 1) (character :: rest) =
                [character] :: unicode.splitIndividualDecimalDigitsFrom [] rest := by
            intro fuel hfuel
            rw [piecesBy_cons, nextDigitsEnd, if_pos hnumber,
              ih [] fuel (fun _ h => absurd h List.not_mem_nil) hfuel]
            rfl
          rw [List.length_append, List.length_cons] at hfuel
          split
          · next hnil =>
              subst hnil
              rw [List.length_nil, Nat.zero_add] at hfuel
              obtain ⟨fuel, rfl⟩ := Nat.exists_eq_add_of_le' (Nat.le_of_add_left_le hfuel)
              rw [List.nil_append, List.nil_append, hcharacter fuel (by omega)]
          · next hne =>
              have hpos := List.length_pos_of_ne_nil hne
              obtain ⟨fuel, rfl⟩ := Nat.exists_eq_add_of_le' (show 2 ≤ fuel by omega)
              have hstop : (character :: rest).takeWhile (!unicode.isNumeric ·) = [] :=
                List.takeWhile_cons_of_neg (by simpa using hnumber)
              rw [piecesBy_digits_run unicode hrun hne hstop (fuel + 1),
                hcharacter fuel (by omega)]
              rfl
      · next hnumber =>
          have hlonger : ∀ c ∈ run ++ [character], (!unicode.isNumeric c) = true := by
            apply List.forall_mem_append.mpr ⟨hrun, List.forall_mem_singleton.mpr _⟩
            simpa using hnumber
          rw [ih (run ++ [character]) fuel hlonger (by simpa using hfuel), List.append_assoc]
          rfl

theorem splitIndividualDecimalDigits_eq (input : Text) :
    unicode.splitIndividualDecimalDigits input =
      piecesBy (nextDigitsEnd unicode) input.length input :=
  splitIndividualDecimalDigitsFrom_eq unicode input [] input.length
    (fun _ h => absurd h List.not_mem_nil) (Nat.le_refl _)

theorem nextDigitsEnd_within (first : Char) (rest : Text) :
    Within (first :: rest) (nextDigitsEnd unicode (first :: rest)) := by
  rw [nextDigitsEnd]
  split
  · exact Within.cons (Nat.zero_le _) first
  · next hnumber => exact consumeWhile_within (by simpa using hnumber) rest

theorem preferred_digits (first : Char) (rest : Text) :
    unicode.digitsRegex.preferred (first :: rest) =
      some ((first :: rest).drop (nextDigitsEnd unicode (first :: rest))) := by
  rw [Unicode.digitsRegex, Unicode.number, preferred_alt, preferred_one_cons, preferred_plus_one,
    nextDigitsEnd]
  cases hnumber : unicode.isNumeric first with
  | true => rfl
  | false =>
      have hother : (!unicode.isNumeric first) = true := by rw [hnumber]; rfl
      simp only [Bool.false_eq_true, if_false, Option.none_or, Bool.not_false, if_true,
        drop_consumeWhile]
      rw [List.dropWhile_cons_of_pos (by exact hother)]

end Digits

section Claim

variable {unicode : Unicode} (h : unicode.Separate)
include h

/-- The scanners cut every text as the expressions do. -/
theorem pieces_eq_matches :
    Replaces (fun input => (unicode.splitIndividualDecimalDigits input).flatMap unicode.gpt2Pieces)
        (fun input => (unicode.digitsRegex.findAll input).flatMap unicode.gpt2Regex.findAll) ∧
      Replaces unicode.gpt2Pieces unicode.gpt2Regex.findAll ∧
      Replaces unicode.qwen2Pieces (unicode.splitRegex 1).findAll ∧
      Replaces unicode.llama3Pieces (unicode.splitRegex 3).findAll := by
  have hsplit : ∀ maximumNumberRun, (unicode.splitRegex maximumNumberRun).preferred [] = none :=
    fun _ => rfl
  have hdigits : Replaces unicode.splitIndividualDecimalDigits unicode.digitsRegex.findAll := by
    rw [funext (splitIndividualDecimalDigits_eq unicode)]
    exact replaces_piecesBy (nextDigitsEnd_within unicode) (preferred_digits unicode) rfl
  have hgpt2 : Replaces unicode.gpt2Pieces unicode.gpt2Regex.findAll :=
    replaces_piecesBy unicode.nextGpt2PieceEnd_within (preferred_gpt2 h) rfl
  refine ⟨hdigits.flatMap hgpt2, hgpt2, ?_, ?_⟩
  · exact replaces_piecesBy (unicode.nextSplitPieceEnd_within 1) (preferred_split h 1) (hsplit 1)
  · exact replaces_piecesBy (unicode.nextSplitPieceEnd_within 3) (preferred_split h 3) (hsplit 3)

end Claim

/-- The classes of ASCII. -/
def asciiUnicode : Unicode where
  isNumeric := Char.isDigit
  isAlphabetic := Char.isAlpha
  isWhitespace := Char.isWhitespace
  nfc := id

theorem asciiUnicode_separate : asciiUnicode.Separate := by
  have hblank : ∀ c, asciiUnicode.isWhitespace c = true →
      asciiUnicode.isGeneralCategoryLetter c = false ∧ asciiUnicode.isNumeric c = false := by
    intro c hc
    simp only [asciiUnicode, Char.isWhitespace, Bool.or_eq_true, decide_eq_true_eq] at hc
    rcases hc with ((rfl | rfl) | rfl) | rfl <;> decide
  constructor
  · intro c hletter
    by_contra hspace
    have hother := (hblank c (by simpa using hspace)).1
    rw [hletter] at hother
    cases hother
  · intro c hnumber
    by_contra hspace
    have hother := (hblank c (by simpa using hspace)).2
    rw [hnumber] at hother
    cases hother
  · rfl
  · intro c hnewline
    simp only [isNewline, Bool.or_eq_true, decide_eq_true_eq] at hnewline
    rcases hnewline with rfl | rfl <;> rfl

theorem pieces_eq_matches_ascii :
    (asciiUnicode.splitRegex 3).findAll "I'm 1234\n  ok".toList =
      ["I".toList, "'m".toList, " ".toList, "123".toList, "4".toList, "\n".toList, " ".toList,
        " ok".toList] := by
  have hllama3 := (pieces_eq_matches asciiUnicode_separate).2.2.2
  rw [← hllama3.found]
  decide +kernel

end Riley.Tokenizer
