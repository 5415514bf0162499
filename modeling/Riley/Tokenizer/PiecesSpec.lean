import Riley.Tokenizer.Pieces

/-!
The pre-tokenizers lose nothing: every scanner consumes at least one character,
so the pieces of a text are the text.
-/

namespace Riley.Tokenizer

open Utf8 (Text)

/-- How much a scanner may consume of a text. -/
def Within (input : Text) (count : Nat) : Prop := 0 < count ∧ count ≤ input.length

theorem consumeWhile_le (input : Text) (predicate : Char → Bool) :
    consumeWhile input predicate ≤ input.length :=
  (List.takeWhile_prefix predicate).length_le

theorem consumeWhile_pos {first : Char} {predicate : Char → Bool} (h : predicate first = true)
    (rest : Text) : 0 < consumeWhile (first :: rest) predicate := by
  unfold consumeWhile
  rw [List.takeWhile_cons_of_pos h]
  exact Nat.succ_pos _

theorem consumeWhile_within {first : Char} {predicate : Char → Bool} (h : predicate first = true)
    (rest : Text) : Within (first :: rest) (consumeWhile (first :: rest) predicate) :=
  ⟨consumeWhile_pos h rest, consumeWhile_le _ _⟩

theorem Within.cons {rest : Text} {count : Nat} (h : count ≤ rest.length) (first : Char) :
    Within (first :: rest) (1 + count) := by
  constructor
  · exact Nat.add_pos_left Nat.one_pos count
  · rw [List.length_cons, Nat.add_comm]
    exact Nat.succ_le_succ h

/-- The pieces of a text, in order, are the text. -/
theorem flatten_piecesBy {next : Text → Nat}
    (h : ∀ first rest, Within (first :: rest) (next (first :: rest))) (fuel : Nat) (input : Text)
    (hfuel : input.length ≤ fuel) : (piecesBy next fuel input).flatten = input := by
  induction fuel generalizing input with
  | zero =>
      rw [List.eq_nil_of_length_eq_zero (Nat.le_zero.mp hfuel)]
      rfl
  | succ fuel ih =>
      cases input with
      | nil => rfl
      | cons first rest =>
          have hpos := (h first rest).1
          have hrest : ((first :: rest).drop (next (first :: rest))).length ≤ fuel := by
            rw [List.length_drop]
            omega
          have hcons : piecesBy next (fuel + 1) (first :: rest) =
              (first :: rest).take (next (first :: rest)) ::
                piecesBy next fuel ((first :: rest).drop (next (first :: rest))) := rfl
          rw [hcons, List.flatten_cons, ih _ hrest, List.take_append_drop]

section Contractions

theorem contraction_pos {contraction : Text} (h : contraction ∈ contractions) :
    0 < contraction.length := by
  have hall : ∀ contraction ∈ contractions, 0 < contraction.length := by decide
  exact hall contraction h

theorem qwen2ContractionMatches_le {input contraction : Text}
    (h : qwen2ContractionMatches input contraction = true) :
    contraction.length ≤ input.length := by
  induction contraction generalizing input with
  | nil => exact Nat.zero_le _
  | cons expected contraction ih =>
      cases input with
      | nil => cases h
      | cons actual input =>
          rw [qwen2ContractionMatches, Bool.and_eq_true] at h
          exact Nat.succ_le_succ (ih h.2)

theorem qwen2ContractionEnd_within {input : Text} {count : Nat}
    (h : qwen2ContractionEnd input = some count) : Within input count := by
  obtain ⟨contraction, hfind, rfl⟩ := Option.map_eq_some_iff.mp h
  constructor
  · exact contraction_pos (List.mem_of_find?_eq_some hfind)
  · apply qwen2ContractionMatches_le
    exact List.find?_some hfind

end Contractions

namespace Unicode

variable (unicode : Unicode)

theorem flatten_splitIndividualDecimalDigits (input : Text) :
    (unicode.splitIndividualDecimalDigits input).flatten = input := by
  have hfrom : ∀ run, (unicode.splitIndividualDecimalDigitsFrom run input).flatten =
      run ++ input := by
    have hrun : ∀ run : Text, (if run = [] then ([] : List Text) else [run]).flatten = run := by
      intro run
      split
      · next hnil => rw [hnil]; rfl
      · exact List.append_nil run
    induction input with
    | nil =>
        intro run
        rw [splitIndividualDecimalDigitsFrom, hrun, List.append_nil]
    | cons character rest ih =>
        intro run
        rw [splitIndividualDecimalDigitsFrom]
        split
        · rw [List.flatten_append, hrun, List.flatten_cons, ih, List.nil_append]
          rfl
        · rw [ih, List.append_assoc]
          rfl
  exact hfrom []

section Gpt2

theorem consumeCategoryRun_within {first : Char} (hspace : unicode.isWhitespace first = false)
    (rest : Text) :
    Within (first :: rest)
      (unicode.consumeCategoryRun (first :: rest) (unicode.category first)) := by
  apply consumeWhile_within
  rw [hspace]
  simp

theorem consumeWhitespace_within {first : Char} (hspace : unicode.isWhitespace first = true)
    (rest : Text) : Within (first :: rest) (unicode.consumeWhitespace (first :: rest)) := by
  have hrun := consumeWhile_within hspace rest
  unfold consumeWhitespace
  simp only
  split
  · next hlong =>
      rw [Bool.and_eq_true, decide_eq_true_eq, decide_eq_true_eq] at hlong
      constructor
      · exact Nat.sub_pos_of_lt hlong.2
      · exact Nat.le_trans (Nat.sub_le _ _) hrun.2
  · exact hrun

theorem nextGpt2PieceEnd_within (first : Char) (rest : Text) :
    Within (first :: rest) (unicode.nextGpt2PieceEnd (first :: rest)) := by
  unfold nextGpt2PieceEnd
  cases hfind : contractions.find? (·.isPrefixOf (first :: rest)) with
  | some contraction =>
      constructor
      · exact contraction_pos (List.mem_of_find?_eq_some hfind)
      · have hbegins := List.find?_some hfind
        exact (List.isPrefixOf_iff_prefix.mp hbegins).length_le
  | none =>
      simp only
      cases rest.head?.filter fun next => first = ' ' && !unicode.isWhitespace next with
      | some next => exact Within.cons (consumeWhile_le _ _) first
      | none =>
          simp only
          split
          · next hspace => exact unicode.consumeWhitespace_within hspace rest
          · next hspace =>
              exact unicode.consumeCategoryRun_within (Bool.not_eq_true _ ▸ hspace) rest

theorem flatten_gpt2Pieces (input : Text) : (unicode.gpt2Pieces input).flatten = input :=
  flatten_piecesBy unicode.nextGpt2PieceEnd_within _ _ (Nat.le_refl _)

end Gpt2

section Qwen2

theorem qwen2LettersEnd_within {input : Text} {count : Nat}
    (h : unicode.qwen2LettersEnd input = some count) : Within input count := by
  cases input with
  | nil => cases h
  | cons first rest =>
      simp only [qwen2LettersEnd] at h
      split at h
      · next hletter =>
          cases h
          exact consumeWhile_within hletter rest
      · cases h

theorem qwen2WordEnd_within {input : Text} {count : Nat}
    (h : unicode.qwen2WordEnd input = some count) : Within input count := by
  cases input with
  | nil => cases h
  | cons first rest =>
      simp only [qwen2WordEnd] at h
      generalize (if unicode.qwen2OptionalWordPrefix first then 1 else 0) = prefixed at h
      split at h
      · next letters hletters =>
          cases h
          have hcount := unicode.qwen2LettersEnd_within hletters
          have hle := hcount.2
          rw [List.length_drop] at hle
          have hpos := hcount.1
          constructor
          · exact Nat.add_pos_right _ hpos
          · omega
      · split at h
        · cases h
        · exact unicode.qwen2LettersEnd_within h

theorem qwen2PunctuationEnd_within {input : Text} {count : Nat}
    (h : unicode.qwen2PunctuationEnd input = some count) : Within input count := by
  simp only [qwen2PunctuationEnd] at h
  generalize (if [' '].isPrefixOf input then 1 else 0) = punctuationStart at h
  have hpunctuation := consumeWhile_le (input.drop punctuationStart) fun character =>
    !unicode.isWhitespace character && !unicode.isGeneralCategoryLetter character &&
      !unicode.isNumeric character
  generalize consumeWhile (input.drop punctuationStart) _ = run at h hpunctuation
  have hnewlines := consumeWhile_le (input.drop (punctuationStart + run)) isNewline
  rw [List.length_drop] at hpunctuation hnewlines
  split at h
  · cases h
  · cases h
    constructor <;> omega

theorem qwen2NewlineWhitespaceEnd_within {input : Text} {count : Nat}
    (h : unicode.qwen2NewlineWhitespaceEnd input = some count) : Within input count := by
  unfold qwen2NewlineWhitespaceEnd at h
  simp only at h
  split at h
  · cases h
  · next hsome =>
      cases h
      constructor
      · exact Nat.pos_of_ne_zero hsome
      · apply Nat.le_trans (List.dropWhile_suffix _).length_le
        rw [List.length_reverse]
        exact consumeWhile_le input unicode.isWhitespace

theorem nextSplitPieceEnd_within (maximumNumberRun : Nat) (first : Char) (rest : Text) :
    Within (first :: rest) (unicode.nextSplitPieceEnd maximumNumberRun (first :: rest)) := by
  unfold nextSplitPieceEnd
  cases hcontraction : qwen2ContractionEnd (first :: rest) with
  | some count => exact qwen2ContractionEnd_within hcontraction
  | none =>
  simp only
  cases hword : unicode.qwen2WordEnd (first :: rest) with
  | some count => exact unicode.qwen2WordEnd_within hword
  | none =>
  simp only
  split
  · have hrun := consumeWhile_le (first :: rest) unicode.isNumeric
    unfold consumeWhile at hrun
    constructor
    · exact Nat.lt_of_lt_of_le Nat.one_pos (Nat.le_max_left _ _)
    · apply Nat.max_le.mpr
      constructor
      · exact Nat.succ_le_succ (Nat.zero_le _)
      · exact Nat.le_trans (List.take_prefix _ _).length_le hrun
  · cases hpunctuation : unicode.qwen2PunctuationEnd (first :: rest) with
    | some count => exact unicode.qwen2PunctuationEnd_within hpunctuation
    | none =>
        simp only
        split
        · next hspace =>
            cases hnewline : unicode.qwen2NewlineWhitespaceEnd (first :: rest) with
            | some count => exact unicode.qwen2NewlineWhitespaceEnd_within hnewline
            | none => exact unicode.consumeWhitespace_within hspace rest
        · exact Within.cons (Nat.zero_le _) first

theorem flatten_qwen2Pieces (input : Text) : (unicode.qwen2Pieces input).flatten = input :=
  flatten_piecesBy (unicode.nextSplitPieceEnd_within 1) _ _ (Nat.le_refl _)

theorem flatten_llama3Pieces (input : Text) : (unicode.llama3Pieces input).flatten = input :=
  flatten_piecesBy (unicode.nextSplitPieceEnd_within 3) _ _ (Nat.le_refl _)

end Qwen2

end Unicode

end Riley.Tokenizer
