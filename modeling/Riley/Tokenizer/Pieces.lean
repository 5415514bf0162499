import Riley.Tokenizer.Categories

/-!
The pre-tokenizers: how a text is cut into the pieces that are merged on their
own. The source walks byte offsets that end characters; a scanner here takes the
text from its offset on and returns how many characters it consumes.
-/

namespace Riley.Tokenizer

open Utf8 (Text)

/-- Cuts a text at the ends that a scanner returns. -/
def piecesBy (next : Text → Nat) : Nat → Text → List Text
  | 0, _ => []
  | _ + 1, [] => []
  | fuel + 1, input => input.take (next input) :: piecesBy next fuel (input.drop (next input))

def contractions : List Text :=
  [['\'', 's'], ['\'', 't'], ['\'', 'r', 'e'], ['\'', 'v', 'e'], ['\'', 'm'],
    ['\'', 'l', 'l'], ['\'', 'd']]

def consumeWhile (input : Text) (predicate : Char → Bool) : Nat :=
  (input.takeWhile predicate).length

def isNewline (character : Char) : Bool := character = '\r' || character = '\n'

/-- `(?i:…)` of the pinned expression: only `s` has an equal beyond ASCII. -/
def qwen2RegexCaseEq (actual expected : Char) : Bool :=
  if expected = 's' then actual = 's' || actual = 'S' || actual = '\u017f'
  else actual.toLower = expected.toLower

/-- Whether a text begins with a contraction, up to case. -/
def qwen2ContractionMatches : Text → Text → Bool
  | _, [] => true
  | [], _ :: _ => false
  | actual :: input, expected :: contraction =>
      qwen2RegexCaseEq actual expected && qwen2ContractionMatches input contraction

def qwen2ContractionEnd (input : Text) : Option Nat :=
  (contractions.find? (qwen2ContractionMatches input)).map List.length

namespace Unicode

variable (unicode : Unicode)

/-- Numeric characters stand alone; `run` is what is not cut off yet. -/
def splitIndividualDecimalDigitsFrom (run : Text) : Text → List Text
  | [] => if run = [] then [] else [run]
  | character :: rest =>
      if unicode.isNumeric character then
        (if run = [] then [] else [run]) ++
          [character] :: splitIndividualDecimalDigitsFrom [] rest
      else splitIndividualDecimalDigitsFrom (run ++ [character]) rest

def splitIndividualDecimalDigits (input : Text) : List Text :=
  unicode.splitIndividualDecimalDigitsFrom [] input

def consumeCategoryRun (input : Text) (wanted : CharacterCategory) : Nat :=
  consumeWhile input fun character =>
    !unicode.isWhitespace character && unicode.category character = wanted

/-- Leaves the last blank of a run to the word after it. -/
def consumeWhitespace (input : Text) : Nat :=
  let boundaries := consumeWhile input unicode.isWhitespace
  if boundaries < input.length && 1 < boundaries then boundaries - 1 else boundaries

def nextGpt2PieceEnd (input : Text) : Nat :=
  match contractions.find? (·.isPrefixOf input) with
  | some contraction => contraction.length
  | none =>
      match input with
      | [] => 0
      | first :: rest =>
          match rest.head?.filter fun next => first = ' ' && !unicode.isWhitespace next with
          | some next => 1 + unicode.consumeCategoryRun rest (unicode.category next)
          | none =>
              if unicode.isWhitespace first then unicode.consumeWhitespace input
              else unicode.consumeCategoryRun input (unicode.category first)

def gpt2Pieces (input : Text) : List Text :=
  piecesBy unicode.nextGpt2PieceEnd input.length input

def qwen2OptionalWordPrefix (character : Char) : Bool :=
  !isNewline character && !unicode.isGeneralCategoryLetter character &&
    !unicode.isNumeric character

def qwen2LettersEnd (input : Text) : Option Nat :=
  match input with
  | [] => none
  | first :: _ =>
      if unicode.isGeneralCategoryLetter first then
        some (consumeWhile input unicode.isGeneralCategoryLetter)
      else none

def qwen2WordEnd (input : Text) : Option Nat :=
  match input with
  | [] => none
  | first :: _ =>
      let prefixed := if unicode.qwen2OptionalWordPrefix first then 1 else 0
      match unicode.qwen2LettersEnd (input.drop prefixed) with
      | some count => some (prefixed + count)
      | none => if prefixed = 0 then none else unicode.qwen2LettersEnd input

def qwen2PunctuationEnd (input : Text) : Option Nat :=
  let punctuationStart := if [' '].isPrefixOf input then 1 else 0
  let count := consumeWhile (input.drop punctuationStart) fun character =>
    !unicode.isWhitespace character && !unicode.isGeneralCategoryLetter character &&
      !unicode.isNumeric character
  let cursor := punctuationStart + count
  if count = 0 then none else some (cursor + consumeWhile (input.drop cursor) isNewline)

/-- The end of the last newline among the blanks that a text begins with. -/
def qwen2NewlineWhitespaceEnd (input : Text) : Option Nat :=
  let run := input.takeWhile unicode.isWhitespace
  let lastNewlineEnd := (run.reverse.dropWhile (!isNewline ·)).length
  if lastNewlineEnd = 0 then none else some lastNewlineEnd

/-- One match of the pinned alternation; `maximumNumberRun` is the bound of its
`\p{N}{1,n}` branch. -/
def nextSplitPieceEnd (maximumNumberRun : Nat) (input : Text) : Nat :=
  match qwen2ContractionEnd input with
  | some count => count
  | none =>
  match unicode.qwen2WordEnd input with
  | some count => count
  | none =>
  match input with
  | [] => 0 -- the source expects a character here
  | first :: _ =>
      if unicode.isNumeric first then
        max 1 ((input.takeWhile unicode.isNumeric).take maximumNumberRun).length
      else
        match unicode.qwen2PunctuationEnd input with
        | some count => count
        | none =>
            if unicode.isWhitespace first then
              (unicode.qwen2NewlineWhitespaceEnd input).getD (unicode.consumeWhitespace input)
            else 1

def qwen2Pieces (input : Text) : List Text :=
  piecesBy (unicode.nextSplitPieceEnd 1) input.length input

def llama3Pieces (input : Text) : List Text :=
  piecesBy (unicode.nextSplitPieceEnd 3) input.length input

end Unicode

end Riley.Tokenizer
