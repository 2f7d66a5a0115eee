import StyleCascade.Media.Value

/-!
# Reading media queries

A list is cut at commas and at the word `or`, a query at the word `and`. A keyword
counts only where an ASCII blank stands directly on either side of it. A query may
start with `not` or `only`, and its first part may be `screen` or `all`.

A condition holds one comparison with the feature on either side, or two that point
the same way around the feature, as in `(300 < width <= 900)`.
-/
namespace StyleCascade

/-- The feature of a name. -/
def MediaFeature.ofName? (name : List Char) : Option MediaFeature :=
  match String.ofList (Text.trim name) with
  | "width" => some width
  | "height" => some height
  | "device-width" => some deviceWidth
  | "device-height" => some deviceHeight
  | "resolution" => some resolution
  | "aspect-ratio" => some aspectRatio
  | "orientation" => some orientation
  | "prefers-color-scheme" => some colorScheme
  | _ => none

namespace Media

/-! ## Keywords -/

/-- Puts a character in front of the first part. -/
def consHead (c : Char) : List (List Char) → List (List Char)
  | [] => [[c]]
  | part :: parts => (c :: part) :: parts

/-- Whether `keyword` starts here and stands alone, given the character before. -/
def standsAlone (keyword : List Char) (before : Option Char) (text : List Char) : Bool :=
  before.any Text.isAsciiBlank &&
    match keyword.isPrefixOf? text with
    | some after => after.head?.any Text.isAsciiBlank
    | none => false

/-- The parts of a text of which `before` is the character in front, and of which the
first `passing` characters still belong to a keyword. -/
def splitKeywordFrom (keyword : List Char) (passing : Nat) (before : Option Char) :
    List Char → List (List Char)
  | [] => [[]]
  | c :: rest =>
    match passing with
    | passing + 1 => splitKeywordFrom keyword passing (some c) rest
    | 0 =>
      if standsAlone keyword before (c :: rest) then
        [] :: splitKeywordFrom keyword (keyword.length - 1) (some c) rest
      else consHead c (splitKeywordFrom keyword 0 (some c) rest)

/-- Cuts a text at every place where `keyword` stands alone. -/
def splitKeyword (keyword text : List Char) : List (List Char) :=
  splitKeywordFrom keyword 0 none text

/-- What follows `word` at the start of a text, where a blank or a parenthesis does. -/
def afterWord? (word text : List Char) : Option (List Char) := do
  let rest ← word.isPrefixOf? text
  if rest.head?.any fun c => Text.isBlank c || c = '(' then some rest else none

/-! ## Conditions -/

/-- Puts a character in front of what stands before the first operator. -/
def consOperand (c : Char) (cut : List Char × List (Comparison × List Char)) :
    List Char × List (Comparison × List Char) :=
  (c :: cut.1, cut.2)

/-- Puts an operator in front. -/
def consOperator (op : Comparison) (cut : List Char × List (Comparison × List Char)) :
    List Char × List (Comparison × List Char) :=
  ([], (op, cut.1) :: cut.2)

/-- Cuts a text at its operators: what stands before the first one, and each operator
with what stands behind it. Of two readings the longer operator wins. -/
def cutOperators : List Char → List Char × List (Comparison × List Char)
  | [] => ([], [])
  | '>' :: '=' :: rest => consOperator .moreEqual (cutOperators rest)
  | '<' :: '=' :: rest => consOperator .lessEqual (cutOperators rest)
  | '=' :: '=' :: rest => consOperator .equal (cutOperators rest)
  | '<' :: rest => consOperator .less (cutOperators rest)
  | '>' :: rest => consOperator .more (cutOperators rest)
  | ':' :: rest => consOperator .equal (cutOperators rest)
  | c :: rest => consOperand c (cutOperators rest)

/-- A condition without blanks around it and without its parentheses. -/
def withoutParentheses (text : List Char) : List Char :=
  (Text.enclosed ['('] [')'] (Text.trim text)).getD (Text.trim text)

/-- A bound in the name of a feature, or in front of a value, turns an equality into an
inequality. -/
def bound? (text : List Char) : Option (Comparison × List Char) :=
  match "min-".toList.isPrefixOf? text with
  | some rest => some (.moreEqual, rest)
  | none => ("max-".toList.isPrefixOf? text).map (.lessEqual, ·)

/-- Takes the bound off an operand of an equality, from the left one first. -/
def applyBound (left : List Char) (op : Comparison) (right : List Char) :
    List Char × Comparison × List Char :=
  if op = .equal then
    match bound? left with
    | some (op, left) => (left, op, right)
    | none =>
      match bound? right with
      | some (op, right) => (left, op, right)
      | none => (left, op, right)
  else (left, op, right)

/-- A feature and its comparisons, with the targets still as text. -/
abbrev ConditionText := MediaFeature × List (Comparison × List Char)

/-- A single comparison. An orientation is only ever equal to a value. -/
def singleText? (left : List Char) (op : Comparison) (right : List Char) :
    Option ConditionText := do
  let (left, op, right) := applyBound (Text.trim left) op (Text.trim right)
  let (feature, op, target) ← match MediaFeature.ofName? left with
    | some feature => some (feature, op, right)
    | none => (MediaFeature.ofName? right).map (·, op.flip, left)
  some (feature, [(if feature = .orientation then .equal else op, target)])

/-- Two comparisons around a feature, which have to point the same way. -/
def rangeText? (first : List Char) (op₁ : Comparison) (name : List Char) (op₂ : Comparison)
    (second : List Char) : Option ConditionText := do
  if (op₁.isLess && op₂.isLess) || (op₁.isMore && op₂.isMore) then
    let feature ← MediaFeature.ofName? name
    some (feature, [(op₁.flip, first), (op₂, second)])
  else none

/-- The text of a condition, taken apart. -/
def conditionText? (text : List Char) : Option ConditionText :=
  match cutOperators (withoutParentheses text) with
  | (left, [(op, right)]) => singleText? left op right
  | (first, [(op₁, name), (op₂, second)]) => rangeText? first op₁ name op₂ second
  | _ => none

/-- Reads the targets of a condition. -/
def readTargets? (feature : MediaFeature) :
    List (Comparison × List Char) → Option (List (Comparison × Int))
  | [] => some []
  | (op, text) :: rest => do
    let target ← target? feature text
    return (op, target) :: (← readTargets? feature rest)

/-- Reads a condition. -/
def condition? (text : List Char) : Option MediaCondition := do
  let (feature, comparisons) ← conditionText? text
  return ⟨feature, ← readTargets? feature comparisons⟩

/-! ## Queries -/

/-- What is left of a query without `not` or `only` in front, and whether it is negated. -/
def splitNegation (text : List Char) : Bool × List Char :=
  match afterWord? "not".toList text with
  | some rest => (true, rest)
  | none => (false, (afterWord? "only".toList text).getD text)

/-- The conditions of a query as text. -/
def conditionTexts (text : List Char) : List (List Char) :=
  let parts := splitKeyword "and".toList (Text.trim text)
  let isMediaType (part : List Char) : Bool :=
    Text.trim part = "screen".toList || Text.trim part = "all".toList
  if parts.head?.any isMediaType then parts.drop 1 else parts

/-- Reads a query. -/
def query (text : List Char) : MediaQuery :=
  let (negated, rest) := splitNegation (Text.trim text)
  let conditions := (conditionTexts rest).map condition?
  { negated
    conditions := conditions.filterMap id
    valid := conditions.all Option.isSome }

/-- The queries of a list as text. -/
def queryTexts (text : List Char) : List (List Char) :=
  ((Text.trim text).splitOn ',').flatMap (splitKeyword "or".toList)

end Media

/-- Reads a media list. -/
def MediaList.ofString (text : String) : MediaList where
  text := Text.trimString text
  queries := (Media.queryTexts text.toList).map Media.query

end StyleCascade
