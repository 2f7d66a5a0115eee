import StyleCascade.Json
import StyleCascade.Media
import StyleCascade.Text

/-!
# Values in media conditions

A length is a decimal number, perhaps with `px` or `dp` behind it, and is cut to a
64-bit integer. A resolution has a unit, a ratio a stroke. A text that is no number
counts as zero; a value that leaves the 64-bit range is none at all.
-/
namespace StyleCascade.Media

/-! ## Decimal numbers -/

/-- The number that a list of digits denotes. -/
def numberOfDigits (digits : List Char) : Nat :=
  digits.foldl (fun n c => 10 * n + (c.toNat - '0'.toNat)) 0

/-- Whether the text has a minus sign, and what follows its sign if it has one. -/
def splitSign : List Char → Bool × List Char
  | '-' :: rest => (true, rest)
  | '+' :: rest => (false, rest)
  | text => (false, text)

/-- A decimal integer with an optional sign, of at most 64 bits. -/
def int64? (text : List Char) : Option Int :=
  let (negative, digits) := splitSign text
  if digits.isEmpty || !digits.all Char.isDigit then none
  else
    let magnitude : Int := numberOfDigits digits
    let value := if negative then -magnitude else magnitude
    if Json.leastInt64 ≤ value ∧ value ≤ Json.greatestInt64 then some value else none

/-- An exponent after its letter: an optional sign and digits. -/
def exponent? (text : List Char) : Option Int :=
  let (negative, digits) := splitSign text
  if digits.isEmpty || !digits.all Char.isDigit then none
  else
    let magnitude : Int := numberOfDigits digits
    some (if negative then -magnitude else magnitude)

/-- A decimal number without its sign, as digits and a power of ten: digits, a point
before, between or after them, and an exponent. -/
def decimal? (text : List Char) : Option (Nat × Int) := do
  let isMark (c : Char) : Bool := c = 'e' || c = 'E'
  let exponent ← match text.dropWhile (!isMark ·) with
    | [] => some 0
    | _ :: rest => exponent? rest
  let mantissa := text.takeWhile (!isMark ·)
  let whole := mantissa.takeWhile (· ≠ '.')
  let fraction := (mantissa.dropWhile (· ≠ '.')).drop 1
  if (whole ++ fraction).isEmpty || !(whole ++ fraction).all Char.isDigit then none
  else some (numberOfDigits (whole ++ fraction), exponent - fraction.length)

/-- The nearest integer of 64 bits. -/
def saturate (i : Int) : Int :=
  max Json.leastInt64 (min Json.greatestInt64 i)

/-- A floating-point number, cut to an integer of 64 bits: infinities and what lies
beyond the range give its ends, and a number that is none gives zero. -/
def truncatedReal? (text : List Char) : Option Int :=
  let (negative, magnitude) := splitSign text
  let beyond := if negative then Json.leastInt64 else Json.greatestInt64
  let name := Text.lowerAscii magnitude
  if name = "inf".toList ∨ name = "infinity".toList then some beyond
  else if name = "nan".toList then some 0
  else (decimal? magnitude).map fun (digits, exponent) =>
    match Binary64.ofDecimal negative digits exponent with
    | none => beyond
    | some x => saturate x.truncate

/-! ## Lengths -/

/-- The text of a length without blanks and units. -/
def bareNumber (text : List Char) : List Char :=
  Text.trim (Text.dropRepeated "dp".toList (Text.dropRepeated "px".toList (Text.trim text)))

/-- A length; `none` when the text is no number. -/
def length? (text : List Char) : Option Int :=
  (int64? (bareNumber text)).or (truncatedReal? (bareNumber text))

/-- A length, where anything else counts as zero. -/
def length (text : List Char) : Int :=
  (length? text).getD 0

/-! ## Values of each feature -/

/-- A product or quotient that fits 64 bits. -/
def checked (i : Int) : Option Int :=
  if Json.leastInt64 ≤ i ∧ i ≤ Json.greatestInt64 then some i else none

/-- Centimetres in an inch, as a double. -/
def centimetresPerInch : Binary64 :=
  ⟨false, 5719571526760530, -51⟩

-- It is the double nearest to 2.54.
example : Binary64.ofDecimal false 254 (-2) = some centimetresPerInch := by
  decide +kernel

/-- Dots per inch of the lowest density. -/
def baselineDensity : Int := 160

/-- Dots per centimetre as dots per inch. -/
def perInch? (perCentimetre : Int) : Option Int := do
  let dots ← (Binary64.ofInt perCentimetre).mul centimetresPerInch
  if dots.truncate.natAbs ≤ Json.greatestInt64 then some dots.truncate else none

/-- The lengths that the text of a resolution or a ratio is made of, in the order in
which they are read. A ratio with a zero below is zero whatever stands above. -/
def lengthTexts (feature : MediaFeature) (text : List Char) : List (List Char) :=
  match feature with
  | .orientation | .colorScheme => []
  | .resolution =>
    ([['d', 'p', 'i'], ['d', 'p', 'c', 'm'], ['d', 'p', 'p', 'x']].findSome?
      (·.isSuffixOf? text)).toList
  | .aspectRatio =>
    match Text.cutAt '/' text with
    | none => []
    | some (above, below) => if length below = 0 then [below] else [below, above]
  | _ => [text]

def resolution? (text : List Char) : Option Int :=
  match ['d', 'p', 'i'].isSuffixOf? text with
  | some number => some (length number)
  | none =>
    match ['d', 'p', 'c', 'm'].isSuffixOf? text with
    | some number => perInch? (length number)
    | none =>
      match ['d', 'p', 'p', 'x'].isSuffixOf? text with
      | some number => checked (length number * baselineDensity)
      | none => some 0

def aspectRatio? (text : List Char) : Option Int :=
  match Text.cutAt '/' text with
  | none => some 0
  | some (above, below) =>
    if length below = 0 then some 0
    else do checked ((← checked (MediaFeature.ratioScale * length above)).tdiv (length below))

/-- The target that a text gives for a feature; `none` when it does not fit. -/
def target? (feature : MediaFeature) (text : List Char) : Option Int :=
  let text := Text.trim text
  match feature with
  | .orientation => some (if text = "landscape".toList then 1 else 0)
  | .colorScheme => some (if text = "dark".toList then 1 else 0)
  | .resolution => resolution? text
  | .aspectRatio => aspectRatio? text
  | _ => some (length text)

/-- The texts that were read as zero because they are no number. -/
def badNumbers (feature : MediaFeature) (text : List Char) : List (List Char) :=
  (lengthTexts feature (Text.trim text)).filter fun t => (length? t).isNone

end StyleCascade.Media
