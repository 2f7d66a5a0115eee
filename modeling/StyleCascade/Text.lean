/-!
# Blanks, words and cuts

Text is worked on as a list of characters. A blank is a character with the Unicode
property White_Space; the narrower class of ASCII blanks is used where a keyword
has to stand alone.
-/
namespace StyleCascade.Text

/-- The characters with the Unicode property White_Space. -/
def isBlank (c : Char) : Bool :=
  let n := c.toNat
  n = 0x20 || (0x09 ≤ n && n ≤ 0x0D) || n = 0x85 || n = 0xA0 || n = 0x1680 ||
    (0x2000 ≤ n && n ≤ 0x200A) || n = 0x2028 || n = 0x2029 || n = 0x202F || n = 0x205F ||
    n = 0x3000

/-- Space, tab, line feed, form feed and carriage return. -/
def isAsciiBlank (c : Char) : Bool :=
  c = ' ' || c = '\t' || c = '\n' || c = '\x0c' || c = '\r'

theorem isBlank_of_isAsciiBlank {c : Char} (h : isAsciiBlank c) : isBlank c := by
  simp only [isAsciiBlank, Bool.or_eq_true, decide_eq_true_eq] at h
  rcases h with (((rfl | rfl) | rfl) | rfl) | rfl <;> rfl

/-! ## Trimming and splitting -/

def trimStart (text : List Char) : List Char :=
  text.dropWhile isBlank

def trimEnd (text : List Char) : List Char :=
  (text.reverse.dropWhile isBlank).reverse

/-- Drops the blanks at both ends. -/
def trim (text : List Char) : List Char :=
  trimEnd (trimStart text)

/-- The longest runs without a blank, in order. -/
def words (text : List Char) : List (List Char) :=
  (text.splitOnP isBlank).filter (!·.isEmpty)

/-- Cuts at the first `mark`, which is dropped. -/
def cutAt (mark : Char) (text : List Char) : Option (List Char × List Char) :=
  if mark ∈ text then
    some (text.takeWhile (· ≠ mark), (text.dropWhile (· ≠ mark)).drop 1)
  else none

/-- What stands between `opening` at the start and `closing` after it at the end. -/
def enclosed (opening closing text : List Char) : Option (List Char) := do
  closing.isSuffixOf? (← opening.isPrefixOf? text)

/-- Drops up to `count` copies of `tail` from the end. -/
def dropTails (tail : List Char) : Nat → List Char → List Char
  | 0, text => text
  | count + 1, text =>
    match tail.isSuffixOf? text with
    | some rest => dropTails tail count rest
    | none => text

/-- Drops every copy of `tail` from the end. A text holds at most as many copies of a
nonempty `tail` as it has characters. -/
def dropRepeated (tail text : List Char) : List Char :=
  dropTails tail text.length text

/-- `trim` on strings. -/
def trimString (s : String) : String :=
  String.ofList (trim s.toList)

/-- ASCII capitals become small letters. -/
def lowerAscii (text : List Char) : List Char :=
  text.map Char.toLower

end StyleCascade.Text
