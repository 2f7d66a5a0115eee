import StyleCascade.Selector
import StyleCascade.Text

/-!
# Reading selector lists

A list is cut at commas, a group at `>`, and what is left at blanks. Reading never
fails: a token without text before its first colon is passed over, and a group
without a usable token gives no selector.
-/
namespace StyleCascade

/-- A token as a simple selector. The text between the first and the second colon is
the state, unless it is empty; what follows a second colon is dropped. -/
def SimpleSelector.ofToken? (token : List Char) : Option SimpleSelector :=
  let state? : Option String := match token.splitOn ':' with
    | _ :: state :: _ => if state.isEmpty then none else some (String.ofList state)
    | _ => none
  match token.takeWhile (· ≠ ':') with
  | [] => none
  | '#' :: name => some ⟨.id, String.ofList name, state?⟩
  | '.' :: name => some ⟨.className, String.ofList name, state?⟩
  | name => some ⟨.element, String.ofList name, state?⟩

namespace Selector

/-- The usable tokens of a stretch of text without commas and `>`. -/
def simpleSelectors (segment : List Char) : List SimpleSelector :=
  (Text.words segment).filterMap SimpleSelector.ofToken?

/-- Adds a part on the right of a selector, which may still be empty. -/
def extend? (s : Option Selector) (combinator : Combinator) (part : SimpleSelector) :
    Option Selector :=
  match s with
  | none => some ⟨part, []⟩
  | some s => some (s.extend combinator part)

/-- Adds a segment that follows a `>`: its first part is a child, the others are
descendants. -/
def addSegment (s : Option Selector) (segment : List Char) : Option Selector :=
  match simpleSelectors segment with
  | [] => s
  | part :: parts => parts.foldl (extend? · .descendant) (extend? s .child part)

/-- Reads a group, the text between two commas. -/
def ofGroup? (group : List Char) : Option Selector :=
  (group.splitOn '>').foldl addSegment none

/-- Reads a selector list. -/
def listOfChars (text : List Char) : List Selector :=
  (text.splitOn ',').filterMap ofGroup?

/-- Reads a selector list. -/
def listOfString (text : String) : List Selector :=
  listOfChars text.toList

end Selector
end StyleCascade
