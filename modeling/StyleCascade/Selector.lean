/-!
# Selectors

A selector names a subject and what has to stand above it in the tree. It is kept
from the subject outwards: the subject, then a link for every further part, the
nearest first. In `.list > .item:active label` the subject is `label`, the first link
is a descendant link to `.item:active`, and the second a child link to `.list`.
-/
namespace StyleCascade

/-- What the name of a simple selector is compared with. -/
inductive SelectorKind
  | id
  | className
  | element
deriving DecidableEq, Repr

/-- A name, and perhaps a state that has to be on. -/
structure SimpleSelector where
  kind : SelectorKind
  name : String
  state : Option String := none
deriving DecidableEq, Repr

/-- How a part of a selector stands to the part on its left. -/
inductive Combinator
  /-- The left part fits the parent. -/
  | child
  /-- The left part fits some strict ancestor. -/
  | descendant
deriving DecidableEq, Repr

/-- A part above the subject, with the combinator to its right. -/
structure SelectorLink where
  combinator : Combinator
  part : SimpleSelector
deriving DecidableEq, Repr

/-- A subject and the links above it, nearest first. -/
structure Selector where
  subject : SimpleSelector
  links : List SelectorLink := []
deriving DecidableEq, Repr

namespace SimpleSelector

def hasState (s : SimpleSelector) : Bool :=
  s.state.isSome

/-- A state adds nothing. -/
def specificity (s : SimpleSelector) : Nat :=
  match s.kind with
  | .id => 1000000
  | .className => 1000
  | .element => 1

/-- The text of a simple selector: a mark for its kind, the name, and the state after a
colon. -/
def chars (s : SimpleSelector) : List Char :=
  let mark := match s.kind with
    | .id => ['#']
    | .className => ['.']
    | .element => []
  mark ++ s.name.toList ++ s.state.elim [] fun state => ':' :: state.toList

def text (s : SimpleSelector) : String :=
  String.ofList s.chars

end SimpleSelector

namespace Selector

/-- Makes `subject` the subject, below the old one. -/
def extend (s : Selector) (combinator : Combinator) (subject : SimpleSelector) : Selector where
  subject := subject
  links := ⟨combinator, s.subject⟩ :: s.links

/-- The simple selectors, from the subject outwards. -/
def parts (s : Selector) : List SimpleSelector :=
  s.subject :: s.links.map (·.part)

/-- The sum over the parts. -/
def specificity (s : Selector) : Nat :=
  s.parts.foldr (·.specificity + ·) 0

/-- Whether any part carries a state. -/
def hasState (s : Selector) : Bool :=
  s.parts.any (·.hasState)

/-- Whether a part above the subject carries a state. Whether such a selector applies
can change without any change to its subject. -/
def isStateDependent (s : Selector) : Bool :=
  s.links.any (·.part.hasState)

/-- The parts above the subject that carry a state, nearest first. -/
def stateParts (s : Selector) : List SimpleSelector :=
  (s.links.map (·.part)).filter (·.hasState)

/-- The text between two parts. -/
def separator : Combinator → List Char
  | .child => [' ', '>', ' ']
  | .descendant => [' ']

/-- The text of the links, the outermost first, each followed by its separator. -/
def linkChars : List SelectorLink → List Char
  | [] => []
  | link :: rest => linkChars rest ++ link.part.chars ++ separator link.combinator

def chars (s : Selector) : List Char :=
  linkChars s.links ++ s.subject.chars

/-- The text of a selector, from the outermost part to the subject. -/
def text (s : Selector) : String :=
  String.ofList s.chars

/-- The parts in reading order, each with the combinator on its left. -/
def chain (s : Selector) : List (Option Combinator × SimpleSelector) :=
  let combinators := s.links.map (some ·.combinator) ++ [none]
  (combinators.zip s.parts).reverse

end Selector
end StyleCascade
