import StyleCascade.Declaration
import StyleCascade.Media
import StyleCascade.Selector

/-!
# Style sheets

A sheet is a list of rules: style rules, tables of key frames and of font faces, and
groups of rules under a media condition. Several sheets can apply to one node; they
form a stack, in which the last one has the highest priority.
-/
namespace StyleCascade

/-- Selectors and the declaration they share. -/
structure StyleRule where
  selectors : List Selector
  declaration : Declaration
  /-- The selectors as written. -/
  text : String
  /-- Of two rules that are equal otherwise, the one of higher order wins. -/
  order : Nat
  /-- Whether the rule stands under a media condition. -/
  inMedia : Bool := false
  /-- Whether an inspector may edit the rule. -/
  editable : Bool := true
deriving Repr, Inhabited

/-- A table of named values, in the order of the text. -/
abbrev Table := List (String × Json)

inductive Rule
  | style (rule : StyleRule)
  | keyframes (table : Table)
  | fontFace (table : Table)
  | media (condition : MediaList) (rules : List Rule)
deriving Repr, Inhabited

namespace Rule

def style? : Rule → Option StyleRule
  | style rule => some rule
  | _ => none

def keyframes? : Rule → Option Table
  | keyframes table => some table
  | _ => none

def fontFace? : Rule → Option Table
  | fontFace table => some table
  | _ => none

/-- The style rules that a rule contributes in an environment: itself, or the style
rules of a group whose condition holds. -/
def active (env : MediaEnvironment) : Rule → List StyleRule
  | style rule => [rule]
  | media condition rules => if condition.holds env then rules.filterMap style? else []
  | _ => []

end Rule

/-- Rules, and the number that a sheet may carry. -/
structure StyleSheet where
  rules : List Rule
  objectId : Option Int := none
deriving Repr, Inhabited

namespace StyleSheet

/-- The style rules that stand under no media condition. -/
def styleRules (s : StyleSheet) : List StyleRule :=
  s.rules.filterMap Rule.style?

/-- The last table of key frames. -/
def keyframesTable? (s : StyleSheet) : Option Table :=
  s.rules.reverse.findSome? Rule.keyframes?

/-- The last table of font faces. -/
def fontFaceTable? (s : StyleSheet) : Option Table :=
  s.rules.reverse.findSome? Rule.fontFace?

/-- The style rules that apply in an environment, in order. -/
def activeRules (s : StyleSheet) (env : MediaEnvironment) : List StyleRule :=
  s.rules.flatMap (·.active env)

end StyleSheet

/-- The sheets that apply to one node: those of the document in ascending priority, then
the nearest sheet of a node. -/
structure SheetStack where
  document : List StyleSheet := []
  own : Option StyleSheet := none
deriving Repr, Inhabited

namespace SheetStack

/-- The sheets, lowest priority first. -/
def sheets (s : SheetStack) : List StyleSheet :=
  s.document ++ s.own.toList

/-- The entry of `name` in the table that `table?` picks, from the highest sheet that has
one. -/
def entry? (s : SheetStack) (table? : StyleSheet → Option Table) (name : String) : Option Json :=
  s.sheets.reverse.findSome? fun sheet => do
    let (_, value) ← Keyed.lookup Prod.fst name (← table? sheet)
    some value

/-- The key frames of an animation. -/
def keyframes? (s : SheetStack) (name : String) : Option Json :=
  s.entry? StyleSheet.keyframesTable? name

/-- The descriptor of a font. A font that no sheet describes is described by its name. -/
def fontFace (s : SheetStack) (name : String) : Json :=
  (s.entry? StyleSheet.fontFaceTable? name).getD (.object [("fontName", .string name)])

end SheetStack
end StyleCascade
