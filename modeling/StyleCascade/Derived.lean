import StyleCascade.Sheet
import StyleCascade.Text

/-!
# Derived properties

Some properties name things that a sheet describes: animations their key frames, font
families their fonts. Beside such a property stands a derived one of the same state,
which holds the descriptions of all names in order. An undefined source gives an
undefined derived property, and a source that is no string leaves things as they are.
-/
namespace StyleCascade

/-- A text without blanks around it, and without quotes if it is between a pair of them. -/
def Text.dequote (text : List Char) : List Char :=
  let text := trim text
  match enclosed ['"'] ['"'] text with
  | some inner => trim inner
  | none =>
    match enclosed ['\''] ['\''] text with
    | some inner => trim inner
    | none => text

/-- The names in a list between commas; the list, or each name, may stand in quotes. -/
def Text.nameList (text : List Char) : List (List Char) :=
  (((dequote text).splitOn ',').map dequote).filter (!·.isEmpty)

/-- What a name is looked up in. -/
inductive NameKind
  | keyframes
  | fontFace
deriving DecidableEq, Repr

/-- The descriptions of a name: the key frames of an animation with a closing entry that
names it, or nothing when there are none; the descriptor of a font. -/
def SheetStack.describe (sheets : SheetStack) (kind : NameKind) (name : String) : List Json :=
  match kind with
  | .keyframes =>
    match sheets.keyframes? name with
    | some (.array frames) => frames ++ [.object [("animationName", .string name)]]
    | _ => []
  | .fontFace => [sheets.fontFace name]

/-- The descriptions of all names in a list. -/
def SheetStack.describeAll (sheets : SheetStack) (kind : NameKind) (names : String) : List Json :=
  (Text.nameList names.toList).flatMap fun name => sheets.describe kind (String.ofList name)

/-- Which property is derived from which. -/
structure Derivation where
  source : String
  target : String
  kind : NameKind
deriving DecidableEq, Repr

namespace Derivation

def all : List Derivation :=
  [⟨"animationName", "animationKeyframes", .keyframes⟩,
   ⟨"pageAnimationName", "pageAnimationKeyframes", .keyframes⟩,
   ⟨"fontFamily", "fontFamilyDesc", .fontFace⟩]

/-- The property derived from `p`, if there is one. -/
def derive? (d : Derivation) (sheets : SheetStack) (p : Property) : Option Property :=
  if p.name = d.source then
    match p.value with
    | none => some { p with name := d.target }
    | some (.string names) =>
      some { p with name := d.target, value := some (.array (sheets.describeAll d.kind names)) }
    | some _ => none
  else none

/-- Adds the properties that one derivation gives. -/
def apply (d : Derivation) (sheets : SheetStack) (style : Declaration) : Declaration :=
  style.insertAll (style.properties.filterMap (d.derive? sheets))

end Derivation

/-- Adds all derived properties. -/
def Declaration.expand (style : Declaration) (sheets : SheetStack) : Declaration :=
  Derivation.all.foldl (fun style d => d.apply sheets style) style

end StyleCascade
