import StyleCascade.Declaration

/-!
# Style text

An inspector edits a style as text: `name: value;` pairs, one or more to a line, names
in kebab case. A line between comment marks holds disabled properties. A fragment that
is no pair is passed over, so a partly broken edit still gives what it can.
-/
namespace StyleCascade.StyleText

/-- What is left of a line without its comment marks, and whether it had them. -/
def body (line : List Char) : List Char × Bool :=
  match Text.enclosed ['/', '*'] ['*', '/'] line with
  | some inner => (inner, true)
  | none => (line, false)

/-- A fragment between two semicolons as a property: a name and a value around a colon,
neither of them blank. -/
def propertyOfFragment? (disabled : Bool) (fragment : List Char) : Option Property := do
  let (name, value) ← Text.cutAt ':' (Text.trim fragment)
  let name := Text.trim name
  let value := Text.trim value
  if name.isEmpty || value.isEmpty then none
  else some (Declaration.edited name value disabled)

/-- The properties of a line, in order. -/
def propertiesOfLine (line : List Char) : List Property :=
  let (content, disabled) := body (Text.trim line)
  (content.splitOn ';').filterMap (propertyOfFragment? disabled)

/-- The properties of a text, in order. The blanks around a line do not count, so a
carriage return before a line feed belongs to neither line. -/
def properties (text : List Char) : List Property :=
  (text.splitOn '\n').flatMap propertiesOfLine

/-- Reads a style text. -/
def parse (text : String) : Declaration :=
  Declaration.ofList (properties text.toList)

end StyleCascade.StyleText
