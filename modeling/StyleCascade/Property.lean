import StyleCascade.Json.Printer
import StyleCascade.Text

/-!
# Style properties

A property has a name, perhaps a state in which it applies, and a value. Its key is
what a declaration stores it under: the name, then the state after a colon if there
is one. A property without a value is undefined: it stands for a property that was
set once and that nothing sets any more, so a view has to clear it.
-/
namespace StyleCascade

structure Property where
  name : String
  state : Option String := none
  /-- `none` marks an undefined property; the JSON null is a value like any other. -/
  value : Option Json := none
  disabled : Bool := false
deriving Repr, Inhabited

namespace Property

/-- The name and, after a colon, the state. -/
def key (p : Property) : String :=
  match p.state with
  | none => p.name
  | some state => p.name ++ ":" ++ state

/-- Splits a key at its first colon. -/
def splitKey (key : String) : String × Option String :=
  match Text.cutAt ':' key.toList with
  | none => (key, none)
  | some (name, state) => (String.ofList name, some (String.ofList state))

/-- The enabled property that is stored under `key`. -/
def ofKey (key : String) (value : Option Json) : Property where
  name := (splitKey key).1
  state := (splitKey key).2
  value := value

def isUndefined (p : Property) : Bool :=
  p.value.isNone

/-- The state that a property gets when its rule applies only while states above the
node allow it starts with this word. -/
def pseudoMark : String := "pseudo"

/-- Whether the state says that the property applies only through a listener. -/
def isPseudo (p : Property) : Bool :=
  match p.state with
  | none => false
  | some state => pseudoMark.toList.isPrefixOf state.toList

/-- A value as an inspector shows it: a string without quotes, anything else as JSON. -/
def textOfValue : Option Json → String
  | none => "undefined"
  | some (.string s) => s
  | some value => value.compact

def valueText (p : Property) : String :=
  textOfValue p.value

/-- Key and value as an inspector's log shows them. -/
def text (p : Property) : String :=
  p.key ++ ": " ++ p.valueText

/-- Whether two properties agree in all their parts. -/
def same (p q : Property) : Bool :=
  p.name = q.name && p.state = q.state && p.disabled = q.disabled &&
    match p.value, q.value with
    | none, none => true
    | some v, some w => v.same w
    | _, _ => false

/-! ## Names for the inspector

The inspector writes names in kebab case, `background-color` for `backgroundColor`. -/

/-- Every ASCII capital becomes a dash and its small letter. -/
def kebabChars (name : List Char) : List Char :=
  name.flatMap fun c => if c.isUpper then ['-', c.toLower] else [c]

/-- Reads on after at least one character has been written. A dash is dropped, and the
character after one or more of them is capitalised; `raised` says that a dash was the
last character. -/
def camelTail (raised : Bool) : List Char → List Char
  | [] => []
  | c :: rest =>
    if c = '-' then camelTail true rest
    else (if raised then c.toUpper else c) :: camelTail false rest

/-- The inverse reading of a kebab-case name. A dash at the start stays. -/
def camelChars : List Char → List Char
  | [] => []
  | c :: rest => c :: camelTail false rest

def inspectorName (p : Property) : String :=
  String.ofList (kebabChars p.name.toList) ++ p.state.elim "" (":" ++ ·)

end Property
end StyleCascade
