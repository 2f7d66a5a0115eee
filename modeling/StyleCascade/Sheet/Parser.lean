import StyleCascade.Json.Reader
import StyleCascade.Media.Parser
import StyleCascade.Notice
import StyleCascade.Selector.Parser
import StyleCascade.Sheet

/-!
# Reading style sheets

A sheet is a JSON object. The entries `@KEYFRAMES`, `@FONT-FACE`, `@MEDIA` and `@info`
have meanings of their own; every other entry is a style rule, unless its name is
blank, starts with `@`, or holds no usable selector.

A session numbers the style rules of all sheets it reads, so that a rule read later
has a higher order. Reading stops at the first entry that is in fault. The numbers
given out by then stay used, and so do the notices.
-/
namespace StyleCascade

/-- What is wrong with a sheet, a node tree or an inline style. -/
inductive StyleError
  | json (fault : Json.Fault)
  | notAnObject (what : String)
  | invalidDeclaration (selector : String)
  | invalidMediaList
  | invalidAtRule (name : String)
deriving DecidableEq, Repr

/-- The wording of an error. -/
def StyleError.message : StyleError → String
  | json _ => "Malformed style sheet JSON"
  | notAnObject what => s!"Expected a JSON object for {what}"
  | invalidDeclaration selector => s!"Declaration for selector '{selector}' is not an object"
  | invalidMediaList => "@MEDIA must be an array of objects"
  | invalidAtRule name => s!"{name} must be an object"

/-- The number for the next rule, and the notices given so far. -/
structure Session where
  nextOrder : Nat := 0
  notices : List Notice := []
deriving Repr, Inhabited

/-- Reading within a session: the session is kept also when reading fails. -/
abbrev Reading := ExceptT StyleError (StateM Session)

namespace Session

def notify (n : Notice) : Reading Unit :=
  modify fun s => { s with notices := s.notices ++ [n] }

/-- Gives out the next number. -/
def takeOrder : Reading Nat := do
  let s ← get
  set { s with nextOrder := s.nextOrder + 1 }
  return s.nextOrder

/-! ## Media conditions -/

/-- The values that were read as zero, up to the first one that does not fit. -/
def targetNotices (feature : MediaFeature) : List (Comparison × List Char) → List Notice
  | [] => []
  | (_, text) :: rest =>
    (Media.badNumbers feature text).map (fun t => .invalidMediaValue (String.ofList t)) ++
      if (Media.target? feature text).isSome then targetNotices feature rest else []

/-- What there is to tell about a query: its bad values, then whether it can match. -/
def queryNotices (list : String) (query : List Char) : List Notice :=
  let conditions := Media.conditionTexts (Media.splitNegation (Text.trim query)).2
  let values := conditions.flatMap fun text =>
    match Media.conditionText? text with
    | some (feature, comparisons) => targetNotices feature comparisons
    | none => []
  values ++
    if (Media.query query).valid then []
    else [.unsupportedQuery (String.ofList (Text.trim query)) list]

def mediaNotices (text : String) : List Notice :=
  (Media.queryTexts text.toList).flatMap (queryNotices text)

/-! ## Rules -/

/-- The members of an object that has to be one. -/
def requireObject (value : Json) (otherwise : StyleError) : Reading (List (String × Json)) :=
  match value with
  | .object members => return members
  | _ => throw otherwise

/-- Reads an entry as a style rule, if it is one. Only a rule that is kept takes a
number. -/
def readStyleRule (inMedia : Bool) (key : String) (value : Json) : Reading (Option StyleRule) := do
  let text := Text.trimString key
  match text.toList with
  | [] => return none
  | '@' :: _ =>
    notify (.unsupportedAtRule text)
    return none
  | _ =>
    let members ← requireObject value (.invalidDeclaration text)
    match Selector.listOfString text with
    | [] =>
      notify (.noUsableSelector text)
      return none
    | selectors =>
      let order ← takeOrder
      let declaration := Declaration.ofMembers members
      return some { selectors, declaration, text, order, inMedia }

/-- Reads the style rules among a list of entries. -/
def readStyleRules (inMedia : Bool) : List (String × Json) → Reading (List StyleRule)
  | [] => return []
  | (key, value) :: rest => do
    let rule ← readStyleRule inMedia key value
    return rule.toList ++ (← readStyleRules inMedia rest)

/-- Reads a group of rules under a condition, which is the entry `condition`. -/
def readMediaGroup (group : Json) : Reading Rule := do
  let members ← requireObject group .invalidMediaList
  let condition := ((group.member? "condition").bind Json.asString?).getD ""
  let rules ← readStyleRules true (members.filter (·.1 ≠ "condition"))
  (mediaNotices condition).forM notify
  return .media (MediaList.ofString condition) (rules.map .style)

def readMediaGroups : List Json → Reading (List Rule)
  | [] => return []
  | group :: rest => do
    let rule ← readMediaGroup group
    return rule :: (← readMediaGroups rest)

/-- Reads an entry of a sheet: the rules it gives. -/
def readEntry (key : String) (value : Json) : Reading (List Rule) := do
  if key = "@KEYFRAMES" then
    return [.keyframes (← requireObject value (.invalidAtRule key))]
  else if key = "@FONT-FACE" then
    return [.fontFace (← requireObject value (.invalidAtRule key))]
  else if key = "@MEDIA" then
    match value with
    | .array groups => readMediaGroups groups
    | _ => throw .invalidMediaList
  else if key = "@info" then
    let _ ← requireObject value (.invalidAtRule key)
    return []
  else
    return (← readStyleRule false key value).toList.map .style

def readEntries : List (String × Json) → Reading (List Rule)
  | [] => return []
  | (key, value) :: rest => do
    let rules ← readEntry key value
    return rules ++ (← readEntries rest)

/-- The number that a sheet carries in its `@info` entry. -/
def objectId? (sheet : Json) : Option Int := do
  (← (← sheet.member? "@info").member? "styleObjectId").asInt64?

/-- Reads a sheet. -/
def readSheet (sheet : Json) : Reading StyleSheet := do
  let members ← requireObject sheet (.notAnObject "style sheet")
  let rules ← readEntries members
  notify (.sheetRead rules.length)
  return { rules, objectId := objectId? sheet }

/-- Reads a sheet from its text. -/
def readSheetText (text : String) : Reading StyleSheet := do
  match Json.ofString text with
  | .ok sheet => readSheet sheet
  | .error fault => throw (.json fault)

/-- Runs a reading in a session. -/
def run {α : Type} (s : Session) (reading : Reading α) : Except StyleError α × Session :=
  Id.run (StateT.run (ExceptT.run reading) s)

end Session
end StyleCascade
