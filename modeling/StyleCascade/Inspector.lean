import StyleCascade.Document.Cascade
import StyleCascade.StyleText

/-!
# The inspector

An inspector shows the styles of a node as texts, and edits the inline style. Rules
that apply only through a listener cannot be edited.
-/
namespace StyleCascade

structure InspectedProperty where
  name : String
  value : String
  disabled : Bool
deriving DecidableEq, Repr

structure InspectedRule where
  name : String
  order : Nat
  score : Nat
  editable : Bool
  style : List InspectedProperty
deriving DecidableEq, Repr

structure InspectedStyles where
  inlineStyle : InspectedRule
  /-- Highest rank first. -/
  matchedRules : List InspectedRule
deriving DecidableEq, Repr

namespace InspectedProperty

def ofProperty (p : Property) : InspectedProperty :=
  ⟨p.inspectorName, p.valueText, p.disabled⟩

def toJson (p : InspectedProperty) : Json :=
  .object [("name", .string p.name), ("value", .string p.value), ("disabled", .bool p.disabled)]

end InspectedProperty

namespace InspectedRule

def ofMatched (m : MatchedRule) : InspectedRule where
  name := m.rule.text
  order := m.rule.order
  score := m.score
  editable := m.rule.editable && m.pseudoKey.isNone
  style := m.rule.declaration.properties.map .ofProperty

/-- The inline style, shown as a rule of the lowest rank. -/
def ofInline (style : Declaration) : InspectedRule where
  name := "INLINE"
  order := 0
  score := 0
  editable := true
  style := style.properties.map .ofProperty

def toJson (r : InspectedRule) : Json :=
  .object [("name", .string r.name), ("order", .integer r.order), ("score", .integer r.score),
    ("editable", .bool r.editable), ("style", .array (r.style.map (·.toJson)))]

end InspectedRule

def InspectedStyles.toJson (s : InspectedStyles) : Json :=
  .object [("inlineStyle", s.inlineStyle.toJson),
    ("matchedRules", .array (s.matchedRules.map (·.toJson)))]

namespace Document

/-- The inline style of a node, and the rules found when it was last restyled. -/
def inspect? (d : Document) (id : NodeId) : Option InspectedStyles :=
  (d.node? id).map fun n =>
    { inlineStyle := .ofInline n.inlineStyle
      matchedRules := (n.matched.getD []).reverse.map .ofMatched }

/-- The properties that a node shows. -/
def inspectComputed (d : Document) (id : NodeId) : List InspectedProperty :=
  match d.node? id with
  | none => []
  | some n => (n.finalStyle.properties.filter (!·.isUndefined)).map .ofProperty

/-- Replaces the inline style by a style text; says whether the node exists. -/
def setStyleText (d : Document) (id : NodeId) (text : String) : Document × Bool :=
  if d.contains id then (d.replaceInline id (StyleText.parse text), true) else (d, false)

/-- Merges a style text into the inline style; says whether that did anything. -/
def setPropertyText (d : Document) (id : NodeId) (text : String) : Document × Bool :=
  let style := StyleText.parse text
  if d.contains id && !style.properties.isEmpty then (d.updateInline id style, true)
  else (d, false)

end Document
end StyleCascade
