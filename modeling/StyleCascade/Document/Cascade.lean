import StyleCascade.Derived
import StyleCascade.Document.Matching

/-!
# The cascade

Restyling a node finds the rules that match it and merges them, lowest rank first,
with its inline style on top. What the node showed before and nothing sets any more
stays in the style as an undefined property, so that a view clears it.

A rule that matches only while states above the node allow it contributes its
properties under a state of their own, `pseudo+` and the text of its selector. They
never touch the properties that apply at once.
-/
namespace StyleCascade

/-! ## Which rules match -/

/-- The first of the selectors with the largest specificity. -/
def Selector.best? : List Selector → Option Selector
  | [] => none
  | s :: rest =>
    match best? rest with
    | none => some s
    | some t => if s.specificity < t.specificity then some t else some s

namespace Document

/-- The style rules of all sheets that apply to a node, in order. -/
def activeRules (d : Document) (id : NodeId) : List StyleRule :=
  (d.sheetStack id).sheets.flatMap (·.activeRules d.media)

/-- A rule as it matches a node, if it does. A selector that matches at once goes before
all that depend on states. -/
def matchRule? (d : Document) (id : NodeId) (rule : StyleRule) : Option MatchedRule :=
  match Selector.best? (rule.selectors.filter fun s => d.cascadeMatch s id = .plain) with
  | some s => some { rule, specificity := s.specificity }
  | none =>
    (Selector.best? (rule.selectors.filter fun s => d.cascadeMatch s id = .pseudo)).map fun s =>
      { rule, specificity := s.specificity, pseudoKey := some s.text }

/-- The rules that match a node, lowest rank first. -/
def matchedRules (d : Document) (id : NodeId) : List MatchedRule :=
  MatchedRule.sort ((d.activeRules id).filterMap (d.matchRule? id))

/-- The nodes that matching a node leaves unsettled. -/
def unsettled (d : Document) (id : NodeId) : List NodeId :=
  (d.activeRules id).flatMap fun rule =>
    rule.selectors.flatMap fun s => d.cascadeUnsettled s id

/-- The listeners that matching a node asks for, with their holders. -/
def neededListeners (d : Document) (id : NodeId) : List (NodeId × Listener) :=
  (d.activeRules id).flatMap fun rule =>
    rule.selectors.flatMap fun s => d.cascadeListeners rule s id

/-- Matches a node: its listeners are replaced by those it needs now, and the nodes left
unsettled become dirty. -/
def rematch (d : Document) (id : NodeId) : Document × List MatchedRule :=
  let fresh := (d.releaseListeners id).markDirty (d.unsettled id)
  ((d.neededListeners id).foldl (fun d (holder, l) => d.addListener holder l) fresh,
    d.matchedRules id)

end Document

/-! ## What they give -/

/-- The state of a property that applies through a listener. -/
def Property.pseudoState (key : String) : String :=
  pseudoMark ++ "+" ++ key

/-- What a matched rule contributes, in order: its enabled properties, put under the
rule's key if it has one. A property that carries such a state already keeps it. -/
def MatchedRule.contributions (m : MatchedRule) : List Property :=
  match m.pseudoKey with
  | none => m.rule.declaration.enabled
  | some key => m.rule.declaration.enabled.map fun p =>
      if p.isPseudo then p else { p with state := some (Property.pseudoState key) }

/-- The style that matched rules and an inline style give, over the style before. -/
def Declaration.cascade (before : Declaration) (rules : List MatchedRule)
    (inline : Declaration) (sheets : SheetStack) : Declaration :=
  ((before.clear.insertAll (rules.flatMap (·.contributions))).insertAll inline.enabled).expand
    sheets

namespace Document

/-- Computes the final style of a node from matched rules and its inline style. -/
def applyRules (d : Document) (id : NodeId) (rules : List MatchedRule) : Document :=
  let sheets := d.sheetStack id
  d.modify id fun n => { n with finalStyle := n.finalStyle.cascade rules n.inlineStyle sheets }

/-- Restyles a node; says whether it exists. -/
def restyle (d : Document) (id : NodeId) : Document × Bool :=
  if d.contains id then
    let (d, rules) := (d.modify id fun n => { n with dirty := false }).rematch id
    ((d.applyRules id rules).modify id fun n => { n with matched := some rules }, true)
  else (d, false)

/-- The dirty nodes, first those under the root in tree order, then the others. -/
def dirtyNodes (d : Document) : List NodeId :=
  let attached := d.subtree .root
  (attached ++ (d.handles.filter fun id => d.contains id && id ∉ attached)).filter d.isDirty

/-- Restyles the nodes that are dirty now; gives their number. -/
def restyleDirty (d : Document) : Document × Nat :=
  (d.dirtyNodes.foldl (fun d id => (d.restyle id).1) d, d.dirtyNodes.length)

/-! ## Inline styles -/

/-- Replaces the inline style of a node and restyles the node. -/
def replaceInline (d : Document) (id : NodeId) (style : Declaration) : Document :=
  let style := style.expand (d.sheetStack id)
  ((d.modify id fun n => { n with inlineStyle := style }).restyle id).1

/-- Merges a declaration into the inline style of a node and restyles the node. -/
def updateInline (d : Document) (id : NodeId) (style : Declaration) : Document :=
  let style := style.expand (d.sheetStack id)
  ((d.modify id fun n => { n with inlineStyle := n.inlineStyle.merge style }).restyle id).1

end Document
end StyleCascade
