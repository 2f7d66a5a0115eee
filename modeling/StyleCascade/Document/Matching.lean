import StyleCascade.Document.Tree

/-!
# Selectors on a tree

Whether a selector fits a node is read off the node and the list of its strict
ancestors, nearest first: a child link asks the next ancestor, a descendant link any
ancestor that is left. The links are tried from the subject outwards, with every
choice of ancestors.

A simple selector fits by shape when the names agree, and fits when its state allows
it as well. During the cascade the states above a subject are left open: a selector
that depends on them counts as matched when the shape of the tree allows it, and a
listener decides the rest later.
-/
namespace StyleCascade

namespace Node

/-- Whether the name of a simple selector is that of the node, its state left aside. -/
def fitsShape (n : Node) (s : SimpleSelector) : Bool :=
  match s.kind with
  | .id => n.cssId = some s.name
  | .className => s.name ∈ n.classes
  | .element => n.tag = s.name

/-- Whether a state counts as on. A report decides first, then the view if it exists.
Where neither is there, the state is off as soon as anything has been reported. -/
def allowsState (n : Node) (state : String) : Bool :=
  match Keyed.lookup Prod.fst state n.reported with
  | some (_, value) => value
  | none =>
    match n.component with
    | some c =>
      if c.realized then ((Keyed.lookup Prod.fst state c.states).map (·.2)).getD false
      else n.reported.isEmpty
    | none => n.reported.isEmpty

/-- Whether a simple selector fits the node, its state included. -/
def fits (n : Node) (s : SimpleSelector) : Bool :=
  n.fitsShape s && s.state.all n.allowsState

end Node

/-! ## Links -/

/-- Whether a test succeeds at some node of a list, given the nodes behind it. -/
def anyAbove (test : NodeId → List NodeId → Bool) : List NodeId → Bool
  | [] => false
  | id :: above => test id above || anyAbove test above

/-- The nodes of a list up to the first one at which a test succeeds, each with the nodes
behind it. -/
def triedAbove (test : NodeId → List NodeId → Bool) :
    List NodeId → List (NodeId × List NodeId)
  | [] => []
  | id :: above => (id, above) :: if test id above then [] else triedAbove test above

namespace SelectorLink

/-- Whether links fit the ancestors `above`, given which simple selector fits which node. -/
def allFit (fits : NodeId → SimpleSelector → Bool) : List SelectorLink → List NodeId → Bool
  | [], _ => true
  | ⟨.child, part⟩ :: links, above =>
    match above with
    | [] => false
    | id :: above => fits id part && allFit fits links above
  | ⟨.descendant, part⟩ :: links, above =>
    anyAbove (fun id above => fits id part && allFit fits links above) above

/-- The nodes whose answer can change when what is above them changes: a node without the
parent that a child link asks for, a node under a dirty parent that does not fit, and a
node whose ancestors end before the root without one that fits. Only attempts that the
search makes are counted. -/
def unsettled (fits : NodeId → SimpleSelector → Bool) (dirty : NodeId → Bool) :
    List SelectorLink → NodeId → List NodeId → List NodeId
  | [], _, _ => []
  | ⟨.child, part⟩ :: links, node, above =>
    match above with
    | [] => [node]
    | id :: above =>
      (if fits id part then unsettled fits dirty links id above else []) ++
        if (fits id part && allFit fits links above) || !dirty id then [] else [node]
  | ⟨.descendant, part⟩ :: links, node, above =>
    let test (id : NodeId) (above : List NodeId) := fits id part && allFit fits links above
    ((triedAbove test above).flatMap fun (id, above) =>
        if fits id part then unsettled fits dirty links id above else []) ++
      if anyAbove test above || above.getLast?.getD node = .root then [] else [node]

end SelectorLink

/-! ## Selectors -/

/-- How a selector matches in the cascade. -/
inductive Match
  | none
  /-- The selector matches, and no state above the subject can change that. -/
  | plain
  /-- The shape of the tree matches; states above the subject decide. -/
  | pseudo
deriving DecidableEq, Repr

namespace Document

def fitsShape (d : Document) (id : NodeId) (s : SimpleSelector) : Bool :=
  (d.node? id).any (·.fitsShape s)

def fits (d : Document) (id : NodeId) (s : SimpleSelector) : Bool :=
  (d.node? id).any (·.fits s)

/-- Whether a selector matches by the shape of the tree, all states left aside. -/
def matchesShape (d : Document) (s : Selector) (id : NodeId) : Bool :=
  d.fitsShape id s.subject && SelectorLink.allFit d.fitsShape s.links (d.ancestors id)

/-- Whether a selector matches with the states as they are now. -/
def matchesLive (d : Document) (s : Selector) (id : NodeId) : Bool :=
  d.fits id s.subject && SelectorLink.allFit d.fits s.links (d.ancestors id)

/-- How a selector matches in the cascade. The state of the subject has to be on. -/
def cascadeMatch (d : Document) (s : Selector) (id : NodeId) : Match :=
  if !d.fits id s.subject then .none
  else if s.isStateDependent then
    if SelectorLink.allFit d.fitsShape s.links (d.ancestors id) then .pseudo else .none
  else if SelectorLink.allFit d.fits s.links (d.ancestors id) then .plain
  else .none

/-- The nodes that a match in the cascade leaves unsettled. -/
def cascadeUnsettled (d : Document) (s : Selector) (id : NodeId) : List NodeId :=
  if d.fits id s.subject then
    let fits := if s.isStateDependent then d.fitsShape else d.fits
    SelectorLink.unsettled fits d.isDirty s.links id (d.ancestors id)
  else []

/-- The listeners that a match in the cascade asks for: one on every ancestor that can hold
a state the selector depends on. -/
def cascadeListeners (d : Document) (rule : StyleRule) (s : Selector) (id : NodeId) :
    List (NodeId × Listener) :=
  if d.cascadeMatch s id = .pseudo then
    ((d.ancestors id).filter fun holder => s.stateParts.any (d.fitsShape holder)).map fun holder =>
      (holder, ⟨s, id, rule⟩)
  else []

end Document
end StyleCascade
