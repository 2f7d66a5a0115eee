import StyleCascade.Document.Cascade

/-!
# State changes

A rule like `.button:active .label` cannot be folded into the style of the label once
and for all. When states of the button change, the listeners that it holds are
evaluated again, and the views of the leaves are told to lay the style of the rule over
their own, or to go back to normal.

An update goes to the view of a node at once if there is a realized one. Otherwise it
waits on the node, in place of any update that waited before.
-/
namespace StyleCascade

/-- An update that the view of a node has received. -/
structure Delivery where
  node : NodeId
  update : ViewUpdate
deriving Repr

namespace Document

/-- Adds reported states to those of a node; a state that is reported again takes its new
value. -/
def recordStates (d : Document) (id : NodeId) (states : StateMap) : Document :=
  d.modify id fun n => { n with reported := Keyed.upsertAll Prod.fst n.reported states }

/-! ## Views -/

/-- Hands an update to the view of a node, or keeps it for later. -/
def deliver (d : Document) (id : NodeId) (update : ViewUpdate) : Document × List Delivery :=
  match d.node? id with
  | none => (d, [])
  | some node =>
    if node.component.any (·.realized) then
      (d.modify id fun n => { n with pending := none }, [⟨id, update⟩])
    else (d.modify id fun n => { n with pending := some update }, [])

/-- Hands over several updates in turn. -/
def deliverAll (d : Document) : List (NodeId × ViewUpdate) → Document × List Delivery
  | [] => (d, [])
  | (id, update) :: rest =>
    let (d, first) := d.deliver id update
    let (d, others) := d.deliverAll rest
    (d, first ++ others)

/-- Binds a view to a node. A realized view receives the update that waits for it. -/
def bind (d : Document) (id : NodeId) (component : Component) : Document × List Delivery :=
  match d.node? id with
  | none => (d, [])
  | some node =>
    if component.realized then
      (d.modify id fun n => { n with component := some component, pending := none },
        node.pending.toList.map (Delivery.mk id))
    else (d.modify id fun n => { n with component := some component }, [])

/-- Takes the view from a node; says whether there was one. -/
def unbind (d : Document) (id : NodeId) : Document × Bool :=
  (d.modify id fun n => { n with component := none }, (d.node? id).any (·.component.isSome))

/-- Changes what the view of a node reports of itself. -/
def changeView (d : Document) (id : NodeId) (f : Component → Component) : Document :=
  d.modify id fun n => { n with component := n.component.map f }

/-! ## Listeners -/

end Document

/-- Listeners of one leaf whose selectors have the same subject are decided together. -/
structure ListenerGroup where
  leaf : NodeId
  subject : String
deriving DecidableEq, Repr

def Listener.group (l : Listener) : ListenerGroup :=
  ⟨l.leaf, l.selector.subject.text⟩

namespace Document

def listenersOf (d : Document) (holder : NodeId) : List Listener :=
  ((d.node? holder).map (·.listeners)).getD []

/-- Whether the selector of a listener matches its leaf now. -/
def satisfied (d : Document) (l : Listener) : Bool :=
  d.matchesLive l.selector l.leaf

/-- The update that lays the style of a listener's rule over that of its leaf. -/
def pseudoUpdate (d : Document) (l : Listener) : ViewUpdate :=
  .apply l.pseudoKey ((Declaration.ofList l.rule.declaration.enabled).expand
    (d.sheetStack l.leaf))

/-- The updates for a group: those of its satisfied listeners, or back to normal if there
are none. -/
def groupUpdates (d : Document) (holder : NodeId) (group : ListenerGroup) :
    List (NodeId × ViewUpdate) :=
  match (d.listenersOf holder).filter fun l => l.group = group && d.satisfied l with
  | [] => [(group.leaf, .restore)]
  | listeners => listeners.map fun l => (group.leaf, d.pseudoUpdate l)

/-- The groups of the listeners on a node, in the order of their first members. -/
def groupsOf (d : Document) (holder : NodeId) : List ListenerGroup :=
  ((d.listenersOf holder).map Listener.group).eraseDups

/-- The updates that the listeners on a node call for. -/
def updatesFrom (d : Document) (holder : NodeId) : List (NodeId × ViewUpdate) :=
  (d.groupsOf holder).flatMap (d.groupUpdates holder)

/-- Takes in a report of changed states and updates the views of the leaves that listen. -/
def changeStates (d : Document) (id : NodeId) (states : StateMap) : Document × List Delivery :=
  let d := d.recordStates id states
  d.deliverAll (d.updatesFrom id)

end Document
end StyleCascade
