import StyleCascade.MatchedRule
import StyleCascade.NodeId

/-!
# Documents

A document is an arena of nodes under a root that is never removed, the sheets that
apply to all of it, and the environment its media conditions are evaluated in. Nodes
hold their place in the tree, the names selectors ask for, their styles, and what
connects them to views. A handle outlives its node: a removed node leaves an empty
slot, which is not used again.

`Document.node?` is the view of the arena; every operation has a lemma that says what
it does to it.
-/
namespace StyleCascade

/-- What a view is told to do. -/
inductive ViewUpdate
  /-- Lay the style of a rule, known by its key, over the normal style. -/
  | apply (key : String) (style : Declaration)
  /-- Go back to the normal style. -/
  | restore
deriving Repr, Inhabited

/-- The states that are known to be on or off, by name. -/
abbrev StateMap := List (String × Bool)

/-- The view bound to a node, as far as styles depend on it. -/
structure Component where
  states : StateMap := []
  /-- Whether the view exists yet. Updates for one that does not are kept on the node. -/
  realized : Bool := true
deriving Repr, Inhabited

/-- A rule to re-evaluate for `leaf` when the states of the node that holds the listener
change. -/
structure Listener where
  selector : Selector
  leaf : NodeId
  rule : StyleRule
deriving Repr

/-- What tells listeners of one holder apart. -/
structure ListenerKey where
  selector : Selector
  leaf : NodeId
  order : Nat
deriving DecidableEq, Repr

namespace Listener

def key (l : Listener) : ListenerKey :=
  ⟨l.selector, l.leaf, l.rule.order⟩

/-- The key under which a view receives the style of the rule. -/
def pseudoKey (l : Listener) : String :=
  l.selector.text

end Listener

/-- A sheet that several places share. The serial number tells it from other sheets, also
from those that hold the same rules. -/
structure SharedSheet where
  serial : Nat
  sheet : StyleSheet
deriving Repr, Inhabited

structure Node where
  tag : String
  parent : Option NodeId := none
  children : List NodeId := []
  cssId : Option String := none
  classes : List String := []
  inlineStyle : Declaration := .empty
  finalStyle : Declaration := .empty
  /-- Whether the final style may be out of date. -/
  dirty : Bool := true
  component : Option Component := none
  /-- The last update that no view has taken yet. -/
  pending : Option ViewUpdate := none
  listeners : List Listener := []
  /-- The nodes that hold listeners whose leaf is this node. -/
  holders : List NodeId := []
  /-- The states reported for the node, from all reports together. -/
  reported : StateMap := []
  /-- The node's own sheet, which its descendants use too. -/
  sheet : Option SharedSheet := none
  /-- The rules found when the node was last restyled. -/
  matched : Option (List MatchedRule) := none
deriving Repr, Inhabited

structure Document where
  /-- The nodes by index; removed ones are `none`. -/
  slots : Array (Option Node)
  /-- The sheets that apply to all nodes, in ascending priority. -/
  sheets : List SharedSheet := []
  /-- Which node uses which sheet, by serial number; the root uses those of the document. -/
  owners : List (Nat × NodeId) := []
  media : MediaEnvironment := {}
deriving Repr, Inhabited

namespace Document

/-- A document that holds nothing but its root. -/
def new (media : MediaEnvironment := {}) : Document where
  slots := #[some { tag := "#document" }]
  media := media

def node? (d : Document) (id : NodeId) : Option Node :=
  d.slots[id.index]?.join

def contains (d : Document) (id : NodeId) : Bool :=
  (d.node? id).isSome

/-- All handles given out so far, in ascending order. -/
def handles (d : Document) : List NodeId :=
  (List.range d.slots.size).map NodeId.mk

def parent? (d : Document) (id : NodeId) : Option NodeId :=
  (d.node? id).bind (·.parent)

def children (d : Document) (id : NodeId) : List NodeId :=
  ((d.node? id).map (·.children)).getD []

def isDirty (d : Document) (id : NodeId) : Bool :=
  (d.node? id).any (·.dirty)

/-! ## Changing nodes -/

/-- Changes a node, if it exists. -/
def modify (d : Document) (id : NodeId) (f : Node → Node) : Document :=
  { d with slots := d.slots.modify id.index (Option.map f) }

/-- Changes every node. -/
def modifyAll (d : Document) (f : Node → Node) : Document :=
  { d with slots := d.slots.map (Option.map f) }

/-- Empties the slot of a node. -/
def drop (d : Document) (id : NodeId) : Document :=
  { d with slots := d.slots.modify id.index fun _ => none }

/-- Adds a node without parent. -/
def create (d : Document) (tag : String) : NodeId × Document :=
  (⟨d.slots.size⟩, { d with slots := d.slots.push (some { tag }) })

/-! ## Walks

A walk up or down the tree takes at most as many steps as there are slots. -/

/-- The nodes met on `steps` steps up from `id`, nearest first. -/
def above (d : Document) : Nat → NodeId → List NodeId
  | 0, _ => []
  | steps + 1, id =>
    match d.parent? id with
    | none => []
    | some parent => parent :: d.above steps parent

/-- The strict ancestors of a node, nearest first. -/
def ancestors (d : Document) (id : NodeId) : List NodeId :=
  d.above d.slots.size id

/-- The existing nodes at most `levels` levels from `id` on, parents before children and
siblings in their order. -/
def below (d : Document) : Nat → NodeId → List NodeId
  | 0, _ => []
  | levels + 1, id =>
    match d.node? id with
    | none => []
    | some node => id :: node.children.flatMap (d.below levels)

/-- A node and all its descendants, in tree order. -/
def subtree (d : Document) (id : NodeId) : List NodeId :=
  d.below d.slots.size id

/-! ## What the changes do to the view -/

theorem node?_modify (d : Document) (id : NodeId) (f : Node → Node) (j : NodeId) :
    (d.modify id f).node? j = if id = j then (d.node? j).map f else d.node? j := by
  obtain ⟨i⟩ := id
  obtain ⟨j⟩ := j
  simp only [node?, modify, Array.getElem?_modify, NodeId.mk.injEq]
  split
  · cases d.slots[j]? <;> simp
  · rfl

theorem node?_modifyAll (d : Document) (f : Node → Node) (j : NodeId) :
    (d.modifyAll f).node? j = (d.node? j).map f := by
  simp only [node?, modifyAll, Array.getElem?_map]
  cases d.slots[j.index]? <;> simp

theorem node?_drop (d : Document) (id j : NodeId) :
    (d.drop id).node? j = if id = j then none else d.node? j := by
  obtain ⟨i⟩ := id
  obtain ⟨j⟩ := j
  simp only [node?, drop, Array.getElem?_modify, NodeId.mk.injEq]
  split
  · cases d.slots[j]? <;> simp
  · rfl

theorem node?_create (d : Document) (tag : String) (j : NodeId) :
    (d.create tag).2.node? j = if j = (d.create tag).1 then some { tag } else d.node? j := by
  obtain ⟨j⟩ := j
  simp only [node?, create, Array.getElem?_push, NodeId.mk.injEq]
  split <;> simp

end Document
end StyleCascade
