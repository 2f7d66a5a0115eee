import StyleCascade.Document
import StyleCascade.Text

/-!
# Tree operations

Nodes are appended, detached and removed, and get their names and sheets. Whatever can
change the style of a node marks it dirty: a change to a node marks its subtree, since
selectors look at ancestors and sheets are inherited; a change to the sheets of the
document or to the media environment marks every node.
-/
namespace StyleCascade
namespace Document

/-- Marks nodes dirty. -/
def markDirty (d : Document) (ids : List NodeId) : Document :=
  ids.foldl (fun d id => d.modify id fun n => { n with dirty := true }) d

def markSubtreeDirty (d : Document) (id : NodeId) : Document :=
  d.markDirty (d.subtree id)

def markAllDirty (d : Document) : Document :=
  d.modifyAll fun n => { n with dirty := true }

/-! ## Links -/

/-- Takes `child` from the children of `parent`; says whether it was one. -/
def removeChild (d : Document) (parent child : NodeId) : Document × Bool :=
  if child ∈ d.children parent then
    let unlinked := (d.modify parent fun n =>
        { n with children := n.children.filter (· ≠ child) }).modify child fun n =>
      { n with parent := none }
    (unlinked.markSubtreeDirty child, true)
  else (d, false)

/-- Takes a node from its parent, if it has one. -/
def detach (d : Document) (child : NodeId) : Document :=
  match d.parent? child with
  | some parent => (d.removeChild parent child).1
  | none => d

/-- Makes a detached node the last child of `parent`. -/
def attach (d : Document) (parent child : NodeId) : Document :=
  let linked := (d.modify parent fun n => { n with children := n.children ++ [child] }).modify
    child fun n => { n with parent := some parent }
  linked.markSubtreeDirty child

/-- Whether `child` may become a child of `parent`: both exist, `child` is not the root, and
`parent` is neither `child` nor below it. -/
def canAppend (d : Document) (parent child : NodeId) : Bool :=
  parent ≠ child && d.contains parent && d.contains child && child ≠ .root &&
    child ∉ d.ancestors parent

/-- Appends `child` under `parent`, away from any other parent; says whether that is
allowed. A child that is in place already stays where it is. -/
def append (d : Document) (parent child : NodeId) : Document × Bool :=
  if d.canAppend parent child then
    if d.parent? child = some parent then (d, true)
    else ((d.detach child).attach parent child, true)
  else (d, false)

/-! ## Listeners

A listener stands in the registry of its holder, and its leaf keeps the holder in an
index. -/

/-- Registers a listener on `holder`. -/
def addListener (d : Document) (holder : NodeId) (l : Listener) : Document :=
  if d.contains holder then
    (d.modify holder fun n =>
        { n with listeners := Keyed.upsert Listener.key l n.listeners }).modify l.leaf fun n =>
      { n with holders := if holder ∈ n.holders then n.holders else n.holders ++ [holder] }
  else d

/-- Drops every listener whose leaf is `leaf`, wherever it is held. -/
def releaseListeners (d : Document) (leaf : NodeId) : Document :=
  let holders := ((d.node? leaf).map (·.holders)).getD []
  holders.foldl
    (fun d holder => d.modify holder fun n =>
      { n with listeners := n.listeners.filter (·.leaf ≠ leaf) })
    (d.modify leaf fun n => { n with holders := [] })

/-! ## Sheets -/

def addOwner (d : Document) (sheet : SharedSheet) (id : NodeId) : Document :=
  if (sheet.serial, id) ∈ d.owners then d
  else { d with owners := d.owners ++ [(sheet.serial, id)] }

def removeOwner (d : Document) (sheet : SharedSheet) (id : NodeId) : Document :=
  { d with owners := d.owners.filter (· ≠ (sheet.serial, id)) }

/-- The nodes that use a sheet, in ascending order. -/
def ownersOf (d : Document) (serial : Nat) : List NodeId :=
  ((d.owners.filter (·.1 = serial)).map (·.2)).mergeSort (·.index ≤ ·.index)

/-- Adds a sheet to those of the document, with the highest priority of them. -/
def addSheet (d : Document) (sheet : SharedSheet) : Document :=
  let d := d.addOwner sheet .root
  { d with sheets := d.sheets ++ [sheet] }.markAllDirty

/-- Gives a node a sheet of its own, or takes it away. -/
def setSheet (d : Document) (id : NodeId) (sheet : Option SharedSheet) : Document :=
  match d.node? id with
  | none => d
  | some node =>
    let d := node.sheet.elim d (d.removeOwner · id)
    let d := sheet.elim d (d.addOwner · id)
    (d.modify id fun n => { n with sheet }).markSubtreeDirty id

/-- The nearest sheet of a node, from the node upwards. -/
def nearestSheet? (d : Document) (id : NodeId) : Option SharedSheet :=
  (id :: d.ancestors id).findSome? fun id => (d.node? id).bind (·.sheet)

/-- The sheets that apply to a node. -/
def sheetStack (d : Document) (id : NodeId) : SheetStack where
  document := d.sheets.map (·.sheet)
  own := (d.nearestSheet? id).map (·.sheet)

def setMedia (d : Document) (media : MediaEnvironment) : Document :=
  { d with media }.markAllDirty

/-! ## Removal -/

/-- Drops a node with its claim on its sheet and its listeners. -/
def dropNode (d : Document) (id : NodeId) : Document :=
  match d.node? id with
  | none => d
  | some node =>
    let d := d.drop id
    let d := node.sheet.elim d (d.removeOwner · id)
    node.listeners.foldl
      (fun d l => d.modify l.leaf fun n => { n with holders := n.holders.filter (· ≠ id) }) d

/-- Removes a node with its subtree; says whether there was one to remove. The root
stays. -/
def remove (d : Document) (id : NodeId) : Document × Bool :=
  if id = .root ∨ ¬d.contains id then (d, false)
  else
    let d := d.detach id
    let removed := d.subtree id
    let d := removed.foldl releaseListeners d
    (removed.foldl dropNode d, true)

/-! ## Names -/

/-- Gives a node its id; a blank one takes it away. -/
def setId (d : Document) (id : NodeId) (text : String) : Document :=
  let cssId := Text.trim text.toList
  (d.modify id fun n =>
    { n with cssId := if cssId.isEmpty then none else some (String.ofList cssId) }).markSubtreeDirty
      id

/-- Gives a node its classes, the words of a text. -/
def setClasses (d : Document) (id : NodeId) (text : String) : Document :=
  (d.modify id fun n => { n with classes := (Text.words text.toList).map String.ofList
    }).markSubtreeDirty id

end Document
end StyleCascade
