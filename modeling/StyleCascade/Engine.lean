import StyleCascade.Document.StateChange
import StyleCascade.Inspector
import StyleCascade.Sheet.Parser

/-!
# The engine

An engine joins a document with the session that reads its sheets. It builds nodes
from JSON trees, dumps computed styles as JSON, and keeps a journal of notices.
-/
namespace StyleCascade

structure EngineConfig where
  /-- Whether dumps show the matched rules as well. -/
  debug : Bool := false
  logLevel : LogLevel := .info
  media : MediaEnvironment := {}
deriving Repr, Inhabited

namespace EngineConfig

/-- The level of a name, whatever its case and the blanks around it. -/
def levelOfName? (name : String) : Option LogLevel :=
  LogLevel.all.find? fun level =>
    Text.lowerAscii level.name.toList = Text.lowerAscii (Text.trim name.toList)

/-- The default configuration as changed by two settings, each of which may be absent. A
level that has no such name changes nothing. -/
def ofSettings (log debug : Option String) : EngineConfig where
  debug := debug.any fun v => v = "1" || Text.lowerAscii v.toList = "true".toList
  logLevel := (log.bind levelOfName?).getD .info

end EngineConfig

structure Engine where
  config : EngineConfig := {}
  /-- The number for the next style rule. -/
  nextOrder : Nat := 0
  /-- The number for the next sheet. -/
  nextSerial : Nat := 0
  document : Document
  /-- What happened so far. -/
  journal : List Notice := []
deriving Repr, Inhabited

namespace Engine

def new (config : EngineConfig := {}) : Engine where
  config := config
  document := .new config.media

def note (e : Engine) (n : Notice) : Engine :=
  { e with journal := e.journal ++ [n] }

/-! ## Sheets -/

/-- Gives a sheet its serial number. -/
def share (e : Engine) (sheet : StyleSheet) : SharedSheet × Engine :=
  (⟨e.nextSerial, sheet⟩, { e with nextSerial := e.nextSerial + 1 })

/-- Reads a sheet, which is attached nowhere yet. -/
def read (e : Engine) (reading : Reading StyleSheet) : Except StyleError SharedSheet × Engine :=
  let (result, session) := ({ nextOrder := e.nextOrder } : Session).run reading
  let e := { e with nextOrder := session.nextOrder, journal := e.journal ++ session.notices }
  match result with
  | .error error => (.error error, e)
  | .ok sheet =>
    let (shared, e) := e.share sheet
    (.ok shared, e)

/-- Reads a sheet from its text and adds it to the document. -/
def load (e : Engine) (text : String) : Except StyleError SharedSheet × Engine :=
  match e.read (Session.readSheetText text) with
  | (.error error, e) => (.error error, e)
  | (.ok shared, e) =>
    (.ok shared, { e with document := e.document.addSheet shared }.note
      (.documentSheetAdded shared.sheet.rules.length))

/-! ## Restyling -/

/-- The notice that a restyled node gives. -/
def matchedNotice (d : Document) (id : NodeId) : Notice :=
  .rulesMatched (((d.node? id).bind (·.matched)).getD []).length id

/-- Sets the inline style of a node from the members of an object. -/
def setInline (e : Engine) (id : NodeId) (members : List (String × Json)) : Engine :=
  let document := e.document.replaceInline id (Declaration.ofMembers members)
  let e := { e with document }
  if document.contains id then e.note (matchedNotice document id) else e

/-- Restyles every dirty node; gives their number. -/
def restyleDirty (e : Engine) : Nat × Engine :=
  let (document, count) := e.document.restyleDirty
  let notices := e.document.dirtyNodes.map (matchedNotice document)
  (count, { e with
    document := document
    journal := e.journal ++ notices ++ [.dirtyNodesRestyled count] })

/-! ## Building

A node is an object with the members `tag`, `id`, `class`, `styleSheet`, `style` and
`children`, all of which may be missing. Nodes are made parents first. What was made
before a fault stays. -/

/-- Makes a node under `parent`, with its names. -/
def createNode (e : Engine) (parent : NodeId) (tree : Json) : NodeId × Engine :=
  let text? (name : String) : Option String := (tree.member? name).bind Json.asString?
  let tag := (text? "tag").getD "div"
  let (id, d) := e.document.create tag
  let d := (d.append parent id).1
  let d := (text? "id").elim d (d.setId id)
  let d := (text? "class").elim d (d.setClasses id)
  (id, { e with document := d }.note (.nodeCreated id tag))

/-- Gives a node the sheet of its tree. -/
def giveSheet (e : Engine) (id : NodeId) (tree : Json) : Except StyleError Unit × Engine :=
  match tree.member? "styleSheet" with
  | none => (.ok (), e)
  | some sheet =>
    match e.read (Session.readSheet sheet) with
    | (.error error, e) => (.error error, e)
    | (.ok shared, e) => (.ok (), { e with document := e.document.setSheet id (some shared) })

/-- Gives a node the inline style of its tree. -/
def giveStyle (e : Engine) (id : NodeId) (tree : Json) : Except StyleError Unit × Engine :=
  match tree.member? "style" with
  | none => (.ok (), e)
  | some (.object members) => (.ok (), e.setInline id members)
  | some _ => (.error (.notAnObject "inline style"), e)

/-- The trees of the children. -/
def childTrees (tree : Json) : List Json :=
  ((tree.member? "children").bind Json.asArray?).getD []

/-- Builds trees one after the other until one is in fault. -/
def buildEach (build : Engine → Json → Except StyleError NodeId × Engine) (e : Engine) :
    List Json → Except StyleError Unit × Engine
  | [] => (.ok (), e)
  | tree :: rest =>
    match build e tree with
    | (.error error, e) => (.error error, e)
    | (.ok _, e) => buildEach build e rest

/-- Builds a tree of at most `levels` levels under `parent`; gives its root. -/
def buildLevels : Nat → NodeId → Engine → Json → Except StyleError NodeId × Engine
  | 0, _, e, _ => (.error (.notAnObject "node"), e)
  | levels + 1, parent, e, tree =>
    match tree with
    | .object _ =>
      let (id, e) := e.createNode parent tree
      match e.giveSheet id tree with
      | (.error error, e) => (.error error, e)
      | (.ok (), e) =>
        match e.giveStyle id tree with
        | (.error error, e) => (.error error, e)
        | (.ok (), e) =>
          match buildEach (buildLevels levels id) e (childTrees tree) with
          | (.error error, e) => (.error error, e)
          | (.ok (), e) => (.ok id, e)
    | _ => (.error (.notAnObject "node"), e)

/-- Builds a tree under `parent`. No tree has more levels than its JSON is deep. -/
def build (e : Engine) (parent : NodeId) (tree : Json) : Except StyleError NodeId × Engine :=
  buildLevels tree.depth parent e tree

/-! ## Dumping -/

/-- A node without its children, as members of an object. -/
def dumpMembers (e : Engine) (id : NodeId) (n : Node) : List (String × Json) :=
  [("tag", .string n.tag), ("style", .object n.finalStyle.toMembers)] ++
    (n.cssId.toList.map fun cssId => ("id", .string cssId)) ++
    (if n.classes.isEmpty then [] else [("class", .string (" ".intercalate n.classes))]) ++
    (if e.config.debug then
      (e.document.inspect? id).toList.map fun styles => ("matched", styles.toJson)
    else [])

/-- A node and what is below it, at most `levels` levels deep. -/
def dumpLevels (e : Engine) : Nat → NodeId → Json
  | 0, _ => .null
  | levels + 1, id =>
    match e.document.node? id with
    | none => .null
    | some n =>
      let children := n.children.map (e.dumpLevels levels)
      .object (e.dumpMembers id n ++
        if children.isEmpty then [] else [("children", .array children)])

/-- The computed styles of the document, as a list of trees. -/
def dump (e : Engine) : Json :=
  .array ((e.document.children .root).map (e.dumpLevels e.document.slots.size))

/-- The nodes below the root in the order in which they are finished: children first. -/
def finishOrder (d : Document) : Nat → NodeId → List NodeId
  | 0, _ => []
  | levels + 1, id => (d.children id).flatMap (finishOrder d levels) ++ [id]

/-- Dumps the document, with a notice for every node. -/
def dumpNoted (e : Engine) : Json × Engine :=
  let order := (e.document.children .root).flatMap (finishOrder e.document e.document.slots.size)
  (e.dump, { e with journal := e.journal ++ order.map .nodeDumped })

end Engine
end StyleCascade
