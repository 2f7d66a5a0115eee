import StyleCascade.Proofs.Handles
import StyleCascade.Proofs.JsonText
import StyleCascade.Proofs.TreeEffects

/-!
# Built trees

Building a tree makes one node for each of its node objects, parents first and siblings in their
order.  In the arena the new nodes stand behind the old ones without a gap, in the order in which
they were made; `Document.Laid` says so along the tree and its list of siblings.  What is there
already only gets one child more, at the node the tree is built under (`Document.Grows`), so what
is built first is not disturbed by what is built later (`Engine.Built.trans`).

A dump walks the same nodes and shows their names (`Mirrors`), so it gives back the shape of the
tree, up to what a node makes of its names (`Engine.mirrors_dump_build`).
-/
namespace StyleCascade

/-! ## What a tree says -/

namespace Json

/-- The text under a name. -/
def text? (name : String) (tree : Json) : Option String :=
  (tree.member? name).bind asString?

theorem depth_lt_of_mem_childTrees {tree child : Json} (h : child ∈ Engine.childTrees tree) :
    child.depth < tree.depth := by
  rw [Engine.childTrees] at h
  cases hmember : tree.member? "children" with
  | none => simp [hmember] at h
  | some value =>
    cases value with
    | array elements =>
      have hchild : child ∈ elements := by simpa [hmember, asArray?] using h
      cases tree with
      | object members =>
        obtain ⟨entry, hlookup, hentry⟩ := Option.map_eq_some_iff.mp hmember
        have hle := depthOfMembers_le_iff.mp le_rfl entry (Keyed.mem_of_lookup Prod.fst hlookup).1
        have hinner := depthOfElements_le_iff.mp le_rfl child hchild
        rw [hentry, depth] at hle
        rw [depth]
        omega
      | _ => cases hmember
    | _ => simp [hmember, asArray?] at h

/-- The node objects of a tree, parents before children and siblings in their order. -/
def nodeTrees (tree : Json) : List Json :=
  match tree with
  | object members =>
    object members :: (Engine.childTrees (object members)).attach.flatMap fun child =>
      nodeTrees child.1
  | _ => []
termination_by tree.depth
decreasing_by exact depth_lt_of_mem_childTrees child.2

theorem nodeTrees_object (members : List (String × Json)) :
    nodeTrees (object members) =
      object members :: (Engine.childTrees (object members)).flatMap nodeTrees := by
  conv_rhs => rw [← List.attach_map_subtype_val (Engine.childTrees (object members))]
  rw [nodeTrees, List.flatMap_map]

end Json

/-- The names of a node. -/
structure NodeNames where
  tag : String
  cssId : Option String
  classes : List String
deriving DecidableEq, Repr

/-- The names that a tree gives to its node: a tag, which is `div` if there is none, an id without
the blanks around it, which is none if nothing is left, and the words of the class. -/
def NodeNames.ofTree (tree : Json) : NodeNames where
  tag := (tree.text? "tag").getD "div"
  cssId := ((tree.text? "id").map Text.trimString).filter (· ≠ "")
  classes :=
    ((tree.text? "class").map fun text => (Text.words text.toList).map String.ofList).getD []

namespace Node

def names (n : Node) : NodeNames :=
  ⟨n.tag, n.cssId, n.classes⟩

/-- The place of the node in the tree, and its names. -/
def placed (n : Node) : (Option NodeId × List NodeId) × NodeNames :=
  (n.links, n.names)

end Node

/-- A dump shows a tree: the names of the node as far as there are any, some style, and below it
the trees of the children. -/
inductive Mirrors : Json → Json → Prop
  | node (tree : Json) (style : List (String × Json)) (dumps : List Json)
      (children : List.Forall₂ Mirrors (Engine.childTrees tree) dumps) :
      Mirrors tree (.object
        ([("tag", .string (NodeNames.ofTree tree).tag), ("style", .object style)] ++
          ((NodeNames.ofTree tree).cssId.toList.map fun cssId => ("id", .string cssId)) ++
          (if (NodeNames.ofTree tree).classes = [] then []
            else [("class", .string (" ".intercalate (NodeNames.ofTree tree).classes))]) ++
          (if dumps = [] then [] else [("children", .array dumps)])))

namespace Document

variable {d e f : Document} {parent : NodeId} {roots : List NodeId}

/-! ## The old nodes -/

/-- `e` is `d` with more nodes, of which `roots` are new children of `parent`; the old nodes have
their names and their places otherwise. -/
structure Grows (d e : Document) (parent : NodeId) (roots : List NodeId) : Prop where
  size_le : d.slots.size ≤ e.slots.size
  old : ∀ x : NodeId, x.index < d.slots.size →
    (e.node? x).map Node.placed = (d.node? x).map fun n =>
      ((n.parent, if x = parent then n.children ++ roots else n.children), n.names)

theorem index_lt_of_contains {id : NodeId} (h : d.contains id = true) :
    id.index < d.slots.size := by
  obtain ⟨i, hi, rfl⟩ := List.mem_map.mp (mem_handles_of_contains h)
  exact List.mem_range.mp hi

namespace Grows

theorem refl (d : Document) (parent : NodeId) : Grows d d parent [] where
  size_le := le_rfl
  old x _ := by simp only [List.append_nil, ite_self]; rfl

/-- The next child comes behind those that are there. -/
theorem trans {roots' : List NodeId} (h : Grows d e parent roots) (h' : Grows e f parent roots') :
    Grows d f parent (roots ++ roots') where
  size_le := h.size_le.trans h'.size_le
  old x hx := by
    have hold := congrArg (Option.map fun (p : (Option NodeId × List NodeId) × NodeNames) =>
      ((p.1.1, if x = parent then p.1.2 ++ roots' else p.1.2), p.2)) (h.old x hx)
    rw [Option.map_map, Option.map_map] at hold
    refine (h'.old x (hx.trans_le h.size_le)).trans (hold.trans ?_)
    refine congrArg (Option.map · (d.node? x)) (funext fun n => ?_)
    by_cases hparent : x = parent <;> simp [hparent]

/-- Children of a new node do not show on the old ones. -/
theorem trans_nested {new : NodeId} {roots' : List NodeId} (h : Grows d e parent roots)
    (h' : Grows e f new roots') (hnew : d.slots.size ≤ new.index) : Grows d f parent roots where
  size_le := h.size_le.trans h'.size_le
  old x hx := by
    have hne : x ≠ new := by
      rintro rfl
      omega
    rw [← h.old x hx, h'.old x (hx.trans_le h.size_le)]
    simp only [if_neg hne]
    rfl

theorem trans_keeps (h : Grows d e parent roots) (h' : Keeps Node.placed e f) :
    Grows d f parent roots where
  size_le := h'.size ▸ h.size_le
  old x hx := (h'.nodes x).trans (h.old x hx)

theorem contains (h : Grows d e parent roots) {x : NodeId} (hx : x.index < d.slots.size) :
    e.contains x = d.contains x := by
  have hold := congrArg Option.isSome (h.old x hx)
  rwa [Option.isSome_map, Option.isSome_map] at hold

theorem children (h : Grows d e parent roots) {x : NodeId} (hc : d.contains x = true) :
    e.children x = if x = parent then d.children x ++ roots else d.children x := by
  obtain ⟨n, hn⟩ := Option.isSome_iff_exists.mp hc
  have hold := congrArg (Option.map fun p => p.1.2) (h.old x (index_lt_of_contains hc))
  rw [Option.map_map, hn] at hold
  rw [Document.children, Document.children, hn]
  exact congrArg (Option.getD · []) hold

end Grows

/-! ## The new nodes -/

/-- From slot `start` up to slot `stop`, the document holds just the nodes of the trees in their
order, each tree below one of the `roots`. -/
inductive Laid (d : Document) : Nat → List NodeId → List Json → Nat → Prop
  | nil (start : Nat) : Laid d start [] [] start
  | cons {start middle stop : Nat} {n : Node} {members : List (String × Json)}
      {roots : List NodeId} {trees : List Json} (node : d.node? ⟨start⟩ = some n)
      (names : n.names = .ofTree (.object members))
      (children : Laid d (start + 1) n.children (Engine.childTrees (.object members)) middle)
      (rest : Laid d middle roots trees stop) :
      Laid d start (⟨start⟩ :: roots) (.object members :: trees) stop

namespace Laid

variable {start middle stop : Nat} {trees trees' : List Json} {roots' : List NodeId}

theorem le (h : d.Laid start roots trees stop) : start ≤ stop := by
  induction h with
  | nil => exact le_rfl
  | cons _ _ _ _ hchildren hrest => omega

/-- What is laid stays where it is as long as the nodes from `start` to `stop` do. -/
theorem congr (h : d.Laid start roots trees stop)
    (hsame : ∀ x : NodeId, start ≤ x.index → x.index < stop →
      (e.node? x).map Node.placed = (d.node? x).map Node.placed) :
    e.Laid start roots trees stop := by
  induction h with
  | nil => exact .nil _
  | @cons start middle stop n members roots trees node names children rest ihchildren ihrest =>
    have hmiddle := children.le
    have hstop := rest.le
    have hnode := hsame ⟨start⟩ le_rfl (show start < stop by omega)
    rw [node, Option.map_some, Option.map_eq_some_iff] at hnode
    obtain ⟨m, hm, hplaced⟩ := hnode
    obtain ⟨hlinks, hnames⟩ := Prod.ext_iff.mp hplaced
    have hkids : m.children = n.children := (Prod.ext_iff.mp hlinks).2
    refine .cons hm (hnames.trans names) ?_ (ihrest fun x hx hx' => hsame x (by omega) hx')
    rw [hkids]
    exact ihchildren fun x hx hx' => hsame x (by omega) (by omega)

theorem append (h : d.Laid start roots trees middle) (h' : d.Laid middle roots' trees' stop) :
    d.Laid start (roots ++ roots') (trees ++ trees') stop := by
  induction h with
  | nil => exact h'
  | cons node names children _ _ ih => exact .cons node names children (ih h')

/-- **The subtrees of the roots** hold the handles from `start` to `stop` in ascending order, and
their names are those of the node objects in tree order. -/
theorem flatMap_subtree (h : d.Laid start roots trees stop) (hd : d.IsForest) :
    roots.flatMap d.subtree = (List.range' start (stop - start)).map NodeId.mk ∧
      (roots.flatMap d.subtree).map (fun id => (d.node? id).map Node.names) =
        (trees.flatMap Json.nodeTrees).map fun tree => some (.ofTree tree) := by
  induction h with
  | nil => exact ⟨by simp, rfl⟩
  | @cons start middle stop n members roots trees node names children rest ihchildren ihrest =>
    obtain ⟨hchildren, hbelow⟩ := ihchildren
    obtain ⟨hrest, hbeside⟩ := ihrest
    have hsubtree : d.subtree ⟨start⟩ = ⟨start⟩ :: n.children.flatMap d.subtree := by
      rw [hd.subtree_eq (contains_of_node? node), Document.children, node]
      rfl
    refine ⟨?_, ?_⟩
    · have hmiddle := children.le
      have hstop := rest.le
      have hrange : List.range' start (stop - start) =
          start :: (List.range' (start + 1) (middle - (start + 1)) ++
            List.range' middle (stop - middle)) := by
        have hlength : stop - start = (middle - (start + 1) + (stop - middle)) + 1 := by omega
        have hbeside : start + 1 + (middle - (start + 1)) = middle := by omega
        rw [hlength, List.range'_succ, ← List.range'_append_1, hbeside]
      rw [List.flatMap_cons, hsubtree, hchildren, hrest, hrange]
      simp
    · rw [List.flatMap_cons, hsubtree, List.flatMap_cons, Json.nodeTrees_object]
      simp only [List.cons_append, List.map_cons, List.map_append, hbelow, hbeside, node,
        Option.map_some, names]

end Laid

/-! ## Making a node -/

theorem contains_create_fst (d : Document) (tag : String) :
    d.contains (d.create tag).1 = false := by
  simp [contains, create, node?]

/-- A new node may go under any node that is there. -/
theorem IsForest.canAppend_create (hd : d.IsForest) (hparent : d.contains parent = true)
    (tag : String) : (d.create tag).2.canAppend parent (d.create tag).1 = true := by
  have hfresh := contains_create_fst d tag
  by_contra hrefused
  rw [Bool.not_eq_true, (hd.create tag).canAppend_eq_false_iff] at hrefused
  rcases hrefused with rfl | hgone | hgone | hroot | habove
  · exact Bool.false_ne_true (hfresh.symm.trans hparent)
  · exact Bool.false_ne_true (hgone.symm.trans (contains_create hparent tag))
  · rw [contains, node?_create, if_pos rfl] at hgone
    cases hgone
  · exact Bool.false_ne_true (hfresh.symm.trans (hroot ▸ hd.root_exists))
  · have hold : d.IsAncestor (d.create tag).1 parent :=
      Relation.TransGen.mono (fun _ child h => (parent?_create d tag child).symm.trans h) _ _ habove
    exact Bool.false_ne_true (hfresh.symm.trans (hd.contains_of_isAncestor hold))

/-- A new node under `parent` is its last child and has nothing but its tag. -/
theorem IsForest.placed_append_create (hd : d.IsForest) (hparent : d.contains parent = true)
    (tag : String) (x : NodeId) :
    ((((d.create tag).2.append parent (d.create tag).1).1).node? x).map Node.placed =
      if x = (d.create tag).1 then some ((some parent, []), ⟨tag, none, []⟩)
      else (d.node? x).map fun n =>
        ((n.parent, if x = parent then n.children ++ [(d.create tag).1] else n.children),
          n.names) := by
  have hfresh := contains_create_fst d tag
  have hnone : (d.create tag).2.parent? (d.create tag).1 = none := by
    rw [parent?_create, parent?, Option.not_isSome_iff_eq_none.mp (ne_true_of_eq_false hfresh)]
    rfl
  have hmoves := (hd.create tag).moves_append (hd.canAppend_create hparent tag) (by simp [hnone])
  rw [hmoves.nodes, node?_create, Option.map_map, hnone]
  split
  · rename_i hx
    have hne : (d.create tag).1 ≠ parent := by
      rintro rfl
      exact Bool.false_ne_true (hfresh.symm.trans hparent)
    subst hx
    simp [Node.placed, Node.links, Node.names, hne]
  · rename_i hx
    refine congrArg (Option.map · (d.node? x)) (funext fun n => ?_)
    simp [Node.placed, Node.links, Node.names]

/-- `e` is `d` with new names for `id`; no node has another place. -/
structure Renames (d e : Document) (id : NodeId) (rename : NodeNames → NodeNames) : Prop where
  size : e.slots.size = d.slots.size
  nodes : ∀ x, (e.node? x).map Node.placed =
    ((d.node? x).map Node.placed).map fun p => (p.1, if x = id then rename p.2 else p.2)

section Renames
variable {id : NodeId}

theorem renames_modify {f : Node → Node} {rename : NodeNames → NodeNames}
    (hf : ∀ n, (f n).placed = (n.links, rename n.names)) :
    Renames d ((d.modify id f).markSubtreeDirty id) id rename where
  size := by
    rw [markSubtreeDirty, (keeps_markDirty _ _).size]
    simp [modify]
  nodes x := by
    have hmarks := ((keeps_markDirty (d.modify id f) ((d.modify id f).subtree id)).map
      Node.placed).nodes x
    rw [markSubtreeDirty, Option.map_map]
    refine hmarks.trans ?_
    rw [node?_modify]
    by_cases h : id = x
    · rw [if_pos h, Option.map_map]
      refine congrArg (Option.map · (d.node? x)) (funext fun n => (hf n).trans ?_)
      simp only [Function.comp_apply, if_pos h.symm]
      rfl
    · rw [if_neg h]
      refine congrArg (Option.map · (d.node? x)) (funext fun n => ?_)
      simp only [Function.comp_apply, if_neg (Ne.symm h)]
      rfl

theorem Renames.trans {rename rename' : NodeNames → NodeNames} (h : Renames d e id rename)
    (h' : Renames e f id rename') : Renames d f id (rename' ∘ rename) where
  size := h'.size.trans h.size
  nodes x := by
    rw [h'.nodes, h.nodes, Option.map_map]
    refine congrArg (Option.map · _) (funext fun p => ?_)
    by_cases hx : x = id <;> simp [hx]

theorem renames_setId (d : Document) (id : NodeId) (text : String) :
    Renames d (d.setId id text) id fun names =>
      { names with cssId := (some (Text.trimString text)).filter (· ≠ "") } := by
  refine renames_modify fun n => ?_
  have hid : (if (Text.trim text.toList).isEmpty then none
      else some (String.ofList (Text.trim text.toList))) =
        (some (Text.trimString text)).filter (· ≠ "") := by
    rw [Option.filter_some, Text.trimString]
    by_cases h : Text.trim text.toList = []
    · rw [h]
      rfl
    · have hne : String.ofList (Text.trim text.toList) ≠ "" :=
        fun heq => h (String.ofList_injective heq)
      simp [h, hne]
  rw [hid]
  rfl

theorem renames_setClasses (d : Document) (id : NodeId) (text : String) :
    Renames d (d.setClasses id text) id fun names =>
      { names with classes := (Text.words text.toList).map String.ofList } :=
  renames_modify fun _ => rfl

/-- Names are only given if there is a text for them. -/
theorem Renames.elim {e : String → Document} {rename : String → NodeNames → NodeNames}
    (h : ∀ text, Renames d (e text) id (rename text)) (text? : Option String) :
    Renames d (text?.elim d e) id fun names => text?.elim names (rename · names) := by
  cases text? with
  | none =>
    refine ⟨rfl, fun x => ?_⟩
    simp only [Option.elim_none, ite_self]
    exact Option.map_id'.symm
  | some text => exact h text

end Renames

theorem RunsTo.isForest {ids : List NodeId} (h : RunsTo d e ids) (hd : d.IsForest) :
    e.IsForest := by
  obtain ⟨actions, rfl, -⟩ := h
  induction actions generalizing d with
  | nil => exact hd
  | cons a rest ih => exact ih (hd.perform a)

end Document

namespace Engine

open Document (Grows Laid)

variable {e f g : Engine} {parent : NodeId} {roots roots' : List NodeId} {trees trees' : List Json}

/-- A new node is put into its place first, and then it gets its id and its classes. -/
theorem renames_createNode (e : Engine) (parent : NodeId) (tree : Json) :
    let made := e.document.create ((tree.text? "tag").getD "div")
    Document.Renames (made.2.append parent made.1).1 (e.createNode parent tree).2.document
      ⟨e.document.slots.size⟩
      ((fun names => (tree.text? "class").elim names fun text =>
        { names with classes := (Text.words text.toList).map String.ofList }) ∘
      fun names => (tree.text? "id").elim names fun text =>
        { names with cssId := (some (Text.trimString text)).filter (· ≠ "") }) :=
  (Document.Renames.elim (Document.renames_setId _ _) (tree.text? "id")).trans
    (Document.Renames.elim (Document.renames_setClasses _ _) (tree.text? "class"))

/-- **A new node** has the names of its tree and no children yet. -/
theorem placed_createNode (hd : e.document.IsForest) (hparent : e.document.contains parent = true)
    (tree : Json) (x : NodeId) :
    ((e.createNode parent tree).2.document.node? x).map Node.placed =
      if x = ⟨e.document.slots.size⟩ then some ((some parent, []), .ofTree tree)
      else (e.document.node? x).map fun n =>
        ((n.parent, if x = parent then n.children ++ [⟨e.document.slots.size⟩] else n.children),
          n.names) := by
  have hplaced := hd.placed_append_create hparent ((tree.text? "tag").getD "div") x
  have hid : (e.document.create ((tree.text? "tag").getD "div")).1 = ⟨e.document.slots.size⟩ := rfl
  rw [(e.renames_createNode parent tree).nodes, hplaced, hid]
  split
  · rename_i hx
    cases hcss : tree.text? "id" <;> cases hclass : tree.text? "class" <;>
      simp [NodeNames.ofTree, hcss, hclass]
  · rw [Option.map_map]
    rfl

theorem size_createNode (e : Engine) (parent : NodeId) (tree : Json) :
    (e.createNode parent tree).2.document.slots.size = e.document.slots.size + 1 := by
  rw [(e.renames_createNode parent tree).size, (Document.keeps_append _ _ _).size]
  exact Array.size_push _

theorem grows_createNode (hd : e.document.IsForest) (hparent : e.document.contains parent = true)
    (tree : Json) : Grows e.document (e.createNode parent tree).2.document parent
      [⟨e.document.slots.size⟩] where
  size_le := by
    rw [size_createNode]
    exact Nat.le_succ _
  old x hx := by
    have hne : x ≠ ⟨e.document.slots.size⟩ := by
      rintro rfl
      exact lt_irrefl _ hx
    rw [placed_createNode hd hparent, if_neg hne]

theorem config_read (e : Engine) (reading : Reading StyleSheet) :
    (e.read reading).2.config = e.config := by
  rw [read]
  dsimp only
  split <;> rfl

/-- Its sheet and its style leave a node where it is. -/
theorem keeps_giveSheet (e : Engine) (id : NodeId) (tree : Json) :
    (e.giveSheet id tree).2.config = e.config ∧
      Document.Keeps Node.placed e.document (e.giveSheet id tree).2.document := by
  rw [giveSheet]
  split
  · exact ⟨rfl, .refl _ _⟩
  · rename_i sheet _
    have hconfig := e.config_read (Session.readSheet sheet)
    have hread := e.document_read (Session.readSheet sheet)
    split
    · rename_i heq
      rw [heq] at hconfig hread
      exact ⟨hconfig, hread ▸ .refl _ _⟩
    · rename_i heq
      rw [heq] at hconfig hread
      exact ⟨hconfig, hread ▸ (Document.keeps_setSheet _ id _).map Node.placed⟩

theorem keeps_giveStyle (e : Engine) (id : NodeId) (tree : Json) :
    (e.giveStyle id tree).2.config = e.config ∧
      Document.Keeps Node.placed e.document (e.giveStyle id tree).2.document := by
  rw [giveStyle]
  split
  · exact ⟨rfl, .refl _ _⟩
  · rename_i members _
    have hkeeps := (Document.keeps_replaceInline e.document id
      (Declaration.ofMembers members)).map Node.placed
    rw [setInline]
    dsimp only
    split <;> exact ⟨rfl, hkeeps⟩
  · exact ⟨rfl, .refl _ _⟩

/-! ## Building -/

/-- `f` is `e` with the trees built under `parent`, as the children `roots`. -/
structure Built (e f : Engine) (parent : NodeId) (roots : List NodeId) (trees : List Json) :
    Prop where
  forest : f.document.IsForest
  config : f.config = e.config
  grows : Grows e.document f.document parent roots
  laid : f.document.Laid e.document.slots.size roots trees f.document.slots.size

namespace Built

theorem refl (hd : e.document.IsForest) (parent : NodeId) : Built e e parent [] [] where
  forest := hd
  config := rfl
  grows := .refl _ _
  laid := .nil _

/-- Trees that are built later go behind the others and leave them alone: `parent` is older than
either. -/
theorem trans (h : Built e f parent roots trees) (h' : Built f g parent roots' trees')
    (hparent : e.document.contains parent = true) :
    Built e g parent (roots ++ roots') (trees ++ trees') where
  forest := h'.forest
  config := h'.config.trans h.config
  grows := h.grows.trans h'.grows
  laid := by
    refine (h.laid.congr fun x hx hx' => ?_).append h'.laid
    have hne : x ≠ parent := by
      rintro rfl
      exact absurd (Document.index_lt_of_contains hparent) (not_lt.mpr hx)
    have hold := h'.grows.old x hx'
    simp only [if_neg hne] at hold
    exact hold

/-- A node with its children is built when the children are built under it. -/
theorem node {members : List (String × Json)} (hconfig : f.config = e.config)
    (hgrows : Grows e.document f.document parent [⟨e.document.slots.size⟩])
    (hsize : f.document.slots.size = e.document.slots.size + 1)
    (hnode : (f.document.node? ⟨e.document.slots.size⟩).map Node.placed =
      some ((some parent, []), .ofTree (.object members)))
    (h : Built f g ⟨e.document.slots.size⟩ roots (childTrees (.object members))) :
    Built e g parent [⟨e.document.slots.size⟩] [.object members] where
  forest := h.forest
  config := h.config.trans hconfig
  grows := hgrows.trans_nested h.grows le_rfl
  laid := by
    have hnew := h.grows.old ⟨e.document.slots.size⟩ (by rw [hsize]; exact Nat.lt_succ_self _)
    obtain ⟨m, hm, hplaced⟩ := Option.map_eq_some_iff.mp hnode
    rw [hm, Option.map_some, Option.map_eq_some_iff] at hnew
    obtain ⟨n, hn, hnew⟩ := hnew
    obtain ⟨hlinks, hnames⟩ := Prod.ext_iff.mp hnew
    obtain ⟨hold, hmnames⟩ := Prod.ext_iff.mp hplaced
    have hempty : m.children = [] := (Prod.ext_iff.mp hold).2
    have hchildren : n.children = roots := by
      have hlist := (Prod.ext_iff.mp hlinks).2
      rwa [if_pos rfl, hempty] at hlist
    refine .cons hn (hnames.trans hmnames) ?_ (.nil _)
    rw [hchildren, ← hsize]
    exact h.laid

end Built

/-- Trees that build one by one build one after the other. -/
theorem built_buildEach {build : Engine → Json → Except StyleError NodeId × Engine}
    (hbuild : ∀ (e : Engine) (tree : Json) (id : NodeId), e.document.IsForest →
      e.document.contains parent = true → (build e tree).1 = .ok id →
        Built e (build e tree).2 parent [id] [tree])
    (trees : List Json) (e : Engine) (hd : e.document.IsForest)
    (hparent : e.document.contains parent = true) (h : (buildEach build e trees).1 = .ok ()) :
    ∃ roots, Built e (buildEach build e trees).2 parent roots trees := by
  induction trees generalizing e with
  | nil => exact ⟨[], .refl hd parent⟩
  | cons tree rest ih =>
    rw [buildEach] at h ⊢
    split at h
    · cases h
    · rename_i id f heq
      have hfirst := hbuild e tree id hd hparent (by rw [heq])
      rw [heq] at hfirst
      have hthere : f.document.contains parent = true := by
        rw [hfirst.grows.contains (Document.index_lt_of_contains hparent), hparent]
      obtain ⟨roots, hrest⟩ := ih f hfirst.forest hthere h
      exact ⟨id :: roots, hfirst.trans hrest hparent⟩

/-- A build that succeeds has made a node, has given it its sheet and its style, and has built its
children. -/
theorem steps_of_buildLevels {levels : Nat} {tree : Json} {id : NodeId}
    (h : (buildLevels (levels + 1) parent e tree).1 = .ok id) :
    ∃ members sheeted styled, tree = .object members ∧ id = ⟨e.document.slots.size⟩ ∧
      (e.createNode parent tree).2.giveSheet id tree = (.ok (), sheeted) ∧
      sheeted.giveStyle id tree = (.ok (), styled) ∧
      buildEach (buildLevels levels id) styled (childTrees tree) =
        (.ok (), (buildLevels (levels + 1) parent e tree).2) := by
  cases tree with
  | object members =>
    rw [buildLevels] at h ⊢
    dsimp only at h ⊢
    split at h
    · cases h
    rename_i sheeted hsheet
    split at h
    · cases h
    rename_i styled hstyle
    split at h
    · cases h
    rename_i built hchildren
    obtain rfl := Except.ok.inj h
    refine ⟨members, sheeted, styled, rfl, rfl, hsheet, hstyle, ?_⟩
    rw [hchildren]
  | _ => cases h

/-- **A build that succeeds** lays its tree behind what was there, as the last child of `parent`. -/
theorem built_buildLevels (levels : Nat) (parent : NodeId) (e : Engine) (tree : Json) (id : NodeId)
    (hd : e.document.IsForest) (hparent : e.document.contains parent = true)
    (h : (buildLevels levels parent e tree).1 = .ok id) :
    Built e (buildLevels levels parent e tree).2 parent [id] [tree] := by
  induction levels generalizing parent e tree id with
  | zero => cases h
  | succ levels ih =>
    obtain ⟨members, sheeted, styled, rfl, rfl, hsheet, hstyle, hchildren⟩ :=
      steps_of_buildLevels h
    generalize hnew : (⟨e.document.slots.size⟩ : NodeId) = new at hsheet hstyle hchildren
    have hmade := placed_createNode hd hparent (.object members) new
    rw [if_pos hnew.symm] at hmade
    obtain ⟨hsheeted, hkeeps₁⟩ := (e.createNode parent (.object members)).2.keeps_giveSheet new
      (.object members)
    rw [hsheet] at hsheeted hkeeps₁
    obtain ⟨hstyled, hkeeps₂⟩ := sheeted.keeps_giveStyle new (.object members)
    rw [hstyle] at hstyled hkeeps₂
    -- The node is in its place from when it is made, so the children go below it in a forest.
    have hkeeps := hkeeps₁.trans hkeeps₂
    have hforest : styled.document.IsForest :=
      ((e.runsTo_createNode parent (.object members)).isForest hd).of_nodes
        (hkeeps.map Prod.fst).nodes
    have hnode := (hkeeps.nodes new).trans hmade
    have hthere : styled.document.contains new = true := by
      rw [Document.contains, ← Option.isSome_map, hnode]
      rfl
    obtain ⟨roots, hbelow⟩ := built_buildEach (ih new) (childTrees (.object members)) styled
      hforest hthere (by rw [hchildren])
    rw [hchildren] at hbelow
    subst hnew
    exact .node (hstyled.trans hsheeted) ((grows_createNode hd hparent _).trans_keeps hkeeps)
      (hkeeps.size.trans (size_createNode _ _ _)) hnode hbelow

/-! ## Dumping -/

/-- **The dumps of laid nodes** show the trees they are laid for.  The levels reach to the leaves,
as no node has more ancestors than there are slots. -/
theorem mirrors_dumpLevels (hd : e.document.IsForest) (hdebug : e.config.debug = false)
    {start stop : Nat} (h : e.document.Laid start roots trees stop) (levels : Nat)
    (hlevels : ∀ x ∈ roots, e.document.slots.size ≤ levels + (e.document.ancestors x).length) :
    List.Forall₂ Mirrors trees (roots.map (e.dumpLevels levels)) := by
  induction h generalizing levels with
  | nil => exact .nil
  | @cons start middle stop n members roots trees node names children rest ihchildren ihrest =>
    refine .cons ?_ (ihrest levels fun x hx => hlevels x (List.mem_cons_of_mem _ hx))
    cases levels with
    | zero =>
      have hstart := hlevels ⟨start⟩ List.mem_cons_self
      have hdepth := hd.length_above_lt e.document.slots.size ⟨start⟩
      rw [Document.ancestors] at hstart
      omega
    | succ levels =>
      have hbelow := ihchildren levels fun x hx => by
        have hchild : x ∈ e.document.children ⟨start⟩ := by
          rwa [Document.children, node]
        have hstart := hlevels ⟨start⟩ List.mem_cons_self
        rw [hd.ancestors_eq ((hd.mem_children_iff _ x).mp hchild), List.length_cons]
        omega
      have hmirrors := Mirrors.node (.object members) n.finalStyle.toMembers _ hbelow
      rw [dumpLevels, node]
      simp only [dumpMembers, hdebug, Bool.false_eq_true, if_false, List.append_nil,
        List.isEmpty_iff]
      rw [← names] at hmirrors
      exact hmirrors

/-- **A tree that is built is dumped as it is.**  A build under the root that succeeds makes one
node for each node object, in tree order behind the nodes that were there; the root gets one child
more, and the old nodes have their names and links otherwise.  The last of the dumps then shows the
tree. -/
theorem mirrors_dump_build (hd : e.document.Reachable) (hdebug : e.config.debug = false)
    {tree : Json} {id : NodeId} (h : (e.build .root tree).1 = .ok id) :
    let f := (e.build .root tree).2
    f.document.handles = e.document.handles ++ f.document.subtree id ∧
      (f.document.subtree id).map (fun x => (f.document.node? x).map Node.names) =
        tree.nodeTrees.map (fun object => some (.ofTree object)) ∧
      Grows e.document f.document .root [id] ∧
      ∃ dumps dump, f.dump = .array (dumps ++ [dump]) ∧ Mirrors tree dump := by
  intro f
  have hroot := hd.isForest.root_exists
  have hbuilt : Built e f .root [id] [tree] :=
    built_buildLevels tree.depth .root e tree id hd.isForest hroot h
  obtain ⟨hhandles, hnames⟩ := hbuilt.laid.flatMap_subtree hbuilt.forest
  rw [List.flatMap_singleton] at hhandles hnames
  refine ⟨?_, ?_, hbuilt.grows, ?_⟩
  · obtain ⟨more, hmore⟩ := Nat.exists_eq_add_of_le hbuilt.grows.size_le
    rw [hhandles, Document.handles, Document.handles, hmore, Nat.add_sub_cancel_left,
      List.range_add, List.range'_eq_map_range, List.map_append]
  · rw [hnames, List.flatMap_singleton]
  · have hchildren := hbuilt.grows.children hroot
    rw [if_pos rfl] at hchildren
    have hdumps := mirrors_dumpLevels hbuilt.forest (hbuilt.config ▸ hdebug) hbuilt.laid
      f.document.slots.size fun _ _ => Nat.le_add_right _ _
    obtain ⟨hmirrors, -⟩ := List.forall₂_cons.mp hdumps
    refine ⟨(e.document.children .root).map (f.dumpLevels f.document.slots.size), _, ?_, hmirrors⟩
    rw [dump, hchildren, List.map_append]
    rfl

/-- A tree of three levels with odd names: an id and classes with blanks around them, a tag that is
no text, an id and a class with nothing left, and a node that says nothing. -/
def oddTree : Json :=
  .object [("tag", .string "panel"), ("id", .string "  main "), ("class", .string " wide\tdark "),
    ("style", .object [("width", .string "10px")]),
    ("children", .array [
      .object [("tag", .bool true), ("id", .string " "), ("children", .array [.object []])],
      .object [("tag", .string "text"), ("class", .string ""), ("children", .null)]])]

/-- An engine whose document has been worked on. -/
def tidyEngine : Engine where
  document := Document.new.performAll Document.tidyRun

/-- The four nodes stand behind the old ones, and the panel is the last child of the root. -/
theorem mirrors_dump_build_oddTree :
    (tidyEngine.build .root oddTree).1 = .ok ⟨5⟩ ∧
      let f := (tidyEngine.build .root oddTree).2
      f.document.handles = tidyEngine.document.handles ++ f.document.subtree ⟨5⟩ ∧
      f.document.subtree ⟨5⟩ = [⟨5⟩, ⟨6⟩, ⟨7⟩, ⟨8⟩] ∧
      Grows tidyEngine.document f.document .root [⟨5⟩] ∧
      f.document.children .root = [⟨1⟩, ⟨5⟩] ∧
      (f.document.subtree ⟨5⟩).map (fun x => (f.document.node? x).map Node.names) =
        [some ⟨"panel", some "main", ["wide", "dark"]⟩, some ⟨"div", none, []⟩,
          some ⟨"div", none, []⟩, some ⟨"text", none, []⟩] ∧
      ∃ dumps dump, f.dump = .array (dumps ++ [dump]) ∧ Mirrors oddTree dump := by
  have hd : tidyEngine.document.Reachable := Document.reachable_performAll {} Document.tidyRun
  have hbuild : (tidyEngine.build .root oddTree).1 = .ok ⟨5⟩ := by decide +kernel
  obtain ⟨hhandles, -, hgrows, hdump⟩ := mirrors_dump_build hd rfl hbuild
  exact ⟨hbuild, hhandles, by decide +kernel, hgrows, by decide +kernel, by decide +kernel, hdump⟩

end Engine
end StyleCascade
