import Mathlib.Data.Option.Basic
import StyleCascade.Document.StateChange

/-!
# What operations keep

Most operations on a document change a few fields of a few nodes.  `Document.Keeps`
says that a view of every node stays as it was, together with the slots, the sheets and
the environment; the views used here blank out the fields that a family of operations
may change:

* `Node.apartFromLinks`: appending, detaching;
* `Node.apartFromMark`: marking nodes dirty;
* `Node.apartFromNames`, `Node.apartFromSheet`: giving names, giving a sheet;
* `Node.apartFromListening`: registering and releasing listeners;
* `Node.apartFromMatching`: matching;
* `Node.apartFromStyling`: restyling;
* `Node.apartFromInline`: changing inline styles;
* `Node.apartFromViews`: reports of states and updates of views.

Anything that is read off a kept view is kept as well (`Keeps.map`).
-/
namespace StyleCascade

namespace Node

/-- The place of the node in the tree. -/
def links (n : Node) : Option NodeId × List NodeId :=
  (n.parent, n.children)

/-- The part of the node in listening. -/
def listening (n : Node) : List Listener × List NodeId :=
  (n.listeners, n.holders)

/-- The node without its links and its dirty mark. -/
def apartFromLinks (n : Node) : Node :=
  { n with parent := none, children := [], dirty := true }

/-- The node without its dirty mark. -/
def apartFromMark (n : Node) : Node :=
  { n with dirty := true }

/-- The node without its id, its classes and its dirty mark. -/
def apartFromNames (n : Node) : Node :=
  { n with cssId := none, classes := [], dirty := true }

/-- The node without its own sheet and its dirty mark. -/
def apartFromSheet (n : Node) : Node :=
  { n with sheet := none, dirty := true }

/-- The node without its part in listening. -/
def apartFromListening (n : Node) : Node :=
  { n with listeners := [], holders := [] }

/-- The node without its part in listening and its dirty mark. -/
def apartFromMatching (n : Node) : Node :=
  { n.apartFromListening with dirty := true }

/-- The node without what restyling finds out about it. -/
def apartFromStyling (n : Node) : Node :=
  { n.apartFromMatching with finalStyle := .empty, matched := none }

/-- The node without its inline style and what restyling finds out about it. -/
def apartFromInline (n : Node) : Node :=
  { n.apartFromStyling with inlineStyle := .empty }

/-- The node without its view and its states. -/
def apartFromViews (n : Node) : Node :=
  { n with component := none, pending := none, reported := [] }

end Node

/-- What is read by a map that can fail is settled by what the map gives. -/
theorem bind_eq_of_map {α β : Type} {f : α → Option β} {a b : Option α} (h : a.map f = b.map f) :
    a.bind f = b.bind f := by
  have hbind := congrArg (Option.bind · fun b => b) h
  simp only [Option.bind_map] at hbind
  exact hbind

namespace Document

theorem contains_of_node? {d : Document} {id : NodeId} {n : Node} (h : d.node? id = some n) :
    d.contains id = true :=
  Option.isSome_of_eq_some h

/-- `e` has the slots, sheets and environment of `d`, and nodes that look the same through
`view`. -/
structure Keeps {β : Type} (view : Node → β) (d e : Document) : Prop where
  size : e.slots.size = d.slots.size
  sheets : e.sheets = d.sheets
  media : e.media = d.media
  nodes : ∀ id, (e.node? id).map view = (d.node? id).map view

namespace Keeps

variable {β γ : Type} {view : Node → β} {d e f : Document}

theorem refl (view : Node → β) (d : Document) : Keeps view d d :=
  ⟨rfl, rfl, rfl, fun _ => rfl⟩

theorem trans (h : Keeps view d e) (h' : Keeps view e f) : Keeps view d f :=
  ⟨h'.size.trans h.size, h'.sheets.trans h.sheets, h'.media.trans h.media,
    fun id => (h'.nodes id).trans (h.nodes id)⟩

theorem symm (h : Keeps view d e) : Keeps view e d :=
  ⟨h.size.symm, h.sheets.symm, h.media.symm, fun id => (h.nodes id).symm⟩

/-- What is read off a kept view is kept. -/
theorem map (h : Keeps view d e) (g : β → γ) : Keeps (fun n => g (view n)) d e where
  size := h.size
  sheets := h.sheets
  media := h.media
  nodes id := by
    have hid := congrArg (Option.map g) (h.nodes id)
    rwa [Option.map_map, Option.map_map] at hid

theorem contains (h : Keeps view d e) (id : NodeId) : e.contains id = d.contains id := by
  have hid := congrArg Option.isSome (h.nodes id)
  rwa [Option.isSome_map, Option.isSome_map] at hid

/-- A node that exists before exists afterwards, with the same view. -/
theorem node?_eq_some (h : Keeps view d e) {id : NodeId} {n : Node} (hn : d.node? id = some n) :
    ∃ m, e.node? id = some m ∧ view m = view n := by
  have hid := h.nodes id
  rw [hn] at hid
  exact Option.map_eq_some_iff.mp hid

theorem foldl {α : Type} {step : Document → α → Document}
    (hstep : ∀ d a, Keeps view d (step d a)) (l : List α) (d : Document) :
    Keeps view d (l.foldl step d) := by
  induction l generalizing d with
  | nil => exact refl view d
  | cons a rest ih => exact (hstep d a).trans (ih (step d a))

end Keeps

/-! ## The primitive changes -/

section Primitive
variable {β : Type} {view : Node → β}

theorem keeps_modify (d : Document) (id : NodeId) {f : Node → Node}
    (hf : ∀ n, view (f n) = view n) : Keeps view d (d.modify id f) where
  size := by simp [modify]
  sheets := rfl
  media := rfl
  nodes j := by
    rw [node?_modify]
    split
    · rw [Option.map_map]
      exact congrArg (Option.map · (d.node? j)) (funext hf)
    · rfl

theorem Keeps.modify {d e : Document} (h : Keeps view d e) (id : NodeId) {f : Node → Node}
    (hf : ∀ n, view (f n) = view n) : Keeps view d (e.modify id f) :=
  h.trans (keeps_modify e id hf)

theorem Keeps.markDirty {d e : Document} (h : Keeps view d e) (ids : List NodeId)
    (hview : ∀ n, view { n with dirty := true } = view n) : Keeps view d (e.markDirty ids) :=
  h.trans (Keeps.foldl (fun d id => keeps_modify d id hview) ids e)

theorem keeps_markDirty (d : Document) (ids : List NodeId) :
    Keeps Node.apartFromMark d (d.markDirty ids) :=
  (Keeps.refl _ d).markDirty ids fun _ => rfl

end Primitive

/-! ## Lists on nodes -/

section Lists
variable {α : Type} (list : Node → List α)

/-- A list on a node after a change that changes it by `g`. -/
theorem field_modify {g : List α → List α} (d : Document) (id j : NodeId) {f : Node → Node}
    (hf : ∀ n, list (f n) = g (list n)) :
    (((d.modify id f).node? j).map list).getD [] =
      if id = j ∧ d.contains j then g (((d.node? j).map list).getD [])
      else ((d.node? j).map list).getD [] := by
  rw [node?_modify, contains]
  by_cases h : id = j
  · cases hj : d.node? j with
    | none => simp
    | some n => simp [h, hf]
  · simp [h]

/-- A list on a node after several nodes have had theirs filtered. -/
theorem field_foldl_filter {p : α → Bool} {f : Node → Node} (ids : List NodeId)
    (d : Document) (j : NodeId)
    (hf : ∀ n, list (f n) = (list n).filter p) :
    (((ids.foldl (fun d id => d.modify id f) d).node? j).map list).getD [] =
      if j ∈ ids then (((d.node? j).map list).getD []).filter p
      else ((d.node? j).map list).getD [] := by
  induction ids generalizing d with
  | nil => rfl
  | cons id rest ih =>
    have hone : (((d.modify id f).node? j).map list).getD [] =
        if id = j then (((d.node? j).map list).getD []).filter p
        else ((d.node? j).map list).getD [] := by
      rw [node?_modify]
      split
      · cases d.node? j with
        | none => rfl
        | some n => exact hf n
      · rfl
    rw [List.foldl_cons, ih, hone]
    by_cases hid : id = j
    · subst hid
      simp
    · have hne : ¬j = id := fun h => hid h.symm
      simp [hid, hne]

variable {list} in
theorem Keeps.field {d e : Document} (h : Keeps list d e) (id : NodeId) :
    ((e.node? id).map list).getD [] = ((d.node? id).map list).getD [] := by
  rw [h.nodes id]

end Lists

/-! ## Families of operations -/

theorem keeps_removeChild (d : Document) (parent child : NodeId) :
    Keeps Node.apartFromLinks d (d.removeChild parent child).1 := by
  rw [removeChild]
  split
  · refine ((keeps_modify d parent ?_).modify child ?_).markDirty _ ?_
    all_goals exact fun _ => rfl
  · exact Keeps.refl _ d

theorem keeps_detach (d : Document) (child : NodeId) :
    Keeps Node.apartFromLinks d (d.detach child) := by
  rw [detach]
  split
  · exact keeps_removeChild d _ child
  · exact Keeps.refl _ d

theorem keeps_attach (d : Document) (parent child : NodeId) :
    Keeps Node.apartFromLinks d (d.attach parent child) := by
  refine ((keeps_modify d parent ?_).modify child ?_).markDirty _ ?_
  all_goals exact fun _ => rfl

theorem keeps_append (d : Document) (parent child : NodeId) :
    Keeps Node.apartFromLinks d (d.append parent child).1 := by
  rw [append]
  split
  · split
    · exact Keeps.refl _ d
    · exact (keeps_detach d child).trans (keeps_attach _ parent child)
  · exact Keeps.refl _ d

theorem keeps_setId (d : Document) (id : NodeId) (text : String) :
    Keeps Node.apartFromNames d (d.setId id text) := by
  refine (keeps_modify d id ?_).markDirty _ ?_
  all_goals exact fun _ => rfl

theorem keeps_setClasses (d : Document) (id : NodeId) (text : String) :
    Keeps Node.apartFromNames d (d.setClasses id text) := by
  refine (keeps_modify d id ?_).markDirty _ ?_
  all_goals exact fun _ => rfl

/-- The owners of sheets are no part of what is kept. -/
theorem keeps_owners {β : Type} (view : Node → β) (d : Document) (owners : List (Nat × NodeId)) :
    Keeps view d { d with owners } :=
  ⟨rfl, rfl, rfl, fun _ => rfl⟩

theorem keeps_removeOwner {β : Type} (view : Node → β) (d : Document)
    (sheet : Option SharedSheet) (id : NodeId) :
    Keeps view d (sheet.elim d (d.removeOwner · id)) := by
  cases sheet with
  | none => exact Keeps.refl view d
  | some old => exact keeps_owners view d _

theorem setSheet_of_not_contains {d : Document} {id : NodeId} (h : d.contains id = false)
    (sheet : Option SharedSheet) : d.setSheet id sheet = d := by
  have hnone : d.node? id = none := by simpa [contains] using h
  rw [setSheet, hnone]

/-- Giving a sheet changes the owners, the node, and the marks of its subtree. -/
theorem exists_setSheet_eq {d : Document} {id : NodeId} (h : d.contains id = true)
    (sheet : Option SharedSheet) :
    ∃ owners, d.setSheet id sheet =
      ({ d with owners }.modify id fun n => { n with sheet }).markSubtreeDirty id := by
  obtain ⟨node, hn⟩ := Option.isSome_iff_exists.mp h
  have hremove : ∃ owners, node.sheet.elim d (d.removeOwner · id) = { d with owners } := by
    cases node.sheet with
    | none => exact ⟨d.owners, rfl⟩
    | some old => exact ⟨_, rfl⟩
  have hadd : ∀ e : Document, ∃ owners, sheet.elim e (e.addOwner · id) = { e with owners } := by
    intro e
    cases sheet with
    | none => exact ⟨e.owners, rfl⟩
    | some new =>
      rw [Option.elim_some, addOwner]
      split
      · exact ⟨e.owners, rfl⟩
      · exact ⟨_, rfl⟩
  obtain ⟨first, hfirst⟩ := hremove
  obtain ⟨second, hsecond⟩ := hadd { d with owners := first }
  refine ⟨second, ?_⟩
  rw [setSheet, hn]
  simp only [hfirst, hsecond]

theorem keeps_setSheet (d : Document) (id : NodeId) (sheet : Option SharedSheet) :
    Keeps Node.apartFromSheet d (d.setSheet id sheet) := by
  cases hc : d.contains id with
  | false =>
    rw [setSheet_of_not_contains hc]
    exact Keeps.refl _ d
  | true =>
    obtain ⟨owners, heq⟩ := exists_setSheet_eq hc sheet
    rw [heq]
    refine ((keeps_owners _ d owners).modify id ?_).markDirty _ ?_
    all_goals exact fun _ => rfl

theorem keeps_addListener (d : Document) (holder : NodeId) (l : Listener) :
    Keeps Node.apartFromListening d (d.addListener holder l) := by
  rw [addListener]
  split
  · refine (keeps_modify d holder ?_).modify l.leaf ?_
    all_goals exact fun _ => rfl
  · exact Keeps.refl _ d

theorem keeps_releaseListeners (d : Document) (leaf : NodeId) :
    Keeps Node.apartFromListening d (d.releaseListeners leaf) := by
  refine (keeps_modify d leaf ?_).trans (Keeps.foldl (fun d holder => keeps_modify d holder ?_) _ _)
  all_goals exact fun _ => rfl

theorem keeps_addListeners (d : Document) (needed : List (NodeId × Listener)) :
    Keeps Node.apartFromListening d
      (needed.foldl (fun d (holder, l) => d.addListener holder l) d) :=
  Keeps.foldl (fun d (pair : NodeId × Listener) => keeps_addListener d pair.1 pair.2) needed d

theorem keeps_rematch (d : Document) (id : NodeId) :
    Keeps Node.apartFromMatching d (d.rematch id).1 := by
  have hrelease := (keeps_releaseListeners d id).map Node.apartFromMatching
  have hmark := (keeps_markDirty (d.releaseListeners id) (d.unsettled id)).map
    Node.apartFromMatching
  exact (hrelease.trans hmark).trans ((keeps_addListeners _ _).map Node.apartFromMatching)

theorem keeps_applyRules (d : Document) (id : NodeId) (rules : List MatchedRule) :
    Keeps Node.apartFromStyling d (d.applyRules id rules) :=
  keeps_modify d id fun _ => rfl

theorem keeps_restyle (d : Document) (id : NodeId) :
    Keeps Node.apartFromStyling d (d.restyle id).1 := by
  rw [restyle]
  split
  · have hclean : Keeps Node.apartFromStyling d (d.modify id fun n => { n with dirty := false }) :=
      keeps_modify d id fun _ => rfl
    have hmatch := (keeps_rematch (d.modify id fun n => { n with dirty := false }) id).map
      Node.apartFromStyling
    exact ((hclean.trans hmatch).trans (keeps_applyRules _ id _)).trans
      (keeps_modify _ id fun _ => rfl)
  · exact Keeps.refl _ d

theorem keeps_restyleDirty (d : Document) : Keeps Node.apartFromStyling d d.restyleDirty.1 :=
  Keeps.foldl (fun d id => keeps_restyle d id) d.dirtyNodes d

theorem keeps_replaceInline (d : Document) (id : NodeId) (style : Declaration) :
    Keeps Node.apartFromInline d (d.replaceInline id style) := by
  refine (keeps_modify d id ?_).trans ((keeps_restyle _ id).map Node.apartFromInline)
  exact fun _ => rfl

theorem keeps_updateInline (d : Document) (id : NodeId) (style : Declaration) :
    Keeps Node.apartFromInline d (d.updateInline id style) := by
  refine (keeps_modify d id ?_).trans ((keeps_restyle _ id).map Node.apartFromInline)
  exact fun _ => rfl

theorem keeps_recordStates (d : Document) (id : NodeId) (states : StateMap) :
    Keeps Node.apartFromViews d (d.recordStates id states) :=
  keeps_modify d id fun _ => rfl

theorem keeps_deliver (d : Document) (id : NodeId) (update : ViewUpdate) :
    Keeps Node.apartFromViews d (d.deliver id update).1 := by
  rw [deliver]
  split
  · exact Keeps.refl _ d
  · split <;> exact keeps_modify d id fun _ => rfl

theorem keeps_deliverAll (d : Document) (updates : List (NodeId × ViewUpdate)) :
    Keeps Node.apartFromViews d (d.deliverAll updates).1 := by
  induction updates generalizing d with
  | nil => exact Keeps.refl _ d
  | cons update rest ih => exact (keeps_deliver d update.1 update.2).trans (ih _)

theorem keeps_changeStates (d : Document) (id : NodeId) (states : StateMap) :
    Keeps Node.apartFromViews d (d.changeStates id states).1 :=
  (keeps_recordStates d id states).trans (keeps_deliverAll _ _)

theorem keeps_bind (d : Document) (id : NodeId) (component : Component) :
    Keeps Node.apartFromViews d (d.bind id component).1 := by
  rw [bind]
  split
  · exact Keeps.refl _ d
  · split <;> exact keeps_modify d id fun _ => rfl

theorem keeps_unbind (d : Document) (id : NodeId) :
    Keeps Node.apartFromViews d (d.unbind id).1 :=
  keeps_modify d id fun _ => rfl

theorem keeps_changeView (d : Document) (id : NodeId) (f : Component → Component) :
    Keeps Node.apartFromViews d (d.changeView id f) :=
  keeps_modify d id fun _ => rfl

end Document
end StyleCascade
