import StyleCascade.Proofs.Deliveries
import StyleCascade.Proofs.QuietRuns

/-!
# What is attached to nodes and documents

A node has a sheet of its own or none, and an update waits on it or none; a document has a list
of sheets.  Few actions change any of these (`Action.IsAttaching`), and all others leave all of
them as they are (`Document.sameAttachments_perform`); what a document has is never taken from it
(`Document.sheets_perform`).
-/
namespace StyleCascade

/-- The sheet of a node's own, and the update that waits on it. -/
def Node.attached (n : Node) : Option SharedSheet × Option ViewUpdate :=
  (n.sheet, n.pending)

/-- The actions that attach something or take it away. -/
def Action.IsAttaching : Action → Prop
  | .remove _ | .addSheet _ | .setSheet _ _ | .bind _ _ | .changeStates _ _ => True
  | _ => False

/-- The sheets that an action adds to the document. -/
def Action.addedSheets : Action → List SharedSheet
  | .addSheet shared => [shared]
  | _ => []

namespace Document

variable {d e : Document} {id : NodeId}

/-- The same things are attached in `d` and `e`. -/
structure SameAttachments (d e : Document) : Prop where
  sheets : e.sheets = d.sheets
  own : ∀ id, e.ownSheet? id = d.ownSheet? id
  waiting : ∀ id, e.waiting? id = d.waiting? id

theorem waiting?_eq_of_map (id : NodeId)
    (h : (e.node? id).map (·.pending) = (d.node? id).map (·.pending)) :
    e.waiting? id = d.waiting? id :=
  bind_eq_of_map h

/-- What is attached to a node is read off the node. -/
theorem attached_of_map
    (h : (e.node? id).map Node.attached = (d.node? id).map Node.attached) :
    e.ownSheet? id = d.ownSheet? id ∧ e.waiting? id = d.waiting? id := by
  have hsheet := congrArg (Option.map Prod.fst) h
  have hpending := congrArg (Option.map Prod.snd) h
  simp only [Option.map_map] at hsheet hpending
  exact ⟨ownSheet?_eq_of_map id hsheet, waiting?_eq_of_map id hpending⟩

theorem Keeps.sameAttachments (h : Keeps Node.attached d e) : SameAttachments d e where
  sheets := h.sheets
  own id := (attached_of_map (h.nodes id)).1
  waiting id := (attached_of_map (h.nodes id)).2

/-- A new node comes with nothing. -/
theorem sameAttachments_create (d : Document) (tag : String) :
    SameAttachments d (d.create tag).2 := by
  have hnew : d.node? (d.create tag).1 = none := by simp [create, node?]
  refine ⟨rfl, fun id => ?_, fun id => ?_⟩
  · rw [ownSheet?, ownSheet?, node?_create]
    split
    · rename_i h
      rw [h, hnew]
      rfl
    · rfl
  · rw [waiting?, waiting?, node?_create]
    split
    · rename_i h
      rw [h, hnew]
      rfl
    · rfl

/-- A sheet of the document is attached to no node. -/
theorem attached_addSheet (d : Document) (shared : SharedSheet) (id : NodeId) :
    (d.addSheet shared).ownSheet? id = d.ownSheet? id ∧
      (d.addSheet shared).waiting? id = d.waiting? id := by
  refine attached_of_map ?_
  rw [node?_addSheet, Option.map_map]
  rfl

/-- A removal leaves alone what is attached to the nodes that stay. -/
theorem exists_prunes_remove (d : Document) (id : NodeId) :
    ∃ removed, Prunes Node.attached removed d (d.remove id).1 := by
  rw [remove_eq]
  split
  · exact ⟨[], rfl, rfl, rfl, fun _ => rfl⟩
  · exact ⟨_, ((keeps_detach d id).map Node.attached).prunes
      ((prunes_dropAll (d.detach id) ((d.detach id).subtree id)).map Node.attached)⟩

theorem attached_remove {j : NodeId} (hj : (d.remove id).1.contains j = true) :
    (d.remove id).1.ownSheet? j = d.ownSheet? j ∧
      (d.remove id).1.waiting? j = d.waiting? j := by
  obtain ⟨removed, hprune⟩ := exists_prunes_remove d id
  exact attached_of_map (hprune.nodes_of_notMem (hprune.notMem_of_contains hj))

/-- **Other actions leave alone what is attached.** -/
theorem sameAttachments_perform {a : Action} (ha : ¬a.IsAttaching) :
    SameAttachments d (d.perform a) := by
  cases a with
  | remove | addSheet | setSheet | bind | changeStates => exact absurd trivial ha
  | create tag => exact sameAttachments_create d tag
  | append parent child => exact ((keeps_append d parent child).map Node.attached).sameAttachments
  | removeChild parent child =>
    exact ((keeps_removeChild d parent child).map Node.attached).sameAttachments
  | setId id text => exact ((keeps_setId d id text).map Node.attached).sameAttachments
  | setClasses id text => exact ((keeps_setClasses d id text).map Node.attached).sameAttachments
  | setMedia media =>
    have hnodes : ∀ id, ((d.setMedia media).node? id).map Node.attached =
        (d.node? id).map Node.attached := by
      intro id
      rw [node?_setMedia, Option.map_map]
      rfl
    exact ⟨rfl, fun id => (attached_of_map (hnodes id)).1,
      fun id => (attached_of_map (hnodes id)).2⟩
  | replaceInline id style =>
    exact ((keeps_replaceInline d id style).map Node.attached).sameAttachments
  | updateInline id style =>
    exact ((keeps_updateInline d id style).map Node.attached).sameAttachments
  | unbind id => exact Keeps.sameAttachments (by exact keeps_modify d id fun _ => rfl)
  | changeView id f => exact Keeps.sameAttachments (by exact keeps_modify d id fun _ => rfl)
  | recordStates id states =>
    exact Keeps.sameAttachments (by exact keeps_modify d id fun _ => rfl)
  | rematch id => exact ((keeps_rematch d id).map Node.attached).sameAttachments
  | applyRules id rules => exact ((keeps_applyRules d id rules).map Node.attached).sameAttachments
  | restyle id => exact ((keeps_restyle d id).map Node.attached).sameAttachments
  | restyleDirty => exact ((keeps_restyleDirty d).map Node.attached).sameAttachments

/-- **Sheets are added to a document**, and never taken from it. -/
theorem sheets_perform (d : Document) (a : Action) :
    (d.perform a).sheets = d.sheets ++ a.addedSheets := by
  cases a with
  | addSheet new =>
    rw [perform, addSheet, addOwner]
    split <;> rfl
  | setSheet id sheet => exact (keeps_setSheet d id sheet).sheets.trans (List.append_nil _).symm
  | remove id =>
    obtain ⟨_, hprune⟩ := exists_prunes_remove d id
    exact hprune.sheets.trans (List.append_nil _).symm
  | bind id component => exact (keeps_bind d id component).sheets.trans (List.append_nil _).symm
  | changeStates id states =>
    exact (keeps_changeStates d id states).sheets.trans (List.append_nil _).symm
  | _ =>
    refine (sameAttachments_perform ?_).sheets.trans (List.append_nil _).symm
    exact fun h => h

end Document
end StyleCascade
