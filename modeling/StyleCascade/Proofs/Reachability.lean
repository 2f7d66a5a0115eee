import StyleCascade.Proofs.Removal
import StyleCascade.Proofs.Restyling
import StyleCascade.Proofs.Runs

/-!
# Forests in every run

Few actions change links (`Action.IsRelinking`), and these lead from a forest to a forest
(`IsForest.perform`); so every reachable document is one.
-/
namespace StyleCascade

/-- The actions on the tree itself. -/
def Action.IsRelinking : Action → Prop
  | .create _ | .append _ _ | .removeChild _ _ | .remove _ => True
  | _ => False

namespace Document

variable {d e : Document}

/-! ## New documents -/

theorem node?_new (media : MediaEnvironment) (id : NodeId) :
    (Document.new media).node? id = if id = .root then some { tag := "#document" } else none := by
  obtain ⟨i⟩ := id
  cases i <;> rfl

theorem isForest_new (media : MediaEnvironment) : (Document.new media).IsForest := by
  have hparent : ∀ id, (Document.new media).parent? id = none := by
    intro id
    rw [parent?, node?_new]
    split <;> rfl
  have hchildren : ∀ id, (Document.new media).children id = [] := by
    intro id
    rw [children, node?_new]
    split <;> rfl
  refine ⟨rfl, rfl, fun p c => ?_, fun p => ?_, ⟨fun id => Acc.intro id fun p hp => ?_⟩⟩
  · rw [hchildren, hparent]
    simp
  · rw [hchildren]
    exact List.nodup_nil
  · rw [IsParent, hparent] at hp
    cases hp

/-! ## Sheets and environments -/

theorem node?_addSheet (d : Document) (sheet : SharedSheet) (id : NodeId) :
    (d.addSheet sheet).node? id = (d.node? id).map fun n => { n with dirty := true } := by
  rw [addSheet, markAllDirty, node?_modifyAll, addOwner]
  split <;> rfl

theorem node?_setMedia (d : Document) (media : MediaEnvironment) (id : NodeId) :
    (d.setMedia media).node? id = (d.node? id).map fun n => { n with dirty := true } := by
  rw [setMedia, markAllDirty, node?_modifyAll]
  rfl

theorem size_addSheet (d : Document) (sheet : SharedSheet) :
    (d.addSheet sheet).slots.size = d.slots.size := by
  rw [addSheet, addOwner]
  split <;> exact Array.size_map

/-! ## Forests -/

theorem Keeps.isForest (h : Keeps Node.links d e) (hd : d.IsForest) : e.IsForest :=
  hd.of_nodes h.nodes

/-- **Other actions than those on the tree** leave the slots and all links as they are. -/
theorem links_perform {a : Action} (ha : ¬a.IsRelinking) :
    (d.perform a).slots.size = d.slots.size ∧
      ∀ id, ((d.perform a).node? id).map Node.links = (d.node? id).map Node.links := by
  have hkept : ∀ {e : Document}, Keeps Node.links d e → e.slots.size = d.slots.size ∧
      ∀ id, (e.node? id).map Node.links = (d.node? id).map Node.links := fun h =>
    ⟨h.size, h.nodes⟩
  cases a with
  | create | append | removeChild | remove => exact absurd trivial ha
  | setId id text => exact hkept ((keeps_setId d id text).map Node.links)
  | setClasses id text => exact hkept ((keeps_setClasses d id text).map Node.links)
  | addSheet sheet =>
    refine ⟨size_addSheet d sheet, fun id => ?_⟩
    rw [Document.perform, node?_addSheet, Option.map_map]
    rfl
  | setSheet id sheet => exact hkept ((keeps_setSheet d id sheet).map Node.links)
  | setMedia media =>
    refine ⟨Array.size_map, fun id => ?_⟩
    rw [Document.perform, node?_setMedia, Option.map_map]
    rfl
  | replaceInline id style => exact hkept ((keeps_replaceInline d id style).map Node.links)
  | updateInline id style => exact hkept ((keeps_updateInline d id style).map Node.links)
  | bind id component => exact hkept ((keeps_bind d id component).map Node.links)
  | unbind id => exact hkept ((keeps_unbind d id).map Node.links)
  | changeView id f => exact hkept ((keeps_changeView d id f).map Node.links)
  | recordStates id states => exact hkept ((keeps_recordStates d id states).map Node.links)
  | changeStates id states => exact hkept ((keeps_changeStates d id states).map Node.links)
  | rematch id => exact hkept ((keeps_rematch d id).map Node.links)
  | applyRules id rules => exact hkept ((keeps_applyRules d id rules).map Node.links)
  | restyle id => exact hkept ((keeps_restyle d id).map Node.links)
  | restyleDirty => exact hkept ((keeps_restyleDirty d).map Node.links)

/-- **Every action leads from a forest to a forest.** -/
theorem IsForest.perform (hd : d.IsForest) (a : Action) : (d.perform a).IsForest := by
  cases a with
  | create tag => exact hd.create tag
  | append parent child => exact hd.append parent child
  | removeChild parent child => exact hd.removeChild parent child
  | remove id => exact hd.remove id
  | _ =>
    refine hd.of_nodes (links_perform ?_).2
    exact fun h => h

theorem ReachableBy.isForest {allowed : Action → Prop} (hd : ReachableBy allowed d) :
    d.IsForest :=
  hd.invariant isForest_new fun _ a _ h => h.perform a

end Document
end StyleCascade
