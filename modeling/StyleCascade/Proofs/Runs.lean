import StyleCascade.Document.StateChange

/-!
# Runs of a document

A run starts from a new document and performs one action after the other, in any order
and with any handles, those of removed nodes and of nodes that never existed included.
A document is reachable if some run ends in it; runs that keep to some of the actions
are the subject of `Document.ReachableBy`.  A run is given by the list of its actions as
well (`Document.performAll`).
-/
namespace StyleCascade

/-- What can be done to a document. -/
inductive Action
  | create (tag : String)
  | append (parent child : NodeId)
  | removeChild (parent child : NodeId)
  | remove (id : NodeId)
  | setId (id : NodeId) (text : String)
  | setClasses (id : NodeId) (text : String)
  | addSheet (sheet : SharedSheet)
  | setSheet (id : NodeId) (sheet : Option SharedSheet)
  | setMedia (media : MediaEnvironment)
  | replaceInline (id : NodeId) (style : Declaration)
  | updateInline (id : NodeId) (style : Declaration)
  | bind (id : NodeId) (component : Component)
  | unbind (id : NodeId)
  /-- The view of a node changes what it reports of itself. -/
  | changeView (id : NodeId) (f : Component → Component)
  | recordStates (id : NodeId) (states : StateMap)
  | changeStates (id : NodeId) (states : StateMap)
  | rematch (id : NodeId)
  /-- A final style is computed from whatever rules are given. -/
  | applyRules (id : NodeId) (rules : List MatchedRule)
  | restyle (id : NodeId)
  | restyleDirty

namespace Document

def perform (d : Document) : Action → Document
  | .create tag => (d.create tag).2
  | .append parent child => (d.append parent child).1
  | .removeChild parent child => (d.removeChild parent child).1
  | .remove id => (d.remove id).1
  | .setId id text => d.setId id text
  | .setClasses id text => d.setClasses id text
  | .addSheet sheet => d.addSheet sheet
  | .setSheet id sheet => d.setSheet id sheet
  | .setMedia media => d.setMedia media
  | .replaceInline id style => d.replaceInline id style
  | .updateInline id style => d.updateInline id style
  | .bind id component => (d.bind id component).1
  | .unbind id => (d.unbind id).1
  | .changeView id f => d.changeView id f
  | .recordStates id states => d.recordStates id states
  | .changeStates id states => (d.changeStates id states).1
  | .rematch id => (d.rematch id).1
  | .applyRules id rules => d.applyRules id rules
  | .restyle id => (d.restyle id).1
  | .restyleDirty => d.restyleDirty.1

/-- The documents in which runs of allowed actions end. -/
inductive ReachableBy (allowed : Action → Prop) : Document → Prop
  | new (media : MediaEnvironment) : ReachableBy allowed (.new media)
  | perform {d : Document} {a : Action} (hd : ReachableBy allowed d) (ha : allowed a) :
      ReachableBy allowed (d.perform a)

/-- The documents in which runs end. -/
abbrev Reachable : Document → Prop :=
  ReachableBy fun _ => True

/-- What holds of new documents and is kept by every allowed action holds of every document
that is reached. -/
theorem ReachableBy.invariant {allowed : Action → Prop} {P : Document → Prop}
    (hnew : ∀ media, P (.new media))
    (hstep : ∀ d a, allowed a → P d → P (d.perform a)) {d : Document}
    (hd : ReachableBy allowed d) : P d := by
  induction hd with
  | new media => exact hnew media
  | perform _ ha ih => exact hstep _ _ ha ih

/-! ## Runs as lists -/

/-- Performs one action after the other. -/
def performAll (d : Document) (actions : List Action) : Document :=
  actions.foldl perform d

/-- The handles that a run gives out, in order. -/
def created (d : Document) : List Action → List NodeId
  | [] => []
  | .create tag :: rest => (d.create tag).1 :: (d.perform (.create tag)).created rest
  | a :: rest => (d.perform a).created rest

theorem performAll_append (d : Document) (first second : List Action) :
    d.performAll (first ++ second) = (d.performAll first).performAll second :=
  List.foldl_append

theorem ReachableBy.performAll {allowed : Action → Prop} {d : Document}
    (hd : ReachableBy allowed d) {actions : List Action} (h : ∀ a ∈ actions, allowed a) :
    ReachableBy allowed (d.performAll actions) := by
  induction actions generalizing d with
  | nil => exact hd
  | cons a rest ih =>
    exact ih (hd.perform (h a List.mem_cons_self)) fun b hb => h b (List.mem_cons_of_mem _ hb)

/-- What is reachable is where some list of actions leads. -/
theorem reachable_iff {d : Document} :
    d.Reachable ↔ ∃ media actions, d = (Document.new media).performAll actions := by
  constructor
  · intro hd
    induction hd with
    | new media => exact ⟨media, [], rfl⟩
    | perform _ _ ih =>
      obtain ⟨media, actions, rfl⟩ := ih
      exact ⟨media, actions ++ [_], (performAll_append _ actions [_]).symm⟩
  · rintro ⟨media, actions, rfl⟩
    exact (ReachableBy.new media).performAll fun _ _ => trivial

theorem reachable_performAll (media : MediaEnvironment) (actions : List Action) :
    ((Document.new media).performAll actions).Reachable :=
  reachable_iff.mpr ⟨media, actions, rfl⟩

end Document
end StyleCascade
