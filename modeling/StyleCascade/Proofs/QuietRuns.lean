import StyleCascade.Proofs.Reachability

/-!
# Quiet runs

In a quiet run no sheet asks for a state of the subject of a selector, and final styles
are computed by restyling only.  A report of states then never calls for restyling: in
every document that a quiet run reaches, names alone decide which rules match a node
(`StatelessSubjects.hasState_subject`).
-/
namespace StyleCascade

/-- No rule of the sheet asks for a state of its subject, whatever the environment. -/
def StyleSheet.StatelessSubjects (sheet : StyleSheet) : Prop :=
  ∀ env, ∀ rule ∈ sheet.activeRules env, ∀ s ∈ rule.selectors, s.subject.hasState = false

/-- The actions of a quiet run. -/
def Action.IsQuiet : Action → Prop
  | .addSheet shared => shared.sheet.StatelessSubjects
  | .setSheet _ shared? => ∀ shared, shared? = some shared → shared.sheet.StatelessSubjects
  | .applyRules _ _ => False
  | _ => True

namespace Document

/-- The sheet of a node's own. -/
def ownSheet? (d : Document) (id : NodeId) : Option SharedSheet :=
  (d.node? id).bind (·.sheet)

/-- No sheet in use asks for a state of a subject. -/
structure StatelessSubjects (d : Document) : Prop where
  document : ∀ shared ∈ d.sheets, shared.sheet.StatelessSubjects
  own : ∀ id shared, d.ownSheet? id = some shared → shared.sheet.StatelessSubjects

variable {d e : Document}

namespace StatelessSubjects

variable (hd : d.StatelessSubjects)
include hd

theorem hasState_subject {id : NodeId} {rule : StyleRule} (hrule : rule ∈ d.activeRules id)
    {s : Selector} (hs : s ∈ rule.selectors) : s.subject.hasState = false := by
  obtain ⟨sheet, hsheet, hactive⟩ := List.mem_flatMap.mp hrule
  rcases List.mem_append.mp hsheet with hdocument | hown
  · obtain ⟨shared, hshared, rfl⟩ := List.mem_map.mp hdocument
    exact hd.document shared hshared _ rule hactive s hs
  · obtain ⟨shared, hnearest, rfl⟩ := Option.map_eq_some_iff.mp (Option.mem_toList.mp hown)
    obtain ⟨a, -, ha⟩ := List.exists_of_findSome?_eq_some hnearest
    exact hd.own a shared ha _ rule hactive s hs

/-- Sheets that were there before and no others are in use. -/
theorem of_subset (hsheets : e.sheets = d.sheets)
    (hown : ∀ id shared, e.ownSheet? id = some shared → d.ownSheet? id = some shared) :
    e.StatelessSubjects where
  document := by
    rw [hsheets]
    exact hd.document
  own id shared h := hd.own id shared (hown id shared h)

end StatelessSubjects

theorem ownSheet?_eq_of_map (id : NodeId)
    (h : (e.node? id).map (·.sheet) = (d.node? id).map (·.sheet)) :
    e.ownSheet? id = d.ownSheet? id :=
  bind_eq_of_map h

theorem Keeps.statelessSubjects (h : Keeps (·.sheet) d e) (hd : d.StatelessSubjects) :
    e.StatelessSubjects := by
  refine hd.of_subset h.sheets fun id shared hown => ?_
  rwa [ownSheet?_eq_of_map id (h.nodes id)] at hown

theorem statelessSubjects_new (media : MediaEnvironment) :
    (Document.new media).StatelessSubjects := by
  refine ⟨fun shared h => ?_, fun id shared h => ?_⟩
  · cases h
  · rw [ownSheet?, node?_new] at h
    split at h <;> cases h

theorem StatelessSubjects.create (hd : d.StatelessSubjects) (tag : String) :
    (d.create tag).2.StatelessSubjects := by
  refine hd.of_subset rfl fun id shared h => ?_
  rw [ownSheet?, node?_create] at h
  split at h
  · cases h
  · exact h

theorem StatelessSubjects.addSheet (hd : d.StatelessSubjects) {shared : SharedSheet}
    (hsheet : shared.sheet.StatelessSubjects) : (d.addSheet shared).StatelessSubjects := by
  have hsheets : (d.addSheet shared).sheets = d.sheets ++ [shared] := by
    rw [Document.addSheet, addOwner]
    split <;> rfl
  refine ⟨fun other h => ?_, fun id other h => ?_⟩
  · rw [hsheets] at h
    rcases List.mem_append.mp h with h | h
    · exact hd.document other h
    · rwa [List.mem_singleton.mp h]
  · refine hd.own id other ?_
    rw [ownSheet?, node?_addSheet, Option.bind_map] at h
    exact h

theorem StatelessSubjects.setMedia (hd : d.StatelessSubjects) (media : MediaEnvironment) :
    (d.setMedia media).StatelessSubjects := by
  refine hd.of_subset rfl fun id shared h => ?_
  rw [ownSheet?, node?_setMedia, Option.bind_map] at h
  exact h

theorem StatelessSubjects.setSheet (hd : d.StatelessSubjects) (id : NodeId)
    {shared? : Option SharedSheet}
    (hsheet : ∀ shared, shared? = some shared → shared.sheet.StatelessSubjects) :
    (d.setSheet id shared?).StatelessSubjects := by
  cases hc : d.contains id with
  | false => rwa [setSheet_of_not_contains hc]
  | true =>
    obtain ⟨owners, heq⟩ := exists_setSheet_eq hc shared?
    rw [heq]
    refine ((keeps_markDirty _ _).map Node.sheet).statelessSubjects ⟨hd.document, ?_⟩
    intro j other h
    rw [ownSheet?, node?_modify] at h
    split at h
    · rw [Option.bind_map] at h
      obtain ⟨n, -, hn⟩ := Option.bind_eq_some_iff.mp h
      exact hsheet other hn
    · exact hd.own j other h

theorem StatelessSubjects.remove (hd : d.StatelessSubjects) (id : NodeId) :
    (d.remove id).1.StatelessSubjects := by
  rw [remove_eq]
  split
  · exact hd
  · have hdetach := ((keeps_detach d id).map Node.sheet).statelessSubjects hd
    have hprune := (prunes_dropAll (d.detach id) ((d.detach id).subtree id)).map Node.sheet
    refine hdetach.of_subset hprune.sheets fun j shared h => ?_
    by_cases hj : j ∈ (d.detach id).subtree id
    · rw [ownSheet?, hprune.node?_eq_none hj] at h
      cases h
    · rwa [ownSheet?_eq_of_map j (hprune.nodes_of_notMem hj)] at h

theorem StatelessSubjects.perform (hd : d.StatelessSubjects) {a : Action} (ha : a.IsQuiet) :
    (d.perform a).StatelessSubjects := by
  cases a with
  | create tag => exact hd.create tag
  | append parent child =>
    exact ((keeps_append d parent child).map Node.sheet).statelessSubjects hd
  | removeChild parent child =>
    exact ((keeps_removeChild d parent child).map Node.sheet).statelessSubjects hd
  | remove id => exact hd.remove id
  | setId id text => exact ((keeps_setId d id text).map Node.sheet).statelessSubjects hd
  | setClasses id text =>
    exact ((keeps_setClasses d id text).map Node.sheet).statelessSubjects hd
  | addSheet shared => exact hd.addSheet ha
  | setSheet id shared? => exact hd.setSheet id ha
  | setMedia media => exact hd.setMedia media
  | replaceInline id style =>
    exact ((keeps_replaceInline d id style).map Node.sheet).statelessSubjects hd
  | updateInline id style =>
    exact ((keeps_updateInline d id style).map Node.sheet).statelessSubjects hd
  | bind id component => exact ((keeps_bind d id component).map Node.sheet).statelessSubjects hd
  | unbind id => exact ((keeps_unbind d id).map Node.sheet).statelessSubjects hd
  | changeView id f => exact ((keeps_changeView d id f).map Node.sheet).statelessSubjects hd
  | recordStates id states =>
    exact ((keeps_recordStates d id states).map Node.sheet).statelessSubjects hd
  | changeStates id states =>
    exact ((keeps_changeStates d id states).map Node.sheet).statelessSubjects hd
  | rematch id => exact ((keeps_rematch d id).map Node.sheet).statelessSubjects hd
  | applyRules id rules => exact ha.elim
  | restyle id => exact ((keeps_restyle d id).map Node.sheet).statelessSubjects hd
  | restyleDirty => exact ((keeps_restyleDirty d).map Node.sheet).statelessSubjects hd

end Document
end StyleCascade
