import StyleCascade.Proofs.Registries

/-!
# What a report hands over

A report of states is recorded first; then every group of listeners on the node that
reports hands updates to its leaf.  A leaf with a realized view receives all updates for it,
in order (`Document.deliveries_deliverAll`); for any other the last one waits
(`Document.node?_deliverAll`).  Handing over changes nothing that matching reads
(`Document.matchesLive_changeStates`), so what a group was decided by still holds
afterwards: a leaf that is put back to its normal style is the leaf of a group of which no
listener matches (`Document.exists_group_of_putsBack`).  Other groups of the leaf are not
asked, neither on the same node nor on others.
-/
namespace StyleCascade

namespace Node

/-- The node without the update that waits for its view. -/
def apartFromPending (n : Node) : Node :=
  { n with pending := none }

/-- The node after some updates for it: none waits if a realized view has received them, and
otherwise the last one does. -/
def told (updates : List ViewUpdate) (n : Node) : Node :=
  match updates.getLast? with
  | none => n
  | some update => { n with pending := if n.component.any (·.realized) then none else some update }

@[simp] theorem told_nil : told [] = id := rfl

@[simp] theorem reported_told (updates : List ViewUpdate) (n : Node) :
    (n.told updates).reported = n.reported := by
  rw [told]
  split <;> rfl

theorem told_append (first second : List ViewUpdate) (n : Node) :
    n.told (first ++ second) = (n.told first).told second := by
  rw [told, told, told, List.getLast?_append]
  cases second.getLast? with
  | none => rfl
  | some u => cases first.getLast? <;> rfl

end Node

namespace Document

variable {d e : Document} {id leaf holder : NodeId} {states : StateMap}

/-- Whether a realized view is bound to a node. -/
def hasView (d : Document) (id : NodeId) : Bool :=
  (d.node? id).any fun n => n.component.any (·.realized)

/-- The update that waits for the view of a node. -/
def waiting? (d : Document) (id : NodeId) : Option ViewUpdate :=
  (d.node? id).bind (·.pending)

/-- The updates for one node, in order. -/
def updatesFor (id : NodeId) (updates : List (NodeId × ViewUpdate)) : List ViewUpdate :=
  (updates.filter (·.1 = id)).map (·.2)

/-- What the view of a node receives, in order. -/
def received (id : NodeId) (deliveries : List Delivery) : List ViewUpdate :=
  (deliveries.filter (·.node = id)).map (·.update)

/-! ## Handing over updates -/

theorem mem_updatesFor_iff {updates : List (NodeId × ViewUpdate)} {u : ViewUpdate} :
    u ∈ updatesFor id updates ↔ (id, u) ∈ updates := by
  rw [updatesFor, List.mem_map]
  constructor
  · rintro ⟨⟨j, v⟩, hmem, rfl⟩
    obtain ⟨hmem, hj⟩ := List.mem_filter.mp hmem
    have hid : j = id := by simpa using hj
    exact hid ▸ hmem
  · intro hmem
    exact ⟨(id, u), List.mem_filter.mpr ⟨hmem, by simp⟩, rfl⟩

theorem keeps_apartFromPending_deliver (d : Document) (id : NodeId) (update : ViewUpdate) :
    Keeps Node.apartFromPending d (d.deliver id update).1 := by
  rw [deliver]
  split
  · exact Keeps.refl _ d
  · split <;> exact keeps_modify d id fun _ => rfl

theorem keeps_apartFromPending_deliverAll (d : Document) (updates : List (NodeId × ViewUpdate)) :
    Keeps Node.apartFromPending d (d.deliverAll updates).1 := by
  induction updates generalizing d with
  | nil => exact Keeps.refl _ d
  | cons update rest ih =>
    exact (keeps_apartFromPending_deliver d update.1 update.2).trans (ih _)

theorem Keeps.hasView (h : Keeps Node.component d e) (id : NodeId) :
    e.hasView id = d.hasView id :=
  (h.map fun c => c.any Component.realized).any id

theorem updatesFor_append (first second : List (NodeId × ViewUpdate)) :
    updatesFor id (first ++ second) = updatesFor id first ++ updatesFor id second := by
  simp [updatesFor]

/-! ### What views receive -/

theorem deliveries_deliver (d : Document) (j : NodeId) (u : ViewUpdate) :
    (d.deliver j u).2 = if d.hasView j then [⟨j, u⟩] else [] := by
  rw [deliver, hasView]
  cases d.node? j with
  | none => rfl
  | some n => cases hview : n.component.any (·.realized) <;> simp [hview]

/-- The views that are realized receive the updates for their nodes, in order. -/
theorem deliveries_deliverAll (d : Document) (updates : List (NodeId × ViewUpdate)) :
    (d.deliverAll updates).2 =
      (updates.filter (d.hasView ·.1)).map fun u => ⟨u.1, u.2⟩ := by
  induction updates generalizing d with
  | nil => rfl
  | cons update rest ih =>
    obtain ⟨j, u⟩ := update
    have hrest : (d.deliver j u).1.hasView = d.hasView :=
      funext ((keeps_apartFromPending_deliver d j u).map Node.component).hasView
    have happend : (d.deliverAll ((j, u) :: rest)).2 =
        (d.deliver j u).2 ++ ((d.deliver j u).1.deliverAll rest).2 := rfl
    rw [happend, ih, deliveries_deliver, hrest]
    cases hview : d.hasView j <;> simp [hview]

theorem received_deliver (d : Document) (j : NodeId) (u : ViewUpdate) :
    received id (d.deliver j u).2 = if j = id ∧ d.hasView id then [u] else [] := by
  rw [deliveries_deliver]
  by_cases hid : j = id
  · subst hid
    cases hview : d.hasView j <;> simp [received]
  · cases hview : d.hasView j <;> simp [received, hid]

/-- **A view receives the updates for its node**, in order. -/
theorem received_deliverAll (d : Document) (updates : List (NodeId × ViewUpdate)) :
    received id (d.deliverAll updates).2 =
      if d.hasView id then updatesFor id updates else [] := by
  rw [deliveries_deliverAll, received, updatesFor, List.filter_map, List.map_map,
    List.filter_filter]
  cases hview : d.hasView id with
  | true =>
    refine congrArg (List.map _) (List.filter_congr fun u _ => ?_)
    by_cases hid : u.1 = id <;> simp [hid, hview]
  | false =>
    refine List.map_eq_nil_iff.mpr (List.filter_eq_nil_iff.mpr fun u _ => ?_)
    by_cases hid : u.1 = id <;> simp [hid, hview]

/-! ### What waits -/

theorem node?_deliver (d : Document) (j : NodeId) (u : ViewUpdate) (id : NodeId) :
    (d.deliver j u).1.node? id = (d.node? id).map (Node.told (updatesFor id [(j, u)])) := by
  by_cases hid : j = id
  · subst hid
    have hfor : updatesFor j [(j, u)] = [u] := by simp [updatesFor]
    rw [deliver, hfor]
    cases hnode : d.node? j with
    | none => simp [hnode]
    | some node =>
      cases hview : node.component.any (·.realized) <;>
        simp [hview, node?_modify, hnode, Node.told]
  · have hfor : updatesFor id [(j, u)] = [] := by simp [updatesFor, hid]
    rw [deliver, hfor]
    split
    · simp
    · split <;> simp [node?_modify, hid]

/-- A node has been told all updates for it. -/
theorem node?_deliverAll (d : Document) (updates : List (NodeId × ViewUpdate)) (id : NodeId) :
    (d.deliverAll updates).1.node? id =
      (d.node? id).map (Node.told (updatesFor id updates)) := by
  induction updates generalizing d with
  | nil => simp [deliverAll, updatesFor]
  | cons update rest ih =>
    have hrest : (d.deliverAll (update :: rest)).1.node? id =
        ((d.deliver update.1 update.2).1.deliverAll rest).1.node? id := rfl
    have hfor : updatesFor id (update :: rest) =
        updatesFor id [(update.1, update.2)] ++ updatesFor id rest :=
      updatesFor_append [update] rest
    rw [hrest, ih, node?_deliver, hfor, Option.map_map]
    exact congrArg (Option.map · (d.node? id))
      (funext fun node => (node.told_append _ _).symm)

/-- Of the updates for a node without a view, the last one waits; on others none does. -/
theorem waiting?_deliverAll (d : Document) (updates : List (NodeId × ViewUpdate)) :
    (d.deliverAll updates).1.waiting? id =
      match (updatesFor id updates).getLast? with
      | none => d.waiting? id
      | some u => if d.contains id && !d.hasView id then some u else none := by
  rw [waiting?, node?_deliverAll, waiting?, contains, hasView]
  cases d.node? id with
  | none => cases (updatesFor id updates).getLast? <;> rfl
  | some n =>
    cases hlast : (updatesFor id updates).getLast? with
    | none => simp [Node.told, hlast]
    | some u => cases hview : n.component.any (·.realized) <;> simp [Node.told, hlast, hview]

theorem waiting?_deliver (d : Document) (j : NodeId) (u : ViewUpdate) :
    (d.deliver j u).1.waiting? id =
      if j = id then (if d.contains id && !d.hasView id then some u else none)
      else d.waiting? id := by
  have hone : (d.deliver j u).1 = (d.deliverAll [(j, u)]).1 := rfl
  rw [hone, waiting?_deliverAll]
  by_cases hid : j = id <;> simp [updatesFor, hid]

/-- An update that waits when all have been handed over is one of them, or it waited before and
none of them was for the node. -/
theorem mem_of_waiting?_deliverAll {updates : List (NodeId × ViewUpdate)} {u : ViewUpdate}
    (h : (d.deliverAll updates).1.waiting? id = some u) :
    (id, u) ∈ updates ∨ ((∀ v, (id, v) ∉ updates) ∧ d.waiting? id = some u) := by
  rw [waiting?_deliverAll] at h
  cases hlast : (updatesFor id updates).getLast? with
  | none =>
    rw [hlast] at h
    refine Or.inr ⟨fun v hv => ?_, h⟩
    have hmem := mem_updatesFor_iff.mpr hv
    rw [List.getLast?_eq_none_iff.mp hlast] at hmem
    cases hmem
  | some v =>
    simp only [hlast] at h
    split at h
    · obtain rfl := Option.some.inj h
      exact Or.inl (mem_updatesFor_iff.mp (List.mem_of_getLast? hlast))
    · cases h

/-! ## What groups call for -/

theorem mem_groupsOf_iff {group : ListenerGroup} :
    group ∈ d.groupsOf holder ↔ ∃ l ∈ d.listenersOf holder, l.group = group := by
  rw [groupsOf, List.mem_eraseDups, List.mem_map]

/-- A group calls for its leaf's normal style exactly if none of its members is satisfied. -/
theorem restore_mem_groupUpdates_iff {group : ListenerGroup} :
    (leaf, .restore) ∈ d.groupUpdates holder group ↔
      group.leaf = leaf ∧ ∀ l ∈ d.listenersOf holder, l.group = group → d.satisfied l = false := by
  rw [groupUpdates]
  split
  · rename_i hnone
    rw [List.filter_eq_nil_iff] at hnone
    simp only [List.mem_singleton, Prod.mk.injEq, and_true]
    refine ⟨fun hleaf => ⟨hleaf.symm, fun l hl hgroup => ?_⟩, fun h => h.1.symm⟩
    simpa [hgroup] using hnone l hl
  · rename_i listeners hsome
    constructor
    · intro hmem
      obtain ⟨l, -, heq⟩ := List.mem_map.mp hmem
      cases (Prod.mk.inj heq).2
    · rintro ⟨-, hall⟩
      refine absurd (List.filter_eq_nil_iff.mpr fun l hl hmem => ?_) hsome
      simp only [Bool.and_eq_true, decide_eq_true_eq] at hmem
      rw [hall l hl hmem.1] at hmem
      cases hmem.2

/-- A style that a group lays over is that of a satisfied member. -/
theorem exists_of_apply_mem_groupUpdates {group : ListenerGroup} {key : String}
    {style : Declaration} (h : (leaf, .apply key style) ∈ d.groupUpdates holder group) :
    group.leaf = leaf ∧ ∃ l ∈ d.listenersOf holder,
      l.group = group ∧ d.satisfied l = true ∧ l.pseudoKey = key := by
  rw [groupUpdates] at h
  split at h
  · rw [List.mem_singleton] at h
    cases (Prod.mk.inj h).2
  · obtain ⟨l, hl, heq⟩ := List.mem_map.mp h
    obtain ⟨hleaf, hupdate⟩ := Prod.mk.inj heq
    obtain ⟨hl, hmem⟩ := List.mem_filter.mp hl
    simp only [Bool.and_eq_true, decide_eq_true_eq] at hmem
    exact ⟨hleaf, l, hl, hmem.1, hmem.2, (ViewUpdate.apply.inj hupdate).1⟩

/-- Every group hands something to its leaf. -/
theorem exists_mem_updatesFrom {l : Listener} (hl : l ∈ d.listenersOf holder) :
    ∃ u, (l.leaf, u) ∈ d.updatesFrom holder := by
  have hgroup : l.group ∈ d.groupsOf holder := mem_groupsOf_iff.mpr ⟨l, hl, rfl⟩
  obtain ⟨u, hu⟩ : ∃ u, (l.leaf, u) ∈ d.groupUpdates holder l.group := by
    rw [groupUpdates]
    split
    · exact ⟨.restore, List.mem_singleton.mpr rfl⟩
    · rename_i listeners hsome
      obtain ⟨m, hm⟩ := List.exists_mem_of_ne_nil _ hsome
      exact ⟨d.pseudoUpdate m, List.mem_map.mpr ⟨m, hm, rfl⟩⟩
  exact ⟨u, List.mem_flatMap.mpr ⟨l.group, hgroup, hu⟩⟩

theorem restore_mem_updatesFrom_iff :
    (leaf, .restore) ∈ d.updatesFrom holder ↔
      ∃ l ∈ d.listenersOf holder, l.leaf = leaf ∧
        ∀ m ∈ d.listenersOf holder, m.group = l.group → d.satisfied m = false := by
  rw [updatesFrom, List.mem_flatMap]
  constructor
  · rintro ⟨group, hgroup, hrestore⟩
    obtain ⟨l, hl, rfl⟩ := mem_groupsOf_iff.mp hgroup
    exact ⟨l, hl, restore_mem_groupUpdates_iff.mp hrestore⟩
  · rintro ⟨l, hl, hnone⟩
    exact ⟨l.group, mem_groupsOf_iff.mpr ⟨l, hl, rfl⟩, restore_mem_groupUpdates_iff.mpr hnone⟩

theorem exists_of_apply_mem_updatesFrom {key : String} {style : Declaration}
    (h : (leaf, .apply key style) ∈ d.updatesFrom holder) :
    ∃ l ∈ d.listenersFor holder leaf,
      l.pseudoKey = key ∧ d.matchesLive l.selector leaf = true := by
  obtain ⟨group, -, happly⟩ := List.mem_flatMap.mp h
  obtain ⟨hleaf, l, hl, rfl, hsatisfied, hkey⟩ := exists_of_apply_mem_groupUpdates happly
  have hlleaf : l.leaf = leaf := hleaf
  exact ⟨l, List.mem_filter.mpr ⟨hl, by simpa using hlleaf⟩, hkey, hlleaf ▸ hsatisfied⟩

/-- A group of a leaf that is not put back has a member that matches. -/
theorem exists_matchesLive_of_restore_notMem (h : (leaf, .restore) ∉ d.updatesFrom holder)
    {l : Listener} (hl : l ∈ d.listenersFor holder leaf) :
    ∃ m ∈ d.listenersFor holder leaf,
      m.group = l.group ∧ d.matchesLive m.selector leaf = true := by
  obtain ⟨hmem, hleaf⟩ := List.mem_filter.mp hl
  have hleaf : l.leaf = leaf := by simpa using hleaf
  have hon : ¬∀ m ∈ d.listenersOf holder, m.group = l.group → d.satisfied m = false :=
    fun hoff => h (restore_mem_updatesFrom_iff.mpr ⟨l, hmem, hleaf, hoff⟩)
  simp only [not_forall, Bool.not_eq_false] at hon
  obtain ⟨m, hm, hgroup, hmatch⟩ := hon
  have hmleaf : m.leaf = leaf := (congrArg ListenerGroup.leaf hgroup).trans hleaf
  exact ⟨m, List.mem_filter.mpr ⟨hm, by simpa using hmleaf⟩, hgroup, hmleaf ▸ hmatch⟩

/-! ## After a report -/

theorem matchesLive_congr (hancestors : e.ancestors id = d.ancestors id)
    (hfits : ∀ a part, e.fits a part = d.fits a part) (s : Selector) :
    e.matchesLive s id = d.matchesLive s id := by
  rw [matchesLive, matchesLive, hancestors, hfits]
  exact congrArg (_ && ·) (SelectorLink.allFit_congr fun a _ link _ => hfits a link.part)

theorem Keeps.matchesLive (h : Keeps Node.apartFromPending d e) (s : Selector) (id : NodeId) :
    e.matchesLive s id = d.matchesLive s id :=
  matchesLive_congr ((h.map Node.parent).ancestors id)
    (fun a part => (h.map (·.fits part)).any a) s

theorem keeps_apartFromPending_changeStates (d : Document) (holder : NodeId) (states : StateMap) :
    Keeps Node.apartFromPending (d.recordStates holder states) (d.changeStates holder states).1 :=
  keeps_apartFromPending_deliverAll _ _

/-- **What a group was decided by still holds** when its updates have been handed over. -/
theorem matchesLive_changeStates (d : Document) (holder : NodeId) (states : StateMap)
    (s : Selector) (id : NodeId) :
    (d.changeStates holder states).1.matchesLive s id =
      (d.recordStates holder states).matchesLive s id :=
  (keeps_apartFromPending_changeStates d holder states).matchesLive s id

theorem listenersOf_recordStates (d : Document) (holder : NodeId) (states : StateMap)
    (j : NodeId) : (d.recordStates holder states).listenersOf j = d.listenersOf j :=
  ((keeps_recordStates d holder states).map Node.listeners).listenersOf j

theorem listenersOf_changeStates (d : Document) (holder : NodeId) (states : StateMap)
    (j : NodeId) : (d.changeStates holder states).1.listenersOf j = d.listenersOf j :=
  ((keeps_changeStates d holder states).map Node.listeners).listenersOf j

/-- What the view of a leaf receives in a report. -/
theorem received_changeStates (d : Document) (holder : NodeId) (states : StateMap) :
    received leaf (d.changeStates holder states).2 =
      if (d.recordStates holder states).hasView leaf then
        updatesFor leaf ((d.recordStates holder states).updatesFrom holder) else [] :=
  received_deliverAll _ _

/-- A report puts a leaf back to its normal style: the view of the leaf is told so, or the
update waits for a view. -/
def PutsBack (d : Document) (holder : NodeId) (states : StateMap) (leaf : NodeId) : Prop :=
  .restore ∈ received leaf (d.changeStates holder states).2 ∨
    (∃ l ∈ d.listenersOf holder, l.leaf = leaf) ∧
      (d.changeStates holder states).1.waiting? leaf = some .restore

/-- A report that puts a leaf back has handed the update over. -/
theorem PutsBack.mem_updatesFrom (h : d.PutsBack holder states leaf) :
    (leaf, .restore) ∈ (d.recordStates holder states).updatesFrom holder := by
  rcases h with hreceived | ⟨⟨l, hl, rfl⟩, hwaiting⟩
  · rw [received_changeStates] at hreceived
    split at hreceived
    · exact mem_updatesFor_iff.mp hreceived
    · cases hreceived
  · rcases mem_of_waiting?_deliverAll hwaiting with hmem | ⟨hnone, -⟩
    · exact hmem
    · -- The holder has a group for the leaf, which hands it something.
      rw [← listenersOf_recordStates d holder states] at hl
      obtain ⟨u, hu⟩ := exists_mem_updatesFrom hl
      exact absurd hu (hnone u)

/-- A leaf with a view is put back by any group of which no listener is satisfied. -/
theorem putsBack_of_group (hview : (d.recordStates holder states).hasView leaf = true)
    (hgroup : ∃ l ∈ (d.recordStates holder states).listenersOf holder, l.leaf = leaf ∧
      ∀ m ∈ (d.recordStates holder states).listenersOf holder, m.group = l.group →
        (d.recordStates holder states).satisfied m = false) :
    d.PutsBack holder states leaf := by
  refine Or.inl ?_
  rw [received_changeStates, if_pos hview]
  exact mem_updatesFor_iff.mpr (restore_mem_updatesFrom_iff.mpr hgroup)

/-- **A leaf is put back by a group that is off.**  If a report puts a leaf back to its normal
style, then the node that reports holds listeners for the leaf with one and the same subject of
which none matches afterwards. -/
theorem exists_group_of_putsBack (h : d.PutsBack holder states leaf) :
    ∃ l ∈ (d.changeStates holder states).1.listenersOf holder, l.leaf = leaf ∧
      ∀ m ∈ (d.changeStates holder states).1.listenersOf holder, m.group = l.group →
        (d.changeStates holder states).1.matchesLive m.selector leaf = false := by
  obtain ⟨l, hl, hleaf, hnone⟩ := restore_mem_updatesFrom_iff.mp h.mem_updatesFrom
  rw [listenersOf_changeStates, ← listenersOf_recordStates d holder states]
  refine ⟨l, hl, hleaf, fun m hm hgroup => ?_⟩
  have hmleaf : m.leaf = leaf := (congrArg ListenerGroup.leaf hgroup).trans hleaf
  rw [matchesLive_changeStates, ← hmleaf]
  exact hnone m hm hgroup

/-- The selector `panel:active label`. -/
def activePanelLabel : Selector where
  subject := ⟨.element, "label", none⟩
  links := [⟨.descendant, ⟨.element, "panel", some "active"⟩⟩]

/-- The selector `button:hover .caption`. -/
def hoverButtonCaption : Selector where
  subject := ⟨.className, "caption", none⟩
  links := [⟨.descendant, ⟨.element, "button", some "hover"⟩⟩]

/-- A label with a view and the class `caption`, in a button in an active panel, under rules for
both names of the label. -/
def captionSample : Document :=
  Document.new.performAll [
    .addSheet (redSheet [activePanelLabel, activeButtonLabel, hoverButtonCaption]),
    .create "panel", .append .root ⟨1⟩, .create "button", .append ⟨1⟩ ⟨2⟩,
    .create "label", .append ⟨2⟩ ⟨3⟩, .setClasses ⟨3⟩ "caption", .bind ⟨3⟩ {}, .restyleDirty,
    .changeStates ⟨1⟩ [("active", true)]]

/-- The report of the button that is hovered but not active. -/
def hoveredNotActive : StateMap :=
  [("active", false), ("hover", true)]

theorem putsBack_captionSample : captionSample.PutsBack ⟨2⟩ hoveredNotActive ⟨3⟩ :=
  putsBack_of_group (by decide +kernel) (by decide +kernel)

/-- The group of active buttons is off and puts the label back. -/
theorem exists_group_of_putsBack_captionSample :
    captionSample.PutsBack ⟨2⟩ hoveredNotActive ⟨3⟩ ∧
      ∃ l ∈ (captionSample.changeStates ⟨2⟩ hoveredNotActive).1.listenersOf ⟨2⟩,
        l.leaf = ⟨3⟩ ∧
          ∀ m ∈ (captionSample.changeStates ⟨2⟩ hoveredNotActive).1.listenersOf ⟨2⟩,
            m.group = l.group →
              (captionSample.changeStates ⟨2⟩ hoveredNotActive).1.matchesLive m.selector ⟨3⟩ =
                false :=
  ⟨putsBack_captionSample, exists_group_of_putsBack putsBack_captionSample⟩

/-- The label is put back although the button's listener in the other group matches, and so does
the panel's listener with the same subject as the group that is off. -/
theorem matchesLive_of_putsBack_captionSample :
    captionSample.Reachable ∧ captionSample.PutsBack ⟨2⟩ hoveredNotActive ⟨3⟩ ∧
      (∃ l ∈ (captionSample.changeStates ⟨2⟩ hoveredNotActive).1.listenersOf ⟨2⟩,
        l.group = ⟨⟨3⟩, ".caption"⟩ ∧
          (captionSample.changeStates ⟨2⟩ hoveredNotActive).1.matchesLive l.selector ⟨3⟩ =
            true) ∧
      ∃ l ∈ (captionSample.changeStates ⟨2⟩ hoveredNotActive).1.listenersOf ⟨1⟩,
        l.group = ⟨⟨3⟩, "label"⟩ ∧
          (captionSample.changeStates ⟨2⟩ hoveredNotActive).1.matchesLive l.selector ⟨3⟩ =
            true :=
  ⟨reachable_performAll {} _, putsBack_captionSample, by decide +kernel, by decide +kernel⟩

end Document
end StyleCascade
