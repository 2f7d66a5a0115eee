import Mathlib.Data.List.Induction
import StyleCascade.Proofs.Overlays
import StyleCascade.Proofs.PendingUpdates

/-!
# Views that are bound late

A view can be bound to a leaf before some reports of other nodes or after them.  The two documents
differ in what the leaf shows and in what waits on it and other leaves (`Document.Twins`).  As long
as no subject of a listener for the leaf has a state, the reports call for the same updates in both
(`Document.Twins.updatesFor_updatesFrom`).  One leaf has a view that receives them all, on the
other the last one waits.  So the view that is bound late receives the last update of those that the
other one has received (`Document.late_eq_getLast?_early`), and has the same styles laid over it
only if there is one at most.
-/
namespace StyleCascade

/-- The style that lies over a view under a key, after some updates. -/
def styleOver (key : String) (updates : List ViewUpdate) : Option Declaration :=
  updates.foldl (fun style? update =>
    match update with
    | .apply k style => if k = key then some style else style?
    | .restore => none) none

theorem styleOver_concat_apply (key k : String) (style : Declaration) (updates : List ViewUpdate) :
    styleOver key (updates ++ [.apply k style]) =
      if k = key then some style else styleOver key updates := by
  simp [styleOver]

theorem styleOver_concat_restore (key : String) (updates : List ViewUpdate) :
    styleOver key (updates ++ [.restore]) = none := by
  simp [styleOver]

/-- The keys with a style over the view are those of the styles laid over it. -/
theorem isSome_styleOver_iff {key : String} {updates : List ViewUpdate} :
    (styleOver key updates).isSome = true ↔ key ∈ overlaid [] updates := by
  induction updates using List.reverseRecOn with
  | nil => simp [styleOver, overlaid]
  | append_singleton updates update ih =>
    cases update with
    | restore => simp [styleOver_concat_restore, overlaid]
    | apply k style =>
      have hkeys : overlaid [] (updates ++ [.apply k style]) = overlaid [] updates ++ [k] := by
        simp [overlaid]
      rw [styleOver_concat_apply, hkeys, List.mem_append, List.mem_singleton, ← ih]
      by_cases hk : k = key
      · simp [hk]
      · simp [hk, Ne.symm hk]

/-- A view that has received only the last of some updates. -/
theorem styleOver_getLast? (updates : List ViewUpdate) :
    (∀ key style, styleOver key updates.getLast?.toList = some style →
      styleOver key updates = some style) ∧
    ((∀ key, styleOver key updates.getLast?.toList = styleOver key updates) ↔
      ∀ key ∈ overlaid [] updates, ∀ other ∈ overlaid [] updates, key = other) := by
  simp only [← isSome_styleOver_iff]
  rcases List.eq_nil_or_concat updates with rfl | ⟨earlier, last, rfl⟩
  · simp [styleOver]
  · rw [List.concat_eq_append, List.getLast?_concat, Option.toList_some]
    cases last with
    | restore =>
      have hrestored : ∀ key, styleOver key [ViewUpdate.restore] = none := fun _ => rfl
      simp [hrestored, styleOver_concat_restore]
    | apply k style =>
      have hlast : ∀ key, styleOver key [.apply k style] = if k = key then some style else none :=
        fun _ => rfl
      simp only [hlast, styleOver_concat_apply]
      refine ⟨fun key s h => ?_, fun hsame key hkey other hother => ?_, fun hone key => ?_⟩
      · split at h
        · rename_i hk
          rwa [if_pos hk]
        · cases h
      · -- Both lie over the view that has received only the last one.
        rw [← hsame] at hkey hother
        split at hkey
        · split at hother
          · simp_all
          · cases hother
        · cases hkey
      · split
        · rfl
        · rename_i hk
          cases hearlier : styleOver key earlier with
          | none => rfl
          | some s => exact absurd (hone k (by simp) key (by simp [hk, hearlier])) hk

namespace Document

variable {d e f g : Document} {leaf holder : NodeId} {r : Report}

/-! ## Updates for one leaf -/

theorem updatesFor_flatMap {α : Type} (leaf : NodeId) (updates : α → List (NodeId × ViewUpdate))
    (l : List α) :
    updatesFor leaf (l.flatMap updates) = l.flatMap fun a => updatesFor leaf (updates a) := by
  simp [updatesFor, List.filter_flatMap, List.map_flatMap]

/-- A group calls for updates of its own leaf only. -/
theorem updatesFor_groupUpdates_of_ne {group : ListenerGroup} (h : group.leaf ≠ leaf) :
    updatesFor leaf (d.groupUpdates holder group) = [] := by
  refine List.eq_nil_iff_forall_not_mem.mpr fun update hupdate => h ?_
  cases update with
  | apply key style => exact (exists_of_apply_mem_groupUpdates (mem_updatesFor_iff.mp hupdate)).1
  | restore => exact (restore_mem_groupUpdates_iff.mp (mem_updatesFor_iff.mp hupdate)).1

theorem waiting?_deliverAll_of_viewless (hc : d.contains leaf = true)
    (hview : d.hasView leaf = false) (updates : List (NodeId × ViewUpdate)) :
    (d.deliverAll updates).1.waiting? leaf =
      (updatesFor leaf updates).getLast?.or (d.waiting? leaf) := by
  rw [waiting?_deliverAll, hc, hview]
  cases (updatesFor leaf updates).getLast? <;> rfl

/-! ## Twins -/

/-- `e` differs from `d` at most in what `leaf` shows, in what has been reported of it, and in the
updates that wait. -/
structure Twins (leaf : NodeId) (d e : Document) : Prop where
  keeps : Keeps Node.apartFromViews d e
  others : ∀ id, leaf ≠ id →
    (e.node? id).map Node.apartFromPending = (d.node? id).map Node.apartFromPending

theorem twins_bind (d : Document) (leaf : NodeId) (component : Component) :
    Twins leaf d (d.bind leaf component).1 where
  keeps := keeps_bind d leaf component
  others id hid := by
    rw [bind]
    split
    · rfl
    · split <;> rw [node?_modify, if_neg hid]

namespace Twins

variable (h : Twins leaf d e)
include h

/-- Updates that are handed over or wait make no difference. -/
theorem congr (hd : Keeps Node.apartFromPending d f) (he : Keeps Node.apartFromPending e g) :
    Twins leaf f g where
  keeps := ((hd.map Node.apartFromViews).symm.trans h.keeps).trans (he.map Node.apartFromViews)
  others id hid := (he.nodes id).trans ((h.others id hid).trans (hd.nodes id).symm)

theorem reportsAt : ReportsAt leaf d e where
  keeps := h.keeps
  fits := by
    intro id hid part
    have hnode := congrArg (·.any (·.fits part)) (h.others id hid)
    simp only [Option.any_map] at hnode
    exact hnode

/-- A report is taken down in both. -/
theorem noted (r : Report) : Twins leaf (d.noted r) (e.noted r) where
  keeps := ((reportsAt_noted d r).keeps.symm.trans h.keeps).trans (reportsAt_noted e r).keeps
  others id hid := by
    have hnoted : ∀ x : Document, ((x.noted r).node? id).map Node.apartFromPending =
        ((x.node? id).map Node.apartFromPending).map fun n =>
          if r.node = id then
            { n with
              component := n.component.map r.view
              reported := Keyed.upsertAll Prod.fst n.reported r.states }
          else n := by
      intro x
      rw [Document.noted, recordStates, changeView, node?_modify, node?_modify, Option.map_map]
      split
      · rw [Option.map_map, Option.map_map]
        rfl
      · rfl
    rw [hnoted, hnoted, h.others id hid]

theorem listenersOf (holder : NodeId) : e.listenersOf holder = d.listenersOf holder :=
  (h.keeps.map Node.listeners).listenersOf holder

theorem sheetStack (id : NodeId) : e.sheetStack id = d.sheetStack id :=
  ((h.keeps.map fun n => (n.parent, n.face)).sameSurroundings id).sheetStack

/-- A selector without a state on its subject matches the leaf in both or in neither. -/
theorem matchesLive (hd : d.IsForest) {s : Selector} (hs : s.subject.hasState = false) :
    e.matchesLive s leaf = d.matchesLive s leaf := by
  by_contra hdiffer
  have hsubject : e.fits leaf s.subject = d.fits leaf s.subject := by
    rw [fits_of_stateless _ _ hs, fits_of_stateless _ _ hs, h.reportsAt.fitsShape]
  have habove := (h.reportsAt.mem_ancestors_of_matchesLive_ne hsubject hdiffer).1
  exact hd.not_isAncestor_self leaf (hd.mem_ancestors_iff.mp habove)

/-- A group for the leaf calls for the same updates in both. -/
theorem groupUpdates (hd : d.IsForest) {group : ListenerGroup} (hgroup : group.leaf = leaf)
    (hstateless : ∀ l ∈ d.listenersFor holder leaf, l.selector.subject.hasState = false) :
    e.groupUpdates holder group = d.groupUpdates holder group := by
  have hmembers : (e.listenersOf holder).filter (fun l => l.group = group && e.satisfied l) =
      (d.listenersOf holder).filter fun l => l.group = group && d.satisfied l := by
    rw [h.listenersOf]
    refine List.filter_congr fun l hl => ?_
    by_cases hmember : l.group = group
    · have hleaf : l.leaf = leaf := (congrArg ListenerGroup.leaf hmember).trans hgroup
      have hfor : l ∈ d.listenersFor holder leaf := List.mem_filter.mpr ⟨hl, by simpa using hleaf⟩
      rw [satisfied, satisfied, hleaf, h.matchesLive hd (hstateless l hfor)]
    · simp [hmember]
  have hupdate : e.pseudoUpdate = d.pseudoUpdate := by
    funext l
    rw [pseudoUpdate, pseudoUpdate, h.sheetStack]
  rw [Document.groupUpdates, Document.groupUpdates, hmembers, hupdate]

/-- **Both documents call for the same updates** of the leaf. -/
theorem updatesFor_updatesFrom (hd : d.IsForest)
    (hstateless : ∀ l ∈ d.listenersFor holder leaf, l.selector.subject.hasState = false) :
    updatesFor leaf (e.updatesFrom holder) = updatesFor leaf (d.updatesFrom holder) := by
  have hgroups : e.groupsOf holder = d.groupsOf holder := by
    rw [groupsOf, groupsOf, h.listenersOf]
  rw [updatesFrom, updatesFrom, hgroups, updatesFor_flatMap, updatesFor_flatMap]
  refine List.flatMap_congr fun group _ => ?_
  by_cases hgroup : group.leaf = leaf
  · rw [h.groupUpdates hd hgroup hstateless]
  · rw [updatesFor_groupUpdates_of_ne hgroup, updatesFor_groupUpdates_of_ne hgroup]

end Twins

/-! ## Runs of reports -/

/-- The document after some reports. -/
def heardAll (d : Document) (reports : List Report) : Document :=
  reports.foldl (fun d r => (d.hear r).1) d

/-- What the view of `leaf` receives in some reports. -/
def receivedAll (leaf : NodeId) (d : Document) : List Report → List ViewUpdate
  | [] => []
  | r :: rest => received leaf (d.hear r).2 ++ receivedAll leaf (d.hear r).1 rest

theorem hasView_hear_of_ne (hr : r.node ≠ leaf) : (d.hear r).1.hasView leaf = d.hasView leaf := by
  have hdeliver : (d.hear r).1.hasView leaf = (d.noted r).hasView leaf :=
    ((keeps_apartFromPending_changeStates _ r.node r.states).map Node.component).hasView leaf
  rw [hdeliver, hasView, hasView, noted, recordStates, changeView, node?_modify, if_neg hr,
    node?_modify, if_neg hr]

/-- What waits on a leaf without a view after a report. -/
theorem waiting?_hear (hc : d.contains leaf = true) (hview : d.hasView leaf = false)
    (hr : r.node ≠ leaf) :
    (d.hear r).1.waiting? leaf =
      (updatesFor leaf ((d.noted r).updatesFrom r.node)).getLast?.or (d.waiting? leaf) := by
  have hsame : (d.noted r).node? leaf = d.node? leaf := by
    rw [noted, recordStates, changeView, node?_modify, if_neg hr, node?_modify, if_neg hr]
  have hnoted : (d.noted r).contains leaf = true ∧ (d.noted r).hasView leaf = false ∧
      (d.noted r).waiting? leaf = d.waiting? leaf := by
    rw [contains, hasView, waiting?, hsame]
    exact ⟨hc, hview, rfl⟩
  rw [← hnoted.2.2]
  exact waiting?_deliverAll_of_viewless hnoted.1 hnoted.2.1 _

/-- **A report** leaves the twins what they are; what the view of one receives last waits on the
other. -/
theorem Twins.hear (h : Twins leaf d e) (hd : d.IsForest) (hc : d.contains leaf = true)
    (hstateless : ∀ l ∈ d.listenersFor r.node leaf, l.selector.subject.hasState = false)
    (hlate : d.hasView leaf = false) (hearly : e.hasView leaf = true) (hr : r.node ≠ leaf) :
    Twins leaf (d.hear r).1 (e.hear r).1 ∧
      (d.hear r).1.waiting? leaf =
        (received leaf (e.hear r).2).getLast?.or (d.waiting? leaf) := by
  have hnoted := h.noted r
  refine ⟨hnoted.congr (keeps_apartFromPending_changeStates _ r.node r.states)
    (keeps_apartFromPending_changeStates _ r.node r.states), ?_⟩
  have hview : (e.noted r).hasView leaf = true :=
    hasView_noted hearly fun hnode => absurd hnode hr
  have hforest : (d.noted r).IsForest :=
    ((reportsAt_noted d r).keeps.map Node.links).isForest hd
  rw [received_hear hview, hnoted.updatesFor_updatesFrom hforest, waiting?_hear hc hlate hr]
  intro l hl
  rw [listenersFor_congr (listenersOf_noted d r r.node)] at hl
  exact hstateless l hl

/-- **What waits** on the leaf without a view, after some reports, is what the view of the other
one has received last. -/
theorem Twins.waiting?_heardAll {reports : List Report} (h : Twins leaf d e) (hd : d.IsForest)
    (hc : d.contains leaf = true)
    (hstateless : ∀ holder, ∀ l ∈ d.listenersFor holder leaf, l.selector.subject.hasState = false)
    (hlate : d.hasView leaf = false) (hearly : e.hasView leaf = true)
    (hreports : ∀ r ∈ reports, r.node ≠ leaf) :
    (d.heardAll reports).waiting? leaf =
      (receivedAll leaf e reports).getLast?.or (d.waiting? leaf) := by
  induction reports generalizing d e with
  | nil => rfl
  | cons r rest ih =>
    have hr := hreports r List.mem_cons_self
    obtain ⟨htwins, hwaiting⟩ := h.hear hd hc (hstateless r.node) hlate hearly hr
    have hkeeps := keeps_hear d r
    have hrest := ih htwins ((hkeeps.map Node.links).isForest hd)
      ((hkeeps.contains leaf).trans hc)
      (fun holder l hl => hstateless holder l (listenersFor_hear d r holder leaf ▸ hl))
      ((hasView_hear_of_ne hr).trans hlate) ((hasView_hear_of_ne hr).trans hearly)
      fun q hq => hreports q (List.mem_cons_of_mem _ hq)
    rw [receivedAll, List.getLast?_append, Option.or_assoc, ← hwaiting]
    exact hrest

/-! ## Late and early views -/

/-- What a view receives that is bound to `leaf` before some reports, up to the last of them. -/
def early (leaf : NodeId) (d : Document) (view : Component) (reports : List Report) :
    List ViewUpdate :=
  received leaf (d.bind leaf view).2 ++ receivedAll leaf (d.bind leaf view).1 reports

/-- What a view receives that is bound to `leaf` after some reports. -/
def late (leaf : NodeId) (d : Document) (view : Component) (reports : List Report) :
    List ViewUpdate :=
  received leaf ((d.heardAll reports).bind leaf view).2

theorem received_bind_self (d : Document) (leaf : NodeId) {view : Component}
    (hview : view.realized = true) :
    received leaf (d.bind leaf view).2 = (d.waiting? leaf).toList := by
  rw [deliveries_bind, if_pos hview]
  cases d.waiting? leaf <;> simp [received]

theorem hasView_bind (hc : d.contains leaf = true) {view : Component}
    (hview : view.realized = true) : (d.bind leaf view).1.hasView leaf = true := by
  obtain ⟨n, hn⟩ := Option.isSome_iff_exists.mp hc
  simp [bind, hn, hview, hasView, node?_modify]

/-- **A view that is bound late receives the last update.**  Let no subject of a listener for a
leaf without a view have a state, and other nodes report.  A view that is bound to the leaf after
the reports then receives the last one of the updates that a view receives that is bound before.
Every style over the late view lies over the early one too; and the same styles lie over both
exactly if there is no more than one over the early view. -/
theorem late_eq_getLast?_early (hd : d.Reachable) (hc : d.contains leaf = true)
    (hview : d.hasView leaf = false)
    (hstateless : ∀ holder, ∀ l ∈ d.listenersFor holder leaf, l.selector.subject.hasState = false)
    {reports : List Report} (hreports : ∀ r ∈ reports, r.node ≠ leaf) {before after : Component}
    (hbefore : before.realized = true) (hafter : after.realized = true) :
    d.late leaf after reports = (d.early leaf before reports).getLast?.toList ∧
      (∀ key style, styleOver key (d.late leaf after reports) = some style →
        styleOver key (d.early leaf before reports) = some style) ∧
      ((∀ key, styleOver key (d.late leaf after reports) =
          styleOver key (d.early leaf before reports)) ↔
        ∀ key ∈ overlaid [] (d.early leaf before reports),
          ∀ other ∈ overlaid [] (d.early leaf before reports), key = other) := by
  have hlast : d.late leaf after reports = (d.early leaf before reports).getLast?.toList := by
    rw [late, received_bind_self _ leaf hafter, early, received_bind_self _ leaf hbefore,
      (twins_bind d leaf before).waiting?_heardAll hd.isForest hc hstateless hview
        (hasView_bind hc hbefore) hreports, List.getLast?_append]
    cases d.waiting? leaf <;> rfl
  rw [hlast]
  exact ⟨rfl, styleOver_getLast? _⟩

/-- A label without a view, in a button, restyled under rules for active and for hovered
buttons. -/
def viewlessSample : Document :=
  Document.new.performAll [.addSheet (redSheet [activeButtonLabel, hoverButtonLabel]),
    .create "button", .append .root ⟨1⟩, .create "label", .append ⟨1⟩ ⟨2⟩, .restyleDirty]

/-- The button reports that it is active and hovered. -/
def pressedReports : List Report :=
  [⟨⟨1⟩, [("active", true), ("hover", true)], id⟩]

theorem hasState_subject_viewlessSample (holder : NodeId) :
    ∀ l ∈ viewlessSample.listenersFor holder ⟨2⟩, l.selector.subject.hasState = false := by
  have hhandles : ∀ holder ∈ viewlessSample.handles,
      ∀ l ∈ viewlessSample.listenersFor holder ⟨2⟩, l.selector.subject.hasState = false := by
    decide +kernel
  exact fun l hl => hhandles holder (mem_handles_of_mem_listenersFor hl) l hl

/-- The late view of the label receives the style for hovered buttons, which is the last one that
the early view receives. -/
theorem late_eq_getLast?_early_viewlessSample :
    overlaid [] (viewlessSample.late ⟨2⟩ {} pressedReports) = ["button:hover label"] ∧
      viewlessSample.late ⟨2⟩ {} pressedReports =
        (viewlessSample.early ⟨2⟩ {} pressedReports).getLast?.toList :=
  ⟨by decide +kernel,
    (late_eq_getLast?_early (reachable_performAll {} _) (by decide +kernel) (by decide +kernel)
      hasState_subject_viewlessSample (by decide +kernel) rfl rfl).1⟩

/-- The late view has lost the style for active buttons, which lies over the early one. -/
theorem notMem_overlaid_late_viewlessSample :
    viewlessSample.Reachable ∧ viewlessSample.contains ⟨2⟩ = true ∧
      viewlessSample.hasView ⟨2⟩ = false ∧
      (∀ holder, ∀ l ∈ viewlessSample.listenersFor holder ⟨2⟩,
        l.selector.subject.hasState = false) ∧
      (∀ r ∈ pressedReports, r.node ≠ ⟨2⟩) ∧
      "button:active label" ∈ overlaid [] (viewlessSample.early ⟨2⟩ {} pressedReports) ∧
      "button:active label" ∉ overlaid [] (viewlessSample.late ⟨2⟩ {} pressedReports) :=
  ⟨reachable_performAll {} _, by decide +kernel, by decide +kernel,
    hasState_subject_viewlessSample, by decide +kernel, by decide +kernel, by decide +kernel⟩

end Document
end StyleCascade
