import StyleCascade.Proofs.Deliveries
import StyleCascade.Proofs.SelectorMeaning
import StyleCascade.Proofs.SheetOwners

/-!
# What a report of states touches

A report changes the states of the node it is about, and the listeners on that node send
updates to their leaves, group by group (`Document.CallsFor`).  An update is handed to the view
of its leaf or put down as the one that waits for a view; nothing else in the document changes
(`Document.exists_callsFor_changeStates`).  The groups come in the order of their first members
(`Document.inOrderOfFirst_groupsOf`), and each sends the styles of its satisfied members, or one
update back to normal (`Document.groupUpdates_eq`).
-/
namespace StyleCascade

/-! ## The order of first members -/

/-- What is left of a list keeps its order. -/
theorem idxOf_lt_of_filter {α : Type} [DecidableEq α] {p : α → Bool} {a b : α} {l : List α}
    (ha : p a = true) (hb : p b = true) (h : (l.filter p).idxOf a < (l.filter p).idxOf b) :
    l.idxOf a < l.idxOf b := by
  induction l with
  | nil => exact h
  | cons x rest ih =>
    cases hx : p x with
    | false =>
      have hxa : x ≠ a := fun heq => by simp [heq, ha] at hx
      have hxb : x ≠ b := fun heq => by simp [heq, hb] at hx
      rw [List.filter_cons_of_neg (by simp [hx])] at h
      rw [List.idxOf_cons_ne _ hxa, List.idxOf_cons_ne _ hxb]
      exact Nat.succ_lt_succ (ih h)
    | true =>
      rw [List.filter_cons_of_pos hx] at h
      by_cases hxb : x = b
      · rw [hxb, List.idxOf_cons_self] at h
        exact absurd h (Nat.not_lt_zero _)
      · by_cases hxa : x = a
        · rw [hxa, List.idxOf_cons_self, List.idxOf_cons_ne _ (hxa ▸ hxb)]
          exact Nat.succ_pos _
        · rw [List.idxOf_cons_ne _ hxa, List.idxOf_cons_ne _ hxb] at h ⊢
          exact Nat.succ_lt_succ (ih (Nat.lt_of_succ_lt_succ h))

/-- Without its repetitions, a list is in the order of first occurrences. -/
theorem pairwise_idxOf_eraseDups {α : Type} [DecidableEq α] (l : List α) :
    l.eraseDups.Pairwise fun a b => l.idxOf a < l.idxOf b := by
  -- By induction on the length: behind the head stand the entries of a shorter list.
  induction hn : l.length using Nat.strong_induction_on generalizing l with
  | _ n ih =>
    cases l with
    | nil => exact List.Pairwise.nil
    | cons x rest =>
      have hshort : (rest.filter fun b => !b == x).length < n := by
        have hle := List.length_filter_le (fun b => !b == x) rest
        rw [List.length_cons] at hn
        omega
      have hne : ∀ b ∈ (rest.filter fun b => !b == x).eraseDups, x ≠ b := by
        intro b hb heq
        have hmem := (List.mem_filter.mp (List.mem_eraseDups.mp hb)).2
        simp [heq] at hmem
      rw [List.eraseDups_cons]
      refine List.Pairwise.cons (fun b hb => ?_) ?_
      · rw [List.idxOf_cons_self, List.idxOf_cons_ne _ (hne b hb)]
        exact Nat.succ_pos _
      · refine (ih _ hshort _ rfl).imp_of_mem fun {a b} ha hb hlt => ?_
        rw [List.idxOf_cons_ne _ (hne a ha), List.idxOf_cons_ne _ (hne b hb)]
        refine Nat.succ_lt_succ (idxOf_lt_of_filter ?_ ?_ hlt)
        · simpa using (hne a ha).symm
        · simpa using (hne b hb).symm

/-- The groups of some listeners, in the order of their first members. -/
structure InOrderOfFirst (listeners : List Listener) (groups : List ListenerGroup) : Prop where
  mem_iff : ∀ group, group ∈ groups ↔ ∃ l ∈ listeners, l.group = group
  ordered : groups.Pairwise fun a b =>
    (listeners.map Listener.group).idxOf a < (listeners.map Listener.group).idxOf b

/-! ## What is sent, and what becomes of it -/

/-- What a group sends: the styles of the members that are on, in order, or one update back to
normal if none is. -/
def ListenerGroup.answer (on : Listener → Bool) (style : Listener → ViewUpdate)
    (members : List Listener) : List ViewUpdate :=
  if members.any on then (members.filter on).map style else [.restore]

/-- The node with the states of a report merged over those reported before. -/
def Node.withStates (states : StateMap) (n : Node) : Node :=
  { n with reported := Keyed.upsertAll Prod.fst n.reported states }

namespace Document

variable {d : Document} {holder : NodeId} {states : StateMap}

/-! ## What the listeners call for -/

theorem inOrderOfFirst_groupsOf (d : Document) (holder : NodeId) :
    InOrderOfFirst (d.listenersOf holder) (d.groupsOf holder) where
  mem_iff _ := mem_groupsOf_iff
  ordered := pairwise_idxOf_eraseDups _

/-- What a group calls for is its answer, sent to its leaf. -/
theorem groupUpdates_eq (d : Document) (holder : NodeId) (group : ListenerGroup) :
    d.groupUpdates holder group =
      (ListenerGroup.answer d.satisfied d.pseudoUpdate
        ((d.listenersOf holder).filter (·.group = group))).map (group.leaf, ·) := by
  have hon : (d.listenersOf holder).filter (fun l => l.group = group && d.satisfied l) =
      ((d.listenersOf holder).filter (·.group = group)).filter d.satisfied := by
    rw [List.filter_filter]
    exact List.filter_congr fun l _ => Bool.and_comm _ _
  rw [groupUpdates, hon, ListenerGroup.answer]
  generalize (d.listenersOf holder).filter (·.group = group) = members
  split
  · rename_i hnone
    rw [List.filter_eq_nil_iff] at hnone
    rw [if_neg]
    · rfl
    · simpa using hnone
  · rename_i hsome
    rw [if_pos, List.map_map]
    · rfl
    · obtain ⟨l, hl⟩ := List.exists_mem_of_ne_nil _ hsome
      obtain ⟨hmem, hsatisfied⟩ := List.mem_filter.mp hl
      exact List.any_eq_true.mpr ⟨l, hmem, hsatisfied⟩

/-- What the listeners on a node call for when it reports states: they are evaluated with the
states merged, and each group, in the order of first members, sends its answer to its leaf.  The
style of a member that is on goes out under the key of its selector: the properties of its rule
that are not disabled, expanded with the sheets that apply to the leaf. -/
def CallsFor (d : Document) (holder : NodeId) (states : StateMap)
    (sent : List (NodeId × ViewUpdate)) : Prop :=
  ∃ (groups : List ListenerGroup) (on : Listener → Bool),
    InOrderOfFirst (d.listenersOf holder) groups ∧
      (∀ l, on l = true ↔
        (d.recordStates holder states).Meets (d.recordStates holder states).HasNameAndState
          l.selector l.leaf) ∧
      sent = groups.flatMap fun group =>
        (ListenerGroup.answer on
          (fun l => .apply l.pseudoKey ((Declaration.ofList
            (l.rule.declaration.properties.filter (!·.disabled))).expand (d.sheetStack l.leaf)))
          ((d.listenersOf holder).filter (·.group = group))).map (group.leaf, ·)

theorem pseudoUpdate_recordStates (d : Document) (holder : NodeId) (states : StateMap) :
    (d.recordStates holder states).pseudoUpdate = d.pseudoUpdate := by
  funext l
  have hstack := (((keeps_recordStates d holder states).map fun n =>
    (n.parent, n.face)).sameSurroundings l.leaf).sheetStack
  rw [pseudoUpdate, pseudoUpdate, hstack]

theorem callsFor_updatesFrom (hd : d.IsForest) (holder : NodeId) (states : StateMap) :
    d.CallsFor holder states ((d.recordStates holder states).updatesFrom holder) := by
  have hforest : (d.recordStates holder states).IsForest :=
    ((keeps_recordStates d holder states).map Node.links).isForest hd
  refine ⟨d.groupsOf holder, (d.recordStates holder states).satisfied,
    inOrderOfFirst_groupsOf d holder, fun l => hforest.matchesLive_iff l.selector l.leaf, ?_⟩
  have hgroups : (d.recordStates holder states).groupsOf holder = d.groupsOf holder := by
    rw [groupsOf, groupsOf, listenersOf_recordStates]
  rw [updatesFrom, hgroups]
  refine List.flatMap_congr fun group _ => ?_
  rw [groupUpdates_eq, listenersOf_recordStates, pseudoUpdate_recordStates]
  rfl

/-- Only leaves of the node's listeners are sent something. -/
theorem CallsFor.updatesFor_eq_nil {sent : List (NodeId × ViewUpdate)}
    (h : d.CallsFor holder states sent) {n : NodeId}
    (hn : ∀ l ∈ d.listenersOf holder, l.leaf ≠ n) : updatesFor n sent = [] := by
  obtain ⟨groups, on, hgroups, -, rfl⟩ := h
  refine List.eq_nil_iff_forall_not_mem.mpr fun u hu => ?_
  obtain ⟨group, hgroup, hu⟩ := List.mem_flatMap.mp (mem_updatesFor_iff.mp hu)
  obtain ⟨l, hl, rfl⟩ := (hgroups.mem_iff group).mp hgroup
  obtain ⟨v, -, heq⟩ := List.mem_map.mp hu
  exact hn l hl (Prod.mk.inj heq).1

/-! ## What becomes of a report -/

theorem hasView_recordStates (d : Document) (holder : NodeId) (states : StateMap) :
    (d.recordStates holder states).hasView = d.hasView := by
  have hkeeps : Keeps Node.component d (d.recordStates holder states) :=
    keeps_modify d holder fun _ => rfl
  exact funext hkeeps.hasView

theorem node?_recordStates (d : Document) (holder : NodeId) (states : StateMap) (n : NodeId) :
    (d.recordStates holder states).node? n =
      (d.node? n).map fun node => if n = holder then node.withStates states else node := by
  rw [recordStates, node?_modify]
  by_cases hn : holder = n
  · subst hn
    simp only [if_true]
    rfl
  · simp [hn, Ne.symm hn]

theorem owners_changeStates (d : Document) (holder : NodeId) (states : StateMap) :
    (d.changeStates holder states).1.owners = d.owners :=
  owners_deliverAll _ _

/-- What becomes of a document in which `holder` reports `states` while its listeners call for
`sent`: `e` is the document afterwards, and `deliveries` is what views have received. -/
structure Reported (d : Document) (holder : NodeId) (states : StateMap)
    (sent : List (NodeId × ViewUpdate)) (e : Document) (deliveries : List Delivery) : Prop where
  /-- A state in the report takes its new value, all others keep theirs. -/
  merged : ∀ node, d.node? holder = some node → ∃ after, e.node? holder = some after ∧
    ∀ state, Keyed.lookup Prod.fst state after.reported =
      (Keyed.lastUnder Prod.fst state states).or (Keyed.lookup Prod.fst state node.reported)
  /-- The views that are realized receive what is sent to their nodes, in order. -/
  delivered : deliveries = (sent.filter (d.hasView ·.1)).map fun u => ⟨u.1, u.2⟩
  /-- No node changes but in the update that waits on it, and in its reported states if it is
  the one that reports. -/
  nodes : ∀ n, e.node? n = (d.node? n).map fun node =>
    (if n = holder then node.withStates states else node).told (updatesFor n sent)
  /-- Where no listener has its leaf, no update comes to wait and none is received. -/
  others : ∀ n, (∀ l ∈ d.listenersOf holder, l.leaf ≠ n) →
    (e.node? n = (d.node? n).map fun node =>
      if n = holder then node.withStates states else node) ∧ received n deliveries = []
  /-- The document has as many slots as before, and the same sheets, owners and environment. -/
  size : e.slots.size = d.slots.size
  rest : { e with slots := d.slots } = d

/-- **A report touches the leaves that listen, and no more.**  The listeners on the node are
evaluated with the states merged, and each group sends the styles of its satisfied members or one
update back to normal (`CallsFor`); beyond the states that are merged and the updates that are
sent, nothing changes (`Reported`). -/
theorem exists_callsFor_changeStates (hd : d.Reachable) (holder : NodeId) (states : StateMap) :
    ∃ sent, d.CallsFor holder states sent ∧
      d.Reported holder states sent (d.changeStates holder states).1
        (d.changeStates holder states).2 := by
  have hsent := callsFor_updatesFrom hd.isForest holder states
  have hdelivered := deliveries_deliverAll (d.recordStates holder states)
    ((d.recordStates holder states).updatesFrom holder)
  rw [hasView_recordStates] at hdelivered
  have hnodes := node?_deliverAll (d.recordStates holder states)
    ((d.recordStates holder states).updatesFrom holder)
  simp only [node?_recordStates, Option.map_map] at hnodes
  have hkeeps := keeps_changeStates d holder states
  refine ⟨_, hsent, ?_, hdelivered, hnodes, fun n hn => ⟨?_, ?_⟩, hkeeps.size, ?_⟩
  · intro node hnode
    refine ⟨_, (hnodes holder).trans (congrArg (Option.map _) hnode), fun state => ?_⟩
    simp only [Function.comp_apply, if_true, Node.reported_told]
    exact Keyed.lookup_upsertAll Prod.fst state node.reported states
  · refine (hnodes n).trans ?_
    rw [hsent.updatesFor_eq_nil hn]
    rfl
  · rw [received_changeStates, hsent.updatesFor_eq_nil hn]
    exact ite_self _
  · show (⟨d.slots, _, _, _⟩ : Document) = d
    rw [hkeeps.sheets, owners_changeStates, hkeeps.media]

/-- The button has two groups for its label: that of active buttons is asked first and puts the
label back, then that of hovered buttons lays its style over it. -/
theorem exists_callsFor_changeStates_captionSample :
    captionSample.Reachable ∧
      captionSample.groupsOf ⟨2⟩ = [⟨⟨3⟩, "label"⟩, ⟨⟨3⟩, ".caption"⟩] ∧
      (captionSample.changeStates ⟨2⟩ hoveredNotActive).2.map (·.node) = [⟨3⟩, ⟨3⟩] ∧
      ∃ sent, captionSample.CallsFor ⟨2⟩ hoveredNotActive sent ∧
        captionSample.Reported ⟨2⟩ hoveredNotActive sent
          (captionSample.changeStates ⟨2⟩ hoveredNotActive).1
          (captionSample.changeStates ⟨2⟩ hoveredNotActive).2 :=
  ⟨reachable_performAll {} _, by decide +kernel, by decide +kernel,
    exists_callsFor_changeStates (reachable_performAll {} _) ⟨2⟩ hoveredNotActive⟩

end Document
end StyleCascade
