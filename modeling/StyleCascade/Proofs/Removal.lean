import StyleCascade.Proofs.ListenerIndex
import StyleCascade.Proofs.TreeChanges

/-!
# Removing a subtree

Removal detaches a node, releases the listeners of its subtree and empties the slots.  No
link crosses the border of the subtree any more, so what is left is a forest
(`IsForest.remove`).  The index of listeners stays exact as one node after the other is
dropped (`ListenersIndexed.dropNode`), and the leaves that are left lose just the listeners
on removed holders (`listenersFor_dropAll`).
-/
namespace StyleCascade
namespace Document

variable {d e f : Document}

/-! ## Emptied slots -/

/-- `e` is `d` without some nodes; the others look the same through `view`. -/
structure Prunes {β : Type} (view : Node → β) (removed : List NodeId) (d e : Document) :
    Prop where
  size : e.slots.size = d.slots.size
  sheets : e.sheets = d.sheets
  media : e.media = d.media
  nodes : ∀ id, (e.node? id).map view = if id ∈ removed then none else (d.node? id).map view

namespace Prunes

variable {β γ : Type} {view : Node → β} {removed : List NodeId}

theorem map (h : Prunes view removed d e) (g : β → γ) :
    Prunes (fun n => g (view n)) removed d e where
  size := h.size
  sheets := h.sheets
  media := h.media
  nodes id := by
    have hid := congrArg (Option.map g) (h.nodes id)
    rw [Option.map_map] at hid
    refine hid.trans ?_
    split
    · rfl
    · rw [Option.map_map]
      rfl

theorem node?_eq_none (h : Prunes view removed d e) {id : NodeId} (hid : id ∈ removed) :
    e.node? id = none := by
  have hnodes := h.nodes id
  rwa [if_pos hid, Option.map_eq_none_iff] at hnodes

theorem notMem_of_contains (h : Prunes view removed d e) {id : NodeId}
    (hid : e.contains id = true) : id ∉ removed := by
  intro hmem
  rw [Document.contains, h.node?_eq_none hmem] at hid
  cases hid

theorem nodes_of_notMem (h : Prunes view removed d e) {id : NodeId} (hid : id ∉ removed) :
    (e.node? id).map view = (d.node? id).map view := by
  rw [h.nodes id, if_neg hid]

theorem contains (h : Prunes view removed d e) {id : NodeId} (hid : id ∉ removed) :
    e.contains id = d.contains id := by
  have hsome := congrArg Option.isSome (h.nodes_of_notMem hid)
  rwa [Option.isSome_map, Option.isSome_map] at hsome

/-- A list on the nodes that are left. -/
theorem field {α : Type} {list : Node → List α} (h : Prunes list removed d e) (id : NodeId) :
    ((e.node? id).map list).getD [] =
      if id ∈ removed then [] else ((d.node? id).map list).getD [] := by
  rw [h.nodes id]
  split <;> rfl

end Prunes

theorem Keeps.prunes {β : Type} {view : Node → β} {removed : List NodeId}
    (h : Keeps view d e) (h' : Prunes view removed e f) : Prunes view removed d f where
  size := h'.size.trans h.size
  sheets := h'.sheets.trans h.sheets
  media := h'.media.trans h.media
  nodes id := by rw [h'.nodes id, h.nodes id]

/-- Dropping a node empties its slot; otherwise only the indices of leaves change. -/
theorem prunes_dropNode {β : Type} {view : Node → β} (d : Document) (id : NodeId)
    (hview : ∀ n holders, view { n with holders } = view n) :
    Prunes view [id] d (d.dropNode id) := by
  rw [dropNode]
  split
  · rename_i hnone
    refine ⟨rfl, rfl, rfl, fun j => ?_⟩
    split
    · rename_i hj
      rw [List.mem_singleton.mp hj, hnone]
      rfl
    · rfl
  · rename_i node _
    have hkeeps : Keeps view (d.drop id)
        (node.listeners.foldl
          (fun d l => d.modify l.leaf fun n => { n with holders := n.holders.filter (· ≠ id) })
          (node.sheet.elim (d.drop id) ((d.drop id).removeOwner · id))) :=
      (keeps_removeOwner view (d.drop id) node.sheet id).trans
        (Keeps.foldl (fun d (l : Listener) => keeps_modify d l.leaf fun n => hview n _) _ _)
    refine ⟨hkeeps.size.trans (by simp [drop]), hkeeps.sheets, hkeeps.media, fun j => ?_⟩
    rw [hkeeps.nodes, node?_drop]
    by_cases hj : id = j
    · simp [hj]
    · have hne : ¬j = id := fun h => hj h.symm
      simp [hj, hne]

/-- The second half of a removal: the listeners of the nodes are released and their slots
emptied. -/
def dropAll (d : Document) (removed : List NodeId) : Document :=
  removed.foldl dropNode (removed.foldl releaseListeners d)

theorem remove_eq (d : Document) (id : NodeId) :
    (d.remove id).1 = if id = .root ∨ ¬d.contains id then d
      else (d.detach id).dropAll ((d.detach id).subtree id) := by
  rw [remove]
  split <;> rfl

theorem keeps_releaseAll (d : Document) (leaves : List NodeId) :
    Keeps Node.apartFromListening d (leaves.foldl releaseListeners d) :=
  Keeps.foldl keeps_releaseListeners leaves d

theorem prunes_foldl_dropNode {β : Type} {view : Node → β} (removed : List NodeId)
    (d : Document)
    (hview : ∀ n holders, view { n with holders } = view n) :
    Prunes view removed d (removed.foldl dropNode d) := by
  induction removed generalizing d with
  | nil => exact ⟨rfl, rfl, rfl, fun _ => rfl⟩
  | cons id rest ih =>
    have hfirst := prunes_dropNode d id hview
    have hrest := ih (d.dropNode id)
    refine ⟨hrest.size.trans hfirst.size, hrest.sheets.trans hfirst.sheets,
      hrest.media.trans hfirst.media, fun j => ?_⟩
    rw [List.foldl_cons, hrest.nodes, hfirst.nodes]
    by_cases hj : j = id <;> simp [hj]

theorem prunes_dropAll (d : Document) (removed : List NodeId) :
    Prunes Node.apartFromListening removed d (d.dropAll removed) :=
  (keeps_releaseAll d removed).prunes (prunes_foldl_dropNode removed _ fun _ _ => rfl)

/-! ## The forest that is left -/

/-- **Emptying slots** that no link crosses leaves a forest. -/
theorem IsForest.prune (hd : d.IsForest) {removed : List NodeId}
    (h : Prunes Node.links removed d e) (hroot : .root ∉ removed)
    (hclosed : ∀ child parent, d.parent? child = some parent →
      (child ∈ removed ↔ parent ∈ removed)) : e.IsForest := by
  have hparent : ∀ id, e.parent? id = if id ∈ removed then none else d.parent? id := by
    intro id
    split
    · rename_i hid
      rw [parent?, h.node?_eq_none hid]
      rfl
    · rename_i hid
      exact parent?_eq_of_map id ((h.map Prod.fst).nodes_of_notMem hid)
  have hchildren : ∀ id, e.children id = if id ∈ removed then [] else d.children id :=
    fun id => (h.map Prod.snd).field id
  refine ⟨?_, ?_, fun p c => ?_, fun p => ?_, ?_⟩
  · rw [h.contains hroot, hd.root_exists]
  · rw [hparent, if_neg hroot, hd.parent_root]
  · rw [hparent, hchildren]
    by_cases hp : p ∈ removed
    · by_cases hc : c ∈ removed
      · simp [hp, hc]
      · have hne : d.parent? c ≠ some p := fun hcp => hc ((hclosed c p hcp).mpr hp)
        simp [hp, hc, hne]
    · by_cases hc : c ∈ removed
      · have hne : d.parent? c ≠ some p := fun hcp => hp ((hclosed c p hcp).mp hc)
        simp [hp, hc, hd.mem_children_iff, hne]
      · simp [hp, hc, hd.mem_children_iff]
  · rw [hchildren]
    split
    · exact List.nodup_nil
    · exact hd.nodup_children p
  · refine Subrelation.wf (fun {p c} hpc => ?_) hd.acyclic
    rw [IsParent, hparent] at hpc
    split at hpc
    · cases hpc
    · exact hpc

/-- No link crosses the border of the subtree of a node without parent. -/
theorem IsForest.mem_subtree_iff_of_parent? (hd : d.IsForest) {id child parent : NodeId}
    (hid : d.parent? id = none) (h : d.parent? child = some parent) :
    child ∈ d.subtree id ↔ parent ∈ d.subtree id := by
  have hne : child ≠ id := by
    rintro rfl
    rw [hid] at h
    cases h
  rw [hd.mem_subtree_iff, hd.mem_subtree_iff, hd.ancestors_eq h, List.mem_cons]
  constructor
  · rintro ⟨-, hc | hp | hp⟩
    · exact absurd hc hne
    · exact ⟨hd.contains_parent h, Or.inl hp.symm⟩
    · exact ⟨hd.contains_parent h, Or.inr hp⟩
  · rintro ⟨-, rfl | hp⟩
    · exact ⟨contains_of_parent? h, Or.inr (Or.inl rfl)⟩
    · exact ⟨contains_of_parent? h, Or.inr (Or.inr hp)⟩

/-- What a chain leads down to from a node does not depend on the parent of that node. -/
theorem IsForest.isAncestor_of_parents_eq (hd : d.IsForest) {id x : NodeId}
    (hparent : ∀ y, y ≠ id → e.parent? y = d.parent? y) (h : d.IsAncestor id x) :
    e.IsAncestor id x := by
  have hlink : ∀ parent child, d.IsParent parent child → child ≠ id → e.IsParent parent child :=
    fun _ child h hne => (hparent child hne).trans h
  -- No node of the chain is `id` itself, since nothing stands above itself.
  have hne : ∀ {child}, d.IsAncestor id child → child ≠ id := by
    rintro child habove rfl
    exact hd.not_isAncestor_self _ habove
  induction h with
  | single hparent => exact .single (hlink _ _ hparent (hne (.single hparent)))
  | tail habove hparent ih =>
    exact ih.tail (hlink _ _ hparent (hne (habove.tail hparent)))

/-- **The subtree of a node** does not depend on the parent of that node. -/
theorem IsForest.mem_subtree_congr (hd : d.IsForest) (he : e.IsForest) {id x : NodeId}
    (hcontains : ∀ y, e.contains y = d.contains y)
    (hparent : ∀ y, y ≠ id → e.parent? y = d.parent? y) :
    x ∈ e.subtree id ↔ x ∈ d.subtree id := by
  have hiff : e.IsAncestor id x ↔ d.IsAncestor id x :=
    ⟨he.isAncestor_of_parents_eq fun y hy => (hparent y hy).symm,
      hd.isAncestor_of_parents_eq hparent⟩
  rw [he.mem_subtree_iff, hd.mem_subtree_iff, hcontains, he.mem_ancestors_iff,
    hd.mem_ancestors_iff, hiff]

theorem IsForest.mem_subtree_detach (hd : d.IsForest) {id x : NodeId} :
    x ∈ (d.detach id).subtree id ↔ x ∈ d.subtree id :=
  hd.mem_subtree_congr (hd.detach id) (keeps_detach d id).contains fun y hy => by
    rw [hd.parent?_detach, if_neg (Ne.symm hy)]

/-- The root stands in no subtree but its own. -/
theorem IsForest.root_notMem_subtree (hd : d.IsForest) {id : NodeId} (h : id ≠ .root) :
    .root ∉ d.subtree id := by
  rw [hd.mem_subtree_iff, ancestors_of_parent?_eq_none hd.parent_root]
  rintro ⟨-, hroot | hnil⟩
  · exact h hroot.symm
  · cases hnil

theorem IsForest.dropAll (hd : d.IsForest) {id : NodeId} (hroot : id ≠ .root)
    (hparent : d.parent? id = none) : (d.dropAll (d.subtree id)).IsForest :=
  hd.prune ((prunes_dropAll d _).map Node.links)
    (hd.root_notMem_subtree hroot) fun _ _ h => hd.mem_subtree_iff_of_parent? hparent h

theorem IsForest.remove (hd : d.IsForest) (id : NodeId) : (d.remove id).1.IsForest := by
  rw [remove_eq]
  split
  · exact hd
  · rename_i h
    refine (hd.detach id).dropAll (fun hid => h (Or.inl hid)) ?_
    rw [hd.parent?_detach, if_pos rfl]

/-! ## The listeners that are left -/

theorem listenersOf_dropNode (d : Document) (id j : NodeId) :
    (d.dropNode id).listenersOf j = if j = id then [] else d.listenersOf j := by
  have hprune : Prunes Node.listeners [id] d (d.dropNode id) :=
    prunes_dropNode d id fun _ _ => rfl
  refine (hprune.field j).trans ?_
  simp only [List.mem_singleton]
  rfl

/-- A dropped node is taken from the index of every leaf that it held a listener for. -/
theorem mem_holdersOf_dropNode {id j x : NodeId} :
    x ∈ (d.dropNode id).holdersOf j ↔
      j ≠ id ∧ x ∈ d.holdersOf j ∧ (x = id → ∀ l ∈ d.listenersOf id, l.leaf ≠ j) := by
  rw [dropNode]
  split
  · rename_i hnone
    have hlisteners : d.listenersOf id = [] :=
      listenersOf_of_not_contains (by rw [contains, hnone]; rfl)
    rw [hlisteners]
    constructor
    · intro h
      refine ⟨?_, h, fun _ l hl => by cases hl⟩
      rintro rfl
      rw [holdersOf_of_not_contains (by rw [contains, hnone]; rfl)] at h
      cases h
    · exact fun h => h.2.1
  · rename_i node hn
    have hlisteners : d.listenersOf id = node.listeners := by
      rw [listenersOf, hn]
      rfl
    have hdrop : (d.drop id).holdersOf j = if id = j then [] else d.holdersOf j := by
      rw [holdersOf, node?_drop]
      split <;> rfl
    have howner := (keeps_removeOwner (·.holders) (d.drop id) node.sheet id).holdersOf j
    -- The fold is over the leaves of the listeners that the node held.
    have hfold := field_foldl_filter Node.holders (p := (· ≠ id))
      (f := fun n => { n with holders := n.holders.filter (· ≠ id) })
      (node.listeners.map (·.leaf)) (node.sheet.elim (d.drop id) ((d.drop id).removeOwner · id)) j
      fun _ => rfl
    rw [List.foldl_map] at hfold
    rw [holdersOf, hfold, ← holdersOf, howner, hdrop, hlisteners]
    by_cases hj : id = j
    · simp [hj]
    · have hne : j ≠ id := Ne.symm hj
      by_cases hmem : j ∈ node.listeners.map (·.leaf)
      · obtain ⟨l, hl, rfl⟩ := List.mem_map.mp hmem
        rw [if_pos hmem, if_neg hj, List.mem_filter]
        constructor
        · rintro ⟨hx, hxid⟩
          exact ⟨hne, hx, fun he => absurd he (by simpa using hxid)⟩
        · rintro ⟨-, hx, himp⟩
          exact ⟨hx, by simpa using fun he => himp he l hl rfl⟩
      · rw [if_neg hmem, if_neg hj]
        constructor
        · exact fun hx => ⟨hne, hx, fun _ l hl he => hmem (List.mem_map.mpr ⟨l, hl, he⟩)⟩
        · exact fun h => h.2.1

theorem ListenersIndexed.dropNode (hd : d.ListenersIndexed) {id : NodeId}
    (hid : d.holdersOf id = []) : (d.dropNode id).ListenersIndexed := by
  intro holder leaf
  rw [mem_holdersOf_dropNode, listenersOf_dropNode, hd holder leaf]
  by_cases hholder : holder = id
  · subst hholder
    rw [if_pos rfl]
    constructor
    · rintro ⟨-, ⟨l, hl, hleaf⟩, hnone⟩
      exact absurd hleaf (hnone rfl l hl)
    · rintro ⟨l, hl, -⟩
      cases hl
  · rw [if_neg hholder]
    constructor
    · exact fun h => h.2.1
    · intro h
      refine ⟨?_, h, fun he => absurd he hholder⟩
      rintro rfl
      have hmem := (hd holder leaf).mpr h
      rw [hid] at hmem
      cases hmem

theorem listenersFor_releaseAll {leaves : List NodeId} {leaf : NodeId} (h : leaf ∉ leaves)
    (d : Document) (holder : NodeId) :
    (leaves.foldl releaseListeners d).listenersFor holder leaf = d.listenersFor holder leaf := by
  induction leaves generalizing d with
  | nil => rfl
  | cons id rest ih =>
    obtain ⟨hne, hrest⟩ := not_or.mp (List.mem_cons.not.mp h)
    rw [List.foldl_cons, ih hrest, listenersFor_releaseListeners_of_ne d hne]

/-- The listeners of a leaf that is left, on a holder that is left, are as before. -/
theorem listenersFor_dropAll (d : Document) {removed : List NodeId} {leaf : NodeId}
    (hleaf : leaf ∉ removed) (holder : NodeId) :
    (d.dropAll removed).listenersFor holder leaf =
      if holder ∈ removed then [] else d.listenersFor holder leaf := by
  have hprune : Prunes Node.listeners removed (removed.foldl releaseListeners d)
      (d.dropAll removed) := prunes_foldl_dropNode removed _ fun _ _ => rfl
  rw [listenersFor, listenersOf, hprune.field]
  split
  · rfl
  · exact listenersFor_releaseAll hleaf d holder

end Document
end StyleCascade
