import Mathlib.Data.List.Dedup
import Mathlib.Logic.Relation
import Mathlib.Order.WellFounded
import StyleCascade.Proofs.Surroundings

/-!
# Documents as forests

In a document that can come about, children and parents mirror each other and no node
stands above itself (`Document.IsForest`).  A walk then never needs more steps than there
are slots: the list of ancestors unfolds parent by parent (`IsForest.ancestors_eq`), it
lists exactly the strict ancestors (`IsForest.mem_ancestors_iff`), and the subtree of a
node holds it and the existing nodes below it (`IsForest.mem_subtree_iff`).
-/
namespace StyleCascade
namespace Document

def IsParent (d : Document) (parent child : NodeId) : Prop :=
  d.parent? child = some parent

/-- A chain of one parent or more leads from the second node up to the first. -/
def IsAncestor (d : Document) : NodeId → NodeId → Prop :=
  Relation.TransGen d.IsParent

/-- The nodes form trees: the root stands on top, child lists mirror the parents and have
no duplicates, and the walk up from any node ends. -/
structure IsForest (d : Document) : Prop where
  root_exists : d.contains .root = true
  parent_root : d.parent? .root = none
  mem_children_iff : ∀ parent child, child ∈ d.children parent ↔ d.parent? child = some parent
  nodup_children : ∀ parent, (d.children parent).Nodup
  acyclic : WellFounded d.IsParent

variable {d e : Document}

theorem contains_of_parent? {child parent : NodeId} (h : d.parent? child = some parent) :
    d.contains child = true := by
  cases hn : d.node? child with
  | none =>
    rw [parent?, hn] at h
    cases h
  | some n => exact contains_of_node? hn

theorem contains_of_mem_children {child parent : NodeId} (h : child ∈ d.children parent) :
    d.contains parent = true := by
  cases hn : d.node? parent with
  | none =>
    rw [children, hn] at h
    cases h
  | some n => exact contains_of_node? hn

theorem mem_handles_of_contains {id : NodeId} (h : d.contains id = true) : id ∈ d.handles := by
  have hlt : id.index < d.slots.size := by
    by_contra hge
    have hnone : d.node? id = none := by
      rw [node?, Array.getElem?_eq_none (not_lt.mp hge)]
      rfl
    rw [contains, hnone] at h
    cases h
  exact List.mem_map.mpr ⟨id.index, List.mem_range.mpr hlt, rfl⟩

/-! ## The walk up -/

theorem above_succ_of_parent? {id parent : NodeId} (h : d.parent? id = some parent)
    (steps : Nat) : d.above (steps + 1) id = parent :: d.above steps parent := by
  rw [above, h]

theorem above_of_parent?_eq_none {id : NodeId} (h : d.parent? id = none) (steps : Nat) :
    d.above steps id = [] := by
  cases steps with
  | zero => rfl
  | succ steps => rw [above, h]

theorem ancestors_of_parent?_eq_none {id : NodeId} (h : d.parent? id = none) :
    d.ancestors id = [] :=
  above_of_parent?_eq_none h _

/-- A walk that ends before its last step is not changed by one step more. -/
theorem above_succ_of_length_lt {steps : Nat} {id : NodeId}
    (h : (d.above steps id).length < steps) : d.above (steps + 1) id = d.above steps id := by
  induction steps generalizing id with
  | zero => exact absurd h (Nat.not_lt_zero _)
  | succ steps ih =>
    cases hp : d.parent? id with
    | none => rw [above_of_parent?_eq_none hp, above_of_parent?_eq_none hp]
    | some parent =>
      rw [above_succ_of_parent? hp, List.length_cons] at h
      rw [above_succ_of_parent? hp, above_succ_of_parent? hp, ih (by omega)]

theorem isAncestor_of_mem_above {steps : Nat} {id a : NodeId} (h : a ∈ d.above steps id) :
    d.IsAncestor a id := by
  induction steps generalizing id with
  | zero => cases h
  | succ steps ih =>
    cases hp : d.parent? id with
    | none =>
      rw [above_of_parent?_eq_none hp] at h
      cases h
    | some parent =>
      rw [above_succ_of_parent? hp] at h
      rcases List.mem_cons.mp h with rfl | h
      · exact Relation.TransGen.single hp
      · exact (ih h).tail hp

namespace IsForest

variable (hd : d.IsForest)
include hd

theorem contains_parent {child parent : NodeId} (h : d.parent? child = some parent) :
    d.contains parent = true :=
  contains_of_mem_children ((hd.mem_children_iff parent child).mpr h)

theorem contains_of_isAncestor {a id : NodeId} (h : d.IsAncestor a id) :
    d.contains a = true := by
  induction h using Relation.TransGen.head_induction_on with
  | single h => exact hd.contains_parent h
  | head h _ _ => exact hd.contains_parent h

theorem not_isAncestor_self (id : NodeId) : ¬d.IsAncestor id id :=
  hd.acyclic.transGen.irrefl.irrefl id

theorem nodup_above (steps : Nat) (id : NodeId) : (id :: d.above steps id).Nodup := by
  refine List.nodup_cons.mpr ⟨fun h => hd.not_isAncestor_self id (isAncestor_of_mem_above h), ?_⟩
  induction steps generalizing id with
  | zero => exact List.nodup_nil
  | succ steps ih =>
    cases hp : d.parent? id with
    | none =>
      rw [above_of_parent?_eq_none hp]
      exact List.nodup_nil
    | some parent =>
      rw [above_succ_of_parent? hp]
      exact List.nodup_cons.mpr
        ⟨fun h => hd.not_isAncestor_self parent (isAncestor_of_mem_above h), ih parent⟩

/-- Every walk is shorter than the number of slots. -/
theorem length_above_lt (steps : Nat) (id : NodeId) :
    (d.above steps id).length < d.slots.size := by
  have hpos : 0 < d.handles.length :=
    List.length_pos_of_mem (mem_handles_of_contains hd.root_exists)
  have hsize : d.handles.length = d.slots.size := by simp [handles]
  cases hp : d.parent? id with
  | none =>
    rw [above_of_parent?_eq_none hp, ← hsize]
    exact hpos
  | some parent =>
    -- The node and its walk are distinct handles, so the walk is shorter by one.
    have hsub : id :: d.above steps id ⊆ d.handles := by
      intro a ha
      rcases List.mem_cons.mp ha with rfl | ha
      · exact mem_handles_of_contains (contains_of_parent? hp)
      · exact mem_handles_of_contains (hd.contains_of_isAncestor (isAncestor_of_mem_above ha))
    have hlength := (hd.nodup_above steps id).length_le_of_subset hsub
    rw [List.length_cons, hsize] at hlength
    exact hlength

/-- **The ancestors of a node** are its parent and the ancestors of that. -/
theorem ancestors_eq {id parent : NodeId} (h : d.parent? id = some parent) :
    d.ancestors id = parent :: d.ancestors parent := by
  rw [ancestors, ← above_succ_of_length_lt (hd.length_above_lt _ id), above_succ_of_parent? h]
  rfl

theorem mem_ancestors_iff {a id : NodeId} : a ∈ d.ancestors id ↔ d.IsAncestor a id := by
  constructor
  · exact isAncestor_of_mem_above
  · intro h
    induction h with
    | single hp =>
      rw [hd.ancestors_eq hp]
      exact List.mem_cons_self
    | tail _ hp ih =>
      rw [hd.ancestors_eq hp]
      exact List.mem_cons_of_mem _ ih

theorem contains_of_mem_ancestors {a id : NodeId} (h : a ∈ d.ancestors id) :
    d.contains a = true :=
  hd.contains_of_isAncestor (isAncestor_of_mem_above h)

/-- The ancestors of a node agree in two forests whose parents agree along them. -/
theorem ancestors_congr (he : e.IsForest) {id : NodeId}
    (h : ∀ a ∈ id :: d.ancestors id, e.parent? a = d.parent? a) :
    e.ancestors id = d.ancestors id := by
  induction id using hd.acyclic.induction with
  | _ id ih =>
    have hid := h id List.mem_cons_self
    cases hp : d.parent? id with
    | none => rw [ancestors_of_parent?_eq_none hp, ancestors_of_parent?_eq_none (hid.trans hp)]
    | some parent =>
      rw [hd.ancestors_eq hp] at h
      rw [hd.ancestors_eq hp, he.ancestors_eq (hid.trans hp),
        ih parent hp fun a ha => h a (List.mem_cons_of_mem _ ha)]

end IsForest

/-! ## The walk down -/

theorem mem_above_of_le {steps steps' : Nat} (hle : steps ≤ steps') {a id : NodeId}
    (h : a ∈ d.above steps id) : a ∈ d.above steps' id := by
  induction steps generalizing steps' id with
  | zero => cases h
  | succ steps ih =>
    obtain ⟨more, rfl⟩ : ∃ more, steps' = more + 1 := ⟨steps' - 1, by omega⟩
    cases hp : d.parent? id with
    | none =>
      rw [above_of_parent?_eq_none hp] at h
      cases h
    | some parent =>
      rw [above_succ_of_parent? hp] at h ⊢
      rcases List.mem_cons.mp h with rfl | h
      · exact List.mem_cons_self
      · exact List.mem_cons_of_mem _ (ih (by omega) h)

theorem above_length (steps : Nat) (id : NodeId) :
    d.above (d.above steps id).length id = d.above steps id := by
  induction steps generalizing id with
  | zero => rfl
  | succ steps ih =>
    cases hp : d.parent? id with
    | none =>
      rw [above_of_parent?_eq_none hp, above_of_parent?_eq_none hp]
    | some parent =>
      rw [above_succ_of_parent? hp, List.length_cons, above_succ_of_parent? hp, ih]

theorem below_succ_of_contains {id : NodeId} (h : d.contains id = true) (levels : Nat) :
    d.below (levels + 1) id = id :: (d.children id).flatMap (d.below levels) := by
  cases hn : d.node? id with
  | none =>
    rw [contains, hn] at h
    cases h
  | some n =>
    rw [below, children, hn]
    rfl

theorem below_of_not_contains {id : NodeId} (h : d.contains id = false) (levels : Nat) :
    d.below levels id = [] := by
  cases levels with
  | zero => rfl
  | succ levels =>
    have hnone : d.node? id = none := by simpa [contains] using h
    rw [below, hnone]

theorem contains_of_mem_below {levels : Nat} {id x : NodeId} (h : x ∈ d.below levels id) :
    d.contains x = true := by
  induction levels generalizing id with
  | zero => cases h
  | succ levels ih =>
    cases hc : d.contains id with
    | false =>
      rw [below_of_not_contains hc] at h
      cases h
    | true =>
      rw [below_succ_of_contains hc] at h
      rcases List.mem_cons.mp h with rfl | h
      · exact hc
      · obtain ⟨child, -, hx⟩ := List.mem_flatMap.mp h
        exact ih hx

namespace IsForest

variable (hd : d.IsForest)
include hd

theorem eq_or_isAncestor_of_mem_below {levels : Nat} {id x : NodeId}
    (h : x ∈ d.below levels id) : x = id ∨ d.IsAncestor id x := by
  induction levels generalizing id with
  | zero => cases h
  | succ levels ih =>
    cases hc : d.contains id with
    | false =>
      rw [below_of_not_contains hc] at h
      cases h
    | true =>
      rw [below_succ_of_contains hc] at h
      rcases List.mem_cons.mp h with rfl | h
      · exact Or.inl rfl
      · obtain ⟨child, hchild, hx⟩ := List.mem_flatMap.mp h
        have hparent : d.IsParent id child := (hd.mem_children_iff id child).mp hchild
        rcases ih hx with rfl | hx
        · exact Or.inr (Relation.TransGen.single hparent)
        · exact Or.inr (Relation.TransGen.head hparent hx)

/-- One level more takes in the children of what has been reached. -/
theorem mem_below_succ {levels : Nat} {id parent child : NodeId}
    (hmem : parent ∈ d.below levels id) (hparent : d.parent? child = some parent) :
    child ∈ d.below (levels + 1) id := by
  induction levels generalizing id with
  | zero => cases hmem
  | succ levels ih =>
    cases hc : d.contains id with
    | false =>
      rw [below_of_not_contains hc] at hmem
      cases hmem
    | true =>
      rw [below_succ_of_contains hc] at hmem
      rw [below_succ_of_contains hc]
      refine List.mem_cons_of_mem _ (List.mem_flatMap.mpr ?_)
      rcases List.mem_cons.mp hmem with rfl | hmem
      · refine ⟨child, (hd.mem_children_iff parent child).mpr hparent, ?_⟩
        rw [below_succ_of_contains (contains_of_parent? hparent)]
        exact List.mem_cons_self
      · obtain ⟨c, hchild, hbelow⟩ := List.mem_flatMap.mp hmem
        exact ⟨c, hchild, ih hbelow⟩

theorem mem_below_of_mem_above {steps : Nat} {a id : NodeId} (h : a ∈ d.above steps id) :
    id ∈ d.below (steps + 1) a := by
  induction steps generalizing id with
  | zero => cases h
  | succ steps ih =>
    cases hp : d.parent? id with
    | none =>
      rw [above_of_parent?_eq_none hp] at h
      cases h
    | some parent =>
      rw [above_succ_of_parent? hp] at h
      rcases List.mem_cons.mp h with rfl | h
      · refine hd.mem_below_succ ?_ hp
        rw [below_succ_of_contains (hd.contains_parent hp)]
        exact List.mem_cons_self
      · exact hd.mem_below_succ (ih h) hp

/-- **The subtree of a node** holds the existing nodes that are it or stand below it. -/
theorem mem_subtree_iff {id x : NodeId} :
    x ∈ d.subtree id ↔ d.contains x = true ∧ (x = id ∨ id ∈ d.ancestors x) := by
  obtain ⟨last, hlast⟩ : ∃ last, d.slots.size = last + 1 :=
    ⟨d.slots.size - 1, by have := hd.length_above_lt 0 id; omega⟩
  constructor
  · intro h
    refine ⟨contains_of_mem_below h, ?_⟩
    rw [hd.mem_ancestors_iff]
    exact hd.eq_or_isAncestor_of_mem_below h
  · rintro ⟨hc, rfl | h⟩
    · rw [subtree, hlast, below_succ_of_contains hc]
      exact List.mem_cons_self
    · -- Cut to its own length, the walk up takes fewer steps than the subtree has levels.
      have hlength := hd.length_above_lt d.slots.size x
      rw [ancestors, ← above_length] at h
      rw [subtree, hlast]
      exact hd.mem_below_of_mem_above (mem_above_of_le (by omega) h)

end IsForest
end Document
end StyleCascade
