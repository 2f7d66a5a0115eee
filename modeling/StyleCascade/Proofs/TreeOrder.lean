import Mathlib.Data.List.Flatten
import Mathlib.Data.List.Nodup
import Mathlib.Logic.Function.Iterate
import StyleCascade.Proofs.Forest

/-!
# Walks and tree order

In a forest the walk up from any node ends (`IsForest.exists_walk_end`).  The walk down
unfolds child by child (`IsForest.subtree_eq`), whatever bound stands on its levels, so the
subtree of a node lists each of its nodes once (`IsForest.nodup_subtree`), a parent before
its children and these in their order (`IsForest.sublist_subtree_of_mem`).
-/
namespace StyleCascade
namespace Document

variable {d : Document}

namespace IsForest

variable (hd : d.IsForest)
include hd

/-- Following the parent links, one leaves the document after finitely many steps. -/
theorem exists_walk_end (id : NodeId) :
    ∃ steps, (Option.bind · d.parent?)^[steps] (some id) = none := by
  induction id using hd.acyclic.induction with
  | _ id ih =>
    cases hp : d.parent? id with
    | none => exact ⟨1, hp⟩
    | some parent =>
      obtain ⟨steps, hend⟩ := ih parent hp
      refine ⟨steps + 1, ?_⟩
      rw [Function.iterate_succ_apply, Option.bind_some, hp]
      exact hend

/-! ## The subtree, child by child -/

/-- Where levels and ancestors together make up the slots, one level more adds nothing. -/
theorem below_succ {levels : Nat} {id : NodeId}
    (h : d.slots.size ≤ levels + (d.ancestors id).length) :
    d.below (levels + 1) id = d.below levels id := by
  induction levels generalizing id with
  | zero =>
    have hlength : (d.ancestors id).length < d.slots.size := hd.length_above_lt _ id
    omega
  | succ levels ih =>
    cases hc : d.contains id with
    | false => rw [below_of_not_contains hc, below_of_not_contains hc]
    | true =>
      rw [below_succ_of_contains hc, below_succ_of_contains hc]
      refine congrArg (id :: ·) (List.flatMap_congr fun child hchild => ih ?_)
      rw [hd.ancestors_eq ((hd.mem_children_iff id child).mp hchild), List.length_cons]
      omega

/-- **A subtree** is its topmost node and then the subtrees of the children. -/
theorem subtree_eq {id : NodeId} (hc : d.contains id = true) :
    d.subtree id = id :: (d.children id).flatMap d.subtree := by
  have hlevels : d.below (d.slots.size + 1) id = d.subtree id := hd.below_succ (by omega)
  rw [← hlevels, below_succ_of_contains hc]
  rfl

/-! ## Once each -/

/-- A node has at most one of two siblings at it or above it. -/
theorem eq_of_siblings {parent child other x : NodeId} (hchild : d.IsParent parent child)
    (hother : d.IsParent parent other) (h : child = x ∨ d.IsAncestor child x)
    (h' : other = x ∨ d.IsAncestor other x) : child = other := by
  -- Neither sibling stands above the other: it would stand above itself.
  have hnot : ∀ {a b : NodeId}, d.IsParent parent a → d.IsParent parent b →
      ¬d.IsAncestor a b := by
    intro a b ha hb habove
    rw [← hd.mem_ancestors_iff, hd.ancestors_eq hb, List.mem_cons, hd.mem_ancestors_iff] at habove
    rcases habove with rfl | habove
    · exact hd.not_isAncestor_self a (.single ha)
    · exact hd.not_isAncestor_self a (habove.tail ha)
  induction x using hd.acyclic.induction with
  | _ x ih =>
    rcases h with rfl | h
    · rcases h' with rfl | h'
      · rfl
      · exact absurd h' (hnot hother hchild)
    · rcases h' with rfl | h'
      · exact absurd h (hnot hchild hother)
      · cases hp : d.parent? x with
        | none =>
          rw [← hd.mem_ancestors_iff, ancestors_of_parent?_eq_none hp] at h
          cases h
        | some y =>
          rw [← hd.mem_ancestors_iff, hd.ancestors_eq hp, List.mem_cons, hd.mem_ancestors_iff]
            at h h'
          exact ih y hp h h'

theorem place_of_mem_below {levels : Nat} {child x : NodeId} (hx : x ∈ d.below levels child) :
    child = x ∨ d.IsAncestor child x :=
  (hd.eq_or_isAncestor_of_mem_below hx).imp_left Eq.symm

theorem nodup_below (levels : Nat) (id : NodeId) : (d.below levels id).Nodup := by
  induction levels generalizing id with
  | zero => exact List.nodup_nil
  | succ levels ih =>
    cases hc : d.contains id with
    | false =>
      rw [below_of_not_contains hc]
      exact List.nodup_nil
    | true =>
      rw [below_succ_of_contains hc, List.nodup_cons, List.nodup_flatMap]
      refine ⟨fun hmem => ?_, fun child _ => ih child, ?_⟩
      · obtain ⟨child, hchild, hx⟩ := List.mem_flatMap.mp hmem
        have hparent : d.IsParent id child := (hd.mem_children_iff id child).mp hchild
        rcases hd.place_of_mem_below hx with rfl | habove
        · exact hd.not_isAncestor_self child (.single hparent)
        · exact hd.not_isAncestor_self id (.head hparent habove)
      · refine (hd.nodup_children id).imp_of_mem ?_
        intro first second hfirst hsecond hne x hx hx'
        exact hne (hd.eq_of_siblings ((hd.mem_children_iff id first).mp hfirst)
          ((hd.mem_children_iff id second).mp hsecond) (hd.place_of_mem_below hx)
          (hd.place_of_mem_below hx'))

theorem nodup_subtree (id : NodeId) : (d.subtree id).Nodup :=
  hd.nodup_below _ id

/-! ## In order -/

theorem pairwise_below (levels : Nat) (id : NodeId) :
    (d.below levels id).Pairwise fun earlier later => later ∉ d.ancestors earlier := by
  induction levels generalizing id with
  | zero => exact List.Pairwise.nil
  | succ levels ih =>
    cases hc : d.contains id with
    | false =>
      rw [below_of_not_contains hc]
      exact List.Pairwise.nil
    | true =>
      rw [below_succ_of_contains hc, List.pairwise_cons, List.pairwise_flatMap]
      refine ⟨fun later hmem habove => ?_, fun child _ => ih child, ?_⟩
      · obtain ⟨child, hchild, hlater⟩ := List.mem_flatMap.mp hmem
        have hparent : d.IsParent id child := (hd.mem_children_iff id child).mp hchild
        rw [hd.mem_ancestors_iff] at habove
        rcases hd.place_of_mem_below hlater with rfl | hbelow
        · exact hd.not_isAncestor_self id (.head hparent habove)
        · exact hd.not_isAncestor_self id ((Relation.TransGen.head hparent hbelow).trans habove)
      · -- What stands above a node below the first sibling is not below the second.
        refine (hd.nodup_children id).imp_of_mem ?_
        intro first second hfirst hsecond hne earlier hearlier later hlater habove
        rw [hd.mem_ancestors_iff] at habove
        have hsecondAbove : d.IsAncestor second earlier := by
          rcases hd.place_of_mem_below hlater with rfl | hplace
          · exact habove
          · exact hplace.trans habove
        exact hne (hd.eq_of_siblings ((hd.mem_children_iff id first).mp hfirst)
          ((hd.mem_children_iff id second).mp hsecond) (hd.place_of_mem_below hearlier)
          (.inr hsecondAbove))

/-- **Nothing stands behind what it is above of** in tree order. -/
theorem pairwise_subtree (id : NodeId) :
    (d.subtree id).Pairwise fun earlier later => later ∉ d.ancestors earlier :=
  hd.pairwise_below _ id

theorem sublist_subtree {id : NodeId} (hc : d.contains id = true) :
    (id :: d.children id).Sublist (d.subtree id) := by
  rw [hd.subtree_eq hc]
  refine List.Sublist.cons_cons id ?_
  conv_lhs => rw [← List.flatMap_singleton' (d.children id)]
  refine List.Sublist.flatMap_right _ fun child hchild => ?_
  have hexists := contains_of_parent? ((hd.mem_children_iff id child).mp hchild)
  rw [hd.subtree_eq hexists]
  exact List.Sublist.cons_cons child (List.nil_sublist _)

/-- Subtrees are nested. -/
theorem subtree_sublist {id x : NodeId} (hx : x ∈ d.subtree id) :
    (d.subtree x).Sublist (d.subtree id) := by
  obtain ⟨-, hplace⟩ := hd.mem_subtree_iff.mp hx
  -- From `x` upwards, until `id` is met.
  induction x using hd.acyclic.induction with
  | _ x ih =>
    rcases hplace with rfl | habove
    · exact List.Sublist.refl _
    · cases hp : d.parent? x with
      | none =>
        rw [ancestors_of_parent?_eq_none hp] at habove
        cases habove
      | some parent =>
        rw [hd.ancestors_eq hp, List.mem_cons] at habove
        have hparent : parent = id ∨ id ∈ d.ancestors parent := habove.imp_left Eq.symm
        have hc := hd.contains_parent hp
        refine List.Sublist.trans ?_ (ih parent hp (hd.mem_subtree_iff.mpr ⟨hc, hparent⟩) hparent)
        rw [hd.subtree_eq hc]
        have hchild : x ∈ d.children parent := (hd.mem_children_iff parent x).mpr hp
        exact (List.sublist_flatten_of_mem (List.mem_map_of_mem hchild)).cons parent

/-- **Parents stand before their children**, and these in their order. -/
theorem sublist_subtree_of_mem {id x : NodeId} (hx : x ∈ d.subtree id) :
    (x :: d.children x).Sublist (d.subtree id) :=
  (hd.sublist_subtree (hd.mem_subtree_iff.mp hx).1).trans (hd.subtree_sublist hx)

end IsForest
end Document
end StyleCascade
