import StyleCascade.Proofs.ListenerCover
import StyleCascade.Proofs.Unsettled

/-!
# The pass over the dirty nodes

A pass restyles the nodes that are dirty when it starts, each once, those under the root in
tree order.  When it comes to a node under the root, all dirty nodes above that have had their
turn, so restyling it marks the root or nothing (`DirtyOnlyIn.restyle`).  After a pass no node
under the root is dirty, unless one of them asks for a parent of the root; then the root has
been marked again after its turn (`Document.restyleDirty_converges`).
-/
namespace StyleCascade
namespace Document

/-- Restyles nodes one after the other. -/
def restyleEach (d : Document) (ids : List NodeId) : Document :=
  ids.foldl (fun d id => (d.restyle id).1) d

/-- The nodes that do not stand under the root, in the order of their handles. -/
def detachedNodes (d : Document) : List NodeId :=
  d.handles.filter fun id => d.contains id && id ∉ d.subtree .root

/-- The dirty nodes under the root are among those still to come. -/
def DirtyOnlyIn (d : Document) (todo : List NodeId) : Prop :=
  ∀ id ∈ d.subtree .root, d.isDirty id = true → id ∈ todo

variable {d e : Document} {id x : NodeId} {ids todo : List NodeId}

theorem keeps_restyleEach (d : Document) (ids : List NodeId) :
    Keeps Node.apartFromStyling d (d.restyleEach ids) :=
  Keeps.foldl (fun d id => keeps_restyle d id) ids d

theorem Keeps.mem_subtree_iff (h : Keeps Node.apartFromStyling d e) (hd : d.IsForest) :
    x ∈ e.subtree id ↔ x ∈ d.subtree id := by
  have he : e.IsForest := (h.map Node.links).isForest hd
  rw [he.mem_subtree_iff, hd.mem_subtree_iff, h.contains, (h.map (·.parent)).ancestors]

/-! ## The nodes of a pass -/

theorem contains_of_isDirty (h : d.isDirty id = true) : d.contains id = true := by
  obtain ⟨n, hn, -⟩ := (Option.any_eq_true _ _).mp h
  exact contains_of_node? hn

theorem mem_dirtyNodes_iff : id ∈ d.dirtyNodes ↔ d.isDirty id = true :=
  ⟨fun h => (List.mem_filter.mp h).2, fun h => mem_dirtyNodes (contains_of_isDirty h) h⟩

theorem mem_detachedNodes_iff :
    id ∈ d.detachedNodes ↔ d.contains id = true ∧ id ∉ d.subtree .root := by
  rw [detachedNodes, List.mem_filter, Bool.and_eq_true, decide_eq_true_eq]
  exact ⟨And.right, fun h => ⟨mem_handles_of_contains h.1, h⟩⟩

/-- The nodes under the root have their turns first. -/
theorem dirtyNodes_eq (d : Document) : d.dirtyNodes =
    (d.subtree .root).filter d.isDirty ++ d.detachedNodes.filter d.isDirty :=
  List.filter_append ..

namespace IsForest

variable (hd : d.IsForest)
include hd

theorem nodup_turns : (d.subtree .root ++ d.detachedNodes).Nodup := by
  have hhandles : d.handles.Nodup := List.nodup_range.map fun i j h => NodeId.mk.inj h
  refine (hd.nodup_subtree .root).append (hhandles.filter _) fun id hid hother => ?_
  exact (mem_detachedNodes_iff.mp hother).2 hid

/-- No node has two turns. -/
theorem nodup_dirtyNodes : d.dirtyNodes.Nodup :=
  hd.nodup_turns.filter _

/-- The root has its turn first if at all. -/
theorem root_notMem_of_dirtyNodes_eq {before after : List NodeId}
    (h : d.dirtyNodes = before ++ id :: after) : .root ∉ after := by
  obtain ⟨rest, hrest⟩ : ∃ rest, d.subtree .root ++ d.detachedNodes = .root :: rest :=
    ⟨_, by rw [hd.subtree_eq hd.root_exists, List.cons_append]⟩
  have hne : ∀ later ∈ rest, later ≠ .root := by
    have hnodup := hd.nodup_turns
    rw [hrest, List.nodup_cons] at hnodup
    exact fun later hlater heq => hnodup.1 (heq ▸ hlater)
  have hfirst : (d.subtree .root ++ d.detachedNodes).Pairwise fun _ later => later ≠ .root := by
    rw [hrest, List.pairwise_cons]
    exact ⟨hne, List.pairwise_of_forall_mem_list fun _ _ later hlater => hne later hlater⟩
  have hdirty : d.dirtyNodes.Pairwise fun _ later => later ≠ .root := hfirst.filter _
  rw [h, List.pairwise_append, List.pairwise_cons] at hdirty
  exact fun hroot => hdirty.2.1.1 _ hroot rfl

end IsForest

/-! ## One turn -/

namespace IsForest

variable (hd : d.IsForest)
include hd

/-- A turn marks the node or nodes above it; under the root these are the root, or have
another dirty node as their parent. -/
theorem mem_unsettled_unmarked (h : x ∈ (d.unmarked id).unsettled id) :
    (x = id ∨ x ∈ d.ancestors id) ∧ (x ∈ d.subtree .root → x = .root ∨
      ∃ parent, d.parent? x = some parent ∧ parent ≠ id ∧ d.isDirty parent = true) := by
  have hkeeps : Keeps Node.apartFromStyling d (d.unmarked id) :=
    (keeps_unmarked d id).map Node.apartFromStyling
  obtain ⟨hplace, hcause⟩ :=
    ((hkeeps.map Node.links).isForest hd).of_mem_unsettled h
  rw [(hkeeps.map (·.parent)).ancestors] at hplace
  refine ⟨hplace, fun hx => ?_⟩
  rcases hcause ((hkeeps.mem_subtree_iff hd).mpr hx) with hroot | ⟨parent, hp, hdirty⟩
  · exact .inl hroot
  · rw [(hkeeps.map (·.parent)).parent?] at hp
    rw [isDirty_unmarked, Bool.and_eq_true, decide_eq_true_eq] at hdirty
    exact .inr ⟨parent, hp, hdirty⟩

theorem root_mem_unsettled_unmarked_iff (hid : id ∈ d.subtree .root) :
    .root ∈ (d.unmarked id).unsettled id ↔ d.AsksAboveRoot id := by
  have hkeeps : Keeps Node.apartFromStyling d (d.unmarked id) :=
    (keeps_unmarked d id).map Node.apartFromStyling
  rw [((hkeeps.map Node.links).isForest hd).root_mem_unsettled_iff_asksAboveRoot
    ((hkeeps.mem_subtree_iff hd).mpr hid)]
  exact ⟨AsksAboveRoot.of_keeps hkeeps.symm, AsksAboveRoot.of_keeps hkeeps⟩

/-- The turn of a node that asks above the root marks the root. -/
theorem isDirty_root_restyle (hid : id ∈ d.subtree .root) (hasks : d.AsksAboveRoot id) :
    (d.restyle id).1.isDirty .root = true := by
  have hmarked := (hd.root_mem_unsettled_unmarked_iff hid).mpr hasks
  rw [isDirty_restyle (hd.mem_subtree_iff.mp hid).1]
  simp [hmarked, hd.root_exists]

/-- The turn of a detached node does nothing to the marks under the root. -/
theorem isDirty_restyle_of_detached (hid : id ∉ d.subtree .root) (hx : x ∈ d.subtree .root) :
    (d.restyle id).1.isDirty x = d.isDirty x := by
  cases hc : d.contains id with
  | false => rw [restyle_of_not_contains hc]
  | true =>
    have hne : x ≠ id := by
      rintro rfl
      exact hid hx
    have hnot : x ∉ (d.unmarked id).unsettled id := by
      intro hmarked
      rcases (hd.mem_unsettled_unmarked hmarked).1 with rfl | habove
      · exact hid hx
      · exact hid ((hd.mem_subtree_root_of_mem_ancestors habove).mpr hx)
    rw [isDirty_restyle hc]
    simp [hne, hnot]

end IsForest

/-- **The turn of a node under the root** leaves dirty what is still to come, and nothing else, if
nothing still to come stands above it and it does not ask above the root. -/
theorem DirtyOnlyIn.restyle (h : d.DirtyOnlyIn (id :: todo)) (hd : d.IsForest)
    (hid : id ∈ d.subtree .root) (horder : ∀ later ∈ todo, later ∉ d.ancestors id)
    (hasks : ¬d.AsksAboveRoot id) : (d.restyle id).1.DirtyOnlyIn todo := by
  intro x hx hdirty
  rw [(keeps_restyle d id).mem_subtree_iff hd] at hx
  rw [isDirty_restyle (hd.mem_subtree_iff.mp hid).1, Bool.or_eq_true, Bool.and_eq_true,
    Bool.and_eq_true, decide_eq_true_eq, decide_eq_true_eq] at hdirty
  rcases hdirty with ⟨hne, hdirty⟩ | ⟨hmarked, -⟩
  · exact (List.mem_cons.mp (h x hx hdirty)).resolve_left hne
  · obtain ⟨hplace, hcause⟩ := hd.mem_unsettled_unmarked hmarked
    rcases hcause hx with rfl | ⟨parent, hp, hne, hdirty⟩
    · exact absurd ((hd.root_mem_unsettled_unmarked_iff hid).mp hmarked) hasks
    · -- A dirty parent of what is marked stands above `id`, so its turn is not still to come.
      have habove : parent ∈ d.ancestors id := by
        rw [hd.mem_ancestors_iff]
        rcases hplace with rfl | hx
        · exact .single hp
        · exact .head hp (hd.mem_ancestors_iff.mp hx)
      have hparent := (hd.mem_subtree_root_of_parent? hp).mp hx
      have hlater := (List.mem_cons.mp (h parent hparent hdirty)).resolve_left hne
      exact absurd habove (horder parent hlater)

/-! ## The turns of a pass -/

/-- **The turns of nodes under the root**, taken in tree order, leave none of them dirty if none
asks above the root. -/
theorem DirtyOnlyIn.restyleEach (h : d.DirtyOnlyIn todo) (hd : d.IsForest)
    (hattached : ∀ id ∈ todo, id ∈ d.subtree .root)
    (horder : todo.Pairwise fun earlier later => later ∉ d.ancestors earlier)
    (hasks : ∀ id ∈ todo, ¬d.AsksAboveRoot id) : (d.restyleEach todo).DirtyOnlyIn [] := by
  -- By induction on what is still to come; a turn changes none of the conditions.
  induction todo generalizing d with
  | nil => exact h
  | cons id todo ih =>
    have hkeeps := keeps_restyle d id
    obtain ⟨hnext, hrest⟩ := List.pairwise_cons.mp horder
    refine ih (h.restyle hd (hattached id List.mem_cons_self) hnext (hasks id List.mem_cons_self))
      (hd.perform (.restyle id)) (fun x hx => ?_) (hrest.imp fun hnot => ?_) (fun x hx hx' => ?_)
    · exact (hkeeps.mem_subtree_iff hd).mpr (hattached x (List.mem_cons_of_mem _ hx))
    · rwa [(hkeeps.map (·.parent)).ancestors]
    · exact hasks x (List.mem_cons_of_mem _ hx) (hx'.of_keeps hkeeps.symm)

theorem IsForest.isDirty_restyleEach_of_detached (hd : d.IsForest)
    (hids : ∀ id ∈ ids, id ∉ d.subtree .root) (hx : x ∈ d.subtree .root) :
    (d.restyleEach ids).isDirty x = d.isDirty x := by
  induction ids generalizing d with
  | nil => rfl
  | cons id ids ih =>
    have hkeeps := keeps_restyle d id
    have hrest := ih (hd.perform (.restyle id))
      (fun y hy => (hkeeps.mem_subtree_iff hd).not.mpr (hids y (List.mem_cons_of_mem _ hy)))
      ((hkeeps.mem_subtree_iff hd).mpr hx)
    exact hrest.trans (hd.isDirty_restyle_of_detached (hids id List.mem_cons_self) hx)

/-- What is dirty and has no turn stays dirty. -/
theorem isDirty_restyleEach_of_notMem (hx : x ∉ ids) (h : d.isDirty x = true) :
    (d.restyleEach ids).isDirty x = true := by
  induction ids generalizing d with
  | nil => exact h
  | cons id ids ih =>
    rw [List.mem_cons, not_or] at hx
    refine ih hx.2 ?_
    by_contra hclean
    rw [isDirty_of_restyle hx.1 (Bool.eq_false_iff.mpr hclean)] at h
    cases h

/-! ## The pass -/

namespace IsForest

variable (hd : d.IsForest)
include hd

theorem isDirty_root_restyleDirty (hid : id ∈ d.subtree .root) (hdirty : d.isDirty id = true)
    (hasks : d.AsksAboveRoot id) : d.restyleDirty.1.isDirty .root = true := by
  obtain ⟨before, after, heq⟩ := List.append_of_mem (mem_dirtyNodes_iff.mpr hdirty)
  have hkeeps := keeps_restyleEach d before
  have hforest : (d.restyleEach before).IsForest := (hkeeps.map Node.links).isForest hd
  have hmarked := hforest.isDirty_root_restyle ((hkeeps.mem_subtree_iff hd).mpr hid)
    (hasks.of_keeps hkeeps)
  have hpass : d.restyleDirty.1 = (((d.restyleEach before).restyle id).1).restyleEach after := by
    rw [restyleDirty, heq, List.foldl_append, List.foldl_cons]
    rfl
  rw [hpass]
  exact isDirty_restyleEach_of_notMem (hd.root_notMem_of_dirtyNodes_eq heq) hmarked

theorem isDirty_restyleDirty_eq_false
    (hasks : ∀ id ∈ d.subtree .root, d.isDirty id = true → ¬d.AsksAboveRoot id)
    (hx : x ∈ d.subtree .root) : d.restyleDirty.1.isDirty x = false := by
  have hpass : d.restyleDirty.1 = (d.restyleEach ((d.subtree .root).filter d.isDirty)).restyleEach
      (d.detachedNodes.filter d.isDirty) := by
    rw [restyleDirty, dirtyNodes_eq, List.foldl_append]
    rfl
  have hkeeps := keeps_restyleEach d ((d.subtree .root).filter d.isDirty)
  have hforest := (hkeeps.map Node.links).isForest hd
  have hstart : d.DirtyOnlyIn ((d.subtree .root).filter d.isDirty) := fun id hid hdirty =>
    List.mem_filter.mpr ⟨hid, hdirty⟩
  have hclean := hstart.restyleEach hd (fun id hid => (List.mem_filter.mp hid).1)
    ((hd.pairwise_subtree .root).filter _)
    fun id hid => hasks id (List.mem_filter.mp hid).1 (List.mem_filter.mp hid).2
  have hdetached : ∀ id ∈ d.detachedNodes.filter d.isDirty,
      id ∉ (d.restyleEach ((d.subtree .root).filter d.isDirty)).subtree .root := by
    intro id hid
    rw [hkeeps.mem_subtree_iff hd]
    exact (mem_detachedNodes_iff.mp (List.mem_filter.mp hid).1).2
  have hx' := (hkeeps.mem_subtree_iff hd).mpr hx
  rw [hpass, hforest.isDirty_restyleEach_of_detached hdetached hx']
  exact Bool.eq_false_iff.mpr fun hdirty => List.not_mem_nil (hclean x hx' hdirty)

end IsForest

/-- **A pass over the dirty nodes** restyles each of them once and gives their number.  If none
of those under the root asks above it, no node under the root is dirty afterwards, and the next
pass meets detached nodes only.  If one of them does, the root is dirty again. -/
theorem restyleDirty_converges (hd : d.Reachable) :
    (∃ order : List NodeId, order.Nodup ∧ (∀ id, id ∈ order ↔ d.isDirty id = true) ∧
      d.restyleDirty = (d.restyleEach order, order.length)) ∧
    ((∀ id ∈ d.subtree .root, d.isDirty id = true → ¬d.AsksAboveRoot id) →
      (∀ id ∈ d.restyleDirty.1.subtree .root, d.restyleDirty.1.isDirty id = false) ∧
        ∀ id ∈ d.restyleDirty.1.dirtyNodes, id ∉ d.restyleDirty.1.subtree .root) ∧
    ∀ id ∈ d.subtree .root, d.isDirty id = true → d.AsksAboveRoot id →
      d.restyleDirty.1.isDirty .root = true := by
  have hforest := hd.isForest
  refine ⟨⟨d.dirtyNodes, hforest.nodup_dirtyNodes, fun _ => mem_dirtyNodes_iff, rfl⟩,
    fun hasks => ?_, fun id hid hdirty hasks =>
      hforest.isDirty_root_restyleDirty hid hdirty hasks⟩
  have hclean : ∀ id ∈ d.restyleDirty.1.subtree .root, d.restyleDirty.1.isDirty id = false := by
    intro id hid
    rw [(keeps_restyleDirty d).mem_subtree_iff hforest] at hid
    exact hforest.isDirty_restyleDirty_eq_false hasks hid
  refine ⟨hclean, fun id hdirty hid => ?_⟩
  rw [mem_dirtyNodes_iff, hclean id hid] at hdirty
  cases hdirty

/-- A text under a root that has an id and a sheet with one rule. -/
def rootedSample (s : Selector) : Document :=
  Document.new.perform (.create "text")
    |>.perform (.append .root ⟨1⟩)
    |>.perform (.setId .root "top")
    |>.perform (.setSheet .root (some
      { serial := 0
        sheet := { rules := [.style
          { selectors := [s], declaration := .empty, text := s.text, order := 0 }] } }))

theorem reachable_rootedSample (s : Selector) : (rootedSample s).Reachable :=
  .perform (.perform (.perform (.perform (.new {}) trivial) trivial) trivial) trivial

/-- The selector `#top > text`. -/
def textInTop : Selector where
  subject := ⟨.element, "text", none⟩
  links := [⟨.child, ⟨.id, "top", none⟩⟩]

/-- The selector `div > #top`. -/
def topInDiv : Selector where
  subject := ⟨.id, "top", none⟩
  links := [⟨.child, ⟨.element, "div", none⟩⟩]

/-- A rule for children of the root leaves nothing dirty. -/
theorem restyleDirty_converges_textInTop :
    (rootedSample textInTop).Reachable ∧ (rootedSample textInTop).dirtyNodes = [.root, ⟨1⟩] ∧
      ∀ id ∈ (rootedSample textInTop).restyleDirty.1.subtree .root,
        (rootedSample textInTop).restyleDirty.1.isDirty id = false := by
  have hreach := reachable_rootedSample textInTop
  obtain ⟨-, hconverges, -⟩ := restyleDirty_converges hreach
  refine ⟨hreach, by decide, (hconverges fun id hid _ hasks => ?_).1⟩
  have hmarked := (hreach.isForest.root_mem_unsettled_iff_asksAboveRoot hid).mpr hasks
  have hnone : ∀ id ∈ (rootedSample textInTop).subtree .root,
      .root ∉ (rootedSample textInTop).unsettled id := by decide
  exact hnone id hid hmarked

/-- Under a rule that asks for a parent of the root, the next pass meets the root again. -/
theorem root_mem_dirtyNodes_restyleDirty_topInDiv :
    (rootedSample topInDiv).Reachable ∧
      .root ∈ (rootedSample topInDiv).restyleDirty.1.subtree .root ∧
      .root ∈ (rootedSample topInDiv).restyleDirty.1.dirtyNodes := by
  have hreach := reachable_rootedSample topInDiv
  have hroot : .root ∈ (rootedSample topInDiv).subtree .root := by decide
  have hmarked : .root ∈ (rootedSample topInDiv).unsettled .root := by decide
  have hasks := (hreach.isForest.root_mem_unsettled_iff_asksAboveRoot hroot).mp hmarked
  have hdirty := hreach.isForest.isDirty_root_restyleDirty hroot (by decide) hasks
  exact ⟨hreach, by decide, mem_dirtyNodes_iff.mpr hdirty⟩

end Document
end StyleCascade
