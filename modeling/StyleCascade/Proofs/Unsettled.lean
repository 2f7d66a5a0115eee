import StyleCascade.Proofs.SelectorMeaning
import StyleCascade.Proofs.TreeOrder

/-!
# Nodes left unsettled

Matching a node marks some nodes at it or above it.  Of the nodes under the root it marks
those with a dirty parent and the root alone (`IsForest.of_mem_unsettled`), so where nothing
above a node is dirty only the root is left.  Whether the root is marked does not depend on
any mark: it is if a selector that does not match can be followed up to the root and asks
for a parent there (`IsForest.root_mem_unsettled_iff_asksAboveRoot`).
-/
namespace StyleCascade

/-! ## Attempts along a list of ancestors -/

section Attempts

variable {test : NodeId → List NodeId → Bool} {above further more : List NodeId} {a b : NodeId}

theorem suffix_of_mem_triedAbove (h : (a, further) ∈ triedAbove test above) :
    (a :: further) <:+ above := by
  induction above with
  | nil => cases h
  | cons c above ih =>
    rw [triedAbove] at h
    rcases List.mem_cons.mp h with heq | h
    · obtain ⟨rfl, rfl⟩ := Prod.mk.inj heq
      exact List.suffix_refl _
    · split at h
      · cases h
      · exact (ih h).trans (List.suffix_cons c above)

/-- A node that passes the test does not stand before one that is tried. -/
theorem suffix_of_triedAbove (h : (a, further) ∈ triedAbove test above)
    (hb : (b :: more) <:+ above) (hpass : test b more = true) : more <:+ further := by
  induction above with
  | nil => cases h
  | cons c above ih =>
    rw [triedAbove] at h
    rcases List.mem_cons.mp h with heq | h
    · obtain ⟨rfl, rfl⟩ := Prod.mk.inj heq
      rcases List.suffix_cons_iff.mp hb with heq | hb
      · obtain ⟨-, rfl⟩ := List.cons.inj heq
        exact List.suffix_refl _
      · exact (List.suffix_cons b more).trans hb
    · split at h
      · cases h
      · rename_i hfail
        rcases List.suffix_cons_iff.mp hb with heq | hb
        · obtain ⟨rfl, rfl⟩ := List.cons.inj heq
          exact absurd hpass hfail
        · exact ih h hb

/-- Where no node passes, all are tried. -/
theorem mem_triedAbove_of_anyAbove_eq_false (h : anyAbove test above = false)
    (ha : (a :: further) <:+ above) : (a, further) ∈ triedAbove test above := by
  induction above with
  | nil => cases List.suffix_nil.mp ha
  | cons c above ih =>
    rw [anyAbove, Bool.or_eq_false_iff] at h
    rw [triedAbove, if_neg (by simp [h.1])]
    rcases List.suffix_cons_iff.mp ha with heq | ha
    · obtain ⟨rfl, rfl⟩ := List.cons.inj heq
      exact List.mem_cons_self
    · exact List.mem_cons_of_mem _ (ih h.2 ha)

end Attempts

namespace Document

/-- From a node, links lead from ancestor to ancestor that fit their parts, up to a node
without parent at which a child link asks for one. -/
inductive ClimbsOut (d : Document) (Fits : NodeId → SimpleSelector → Prop) :
    NodeId → List SelectorLink → Prop
  | here {id : NodeId} {part : SimpleSelector} {links : List SelectorLink}
      (hroot : d.parent? id = none) : ClimbsOut d Fits id (⟨.child, part⟩ :: links)
  | step {id above : NodeId} {link : SelectorLink} {links : List SelectorLink}
      (hjoin : d.Joined link.combinator above id) (hfit : Fits above link.part)
      (hrest : ClimbsOut d Fits above links) : ClimbsOut d Fits id (link :: links)

/-- A selector of an active rule, whose subject fits the node, does not match it and climbs out
of the tree. -/
def AsksAboveRoot (d : Document) (id : NodeId) : Prop :=
  ∃ rule ∈ d.activeRules id, ∃ s ∈ rule.selectors,
    d.HasNameAndState id s.subject ∧ d.cascadeMatch s id = .none ∧
      d.ClimbsOut d.HasName id s.links

variable {d e : Document} {id x : NodeId} {links : List SelectorLink}

namespace IsForest

variable (hd : d.IsForest)
include hd

/-! ## Nodes under the root -/

theorem eq_root_of_parent?_eq_none (hid : id ∈ d.subtree .root) (h : d.parent? id = none) :
    id = .root := by
  rcases (hd.mem_subtree_iff.mp hid).2 with hroot | habove
  · exact hroot
  · rw [ancestors_of_parent?_eq_none h] at habove
    cases habove

theorem mem_subtree_root_of_parent? {parent : NodeId} (h : d.parent? id = some parent) :
    id ∈ d.subtree .root ↔ parent ∈ d.subtree .root := by
  have hne : id ≠ .root := by
    rintro rfl
    rw [hd.parent_root] at h
    cases h
  rw [hd.mem_subtree_iff, hd.mem_subtree_iff, hd.ancestors_eq h, List.mem_cons,
    contains_of_parent? h, hd.contains_parent h]
  constructor
  · rintro ⟨-, hroot | hroot | habove⟩
    · exact absurd hroot hne
    · exact ⟨rfl, .inl hroot.symm⟩
    · exact ⟨rfl, .inr habove⟩
  · rintro ⟨-, hroot | habove⟩
    · exact ⟨rfl, .inr (.inl hroot.symm)⟩
    · exact ⟨rfl, .inr (.inr habove)⟩

/-- A node stands under the root exactly if what is above it does. -/
theorem mem_subtree_root_of_mem_ancestors {a : NodeId} (h : a ∈ d.ancestors id) :
    id ∈ d.subtree .root ↔ a ∈ d.subtree .root := by
  rw [hd.mem_ancestors_iff] at h
  induction h with
  | single hparent => exact hd.mem_subtree_root_of_parent? hparent
  | tail _ hparent ih => exact (hd.mem_subtree_root_of_parent? hparent).trans ih

theorem getLast?_ancestors (hid : id ∈ d.subtree .root) :
    (d.ancestors id).getLast?.getD id = .root := by
  induction id using hd.acyclic.induction with
  | _ id ih =>
    cases hp : d.parent? id with
    | none =>
      rw [ancestors_of_parent?_eq_none hp]
      exact hd.eq_root_of_parent?_eq_none hid hp
    | some parent =>
      rw [hd.ancestors_eq hp, List.getLast?_cons]
      exact ih parent hp ((hd.mem_subtree_root_of_parent? hp).mp hid)

theorem mem_ancestors_of_joined {combinator : Combinator} {a : NodeId}
    (h : d.Joined combinator a id) : a ∈ d.ancestors id := by
  cases combinator with
  | child => exact hd.mem_ancestors_iff.mpr (.single h)
  | descendant => exact hd.mem_ancestors_iff.mpr h

theorem mem_subtree_root_of_joined {combinator : Combinator} {a : NodeId}
    (h : d.Joined combinator a id) (hid : id ∈ d.subtree .root) : a ∈ d.subtree .root :=
  (hd.mem_subtree_root_of_mem_ancestors (hd.mem_ancestors_of_joined h)).mp hid

/-! ## Which nodes are marked -/

section Marks

variable {fits : NodeId → SimpleSelector → Bool} {Fits : NodeId → SimpleSelector → Prop}
  {dirty : NodeId → Bool} {link : SelectorLink}

/-- A marked node has been marked on the way from a node that fits the first link, and the links
fit nowhere before that; or it is where the search starts, and under the root it is then the
root, at a child link, or has a dirty parent. -/
theorem mem_unsettled_cons
    (h : x ∈ SelectorLink.unsettled fits dirty (link :: links) id (d.ancestors id)) :
    (∃ a, d.Joined link.combinator a id ∧ fits a link.part = true ∧
      x ∈ SelectorLink.unsettled fits dirty links a (d.ancestors a) ∧
      ∀ above, above <:+ d.ancestors id →
        SelectorLink.allFit fits (link :: links) above = true →
        ∃ further, further <:+ d.ancestors a ∧ SelectorLink.allFit fits links further = true) ∨
    (x = id ∧ (x ∈ d.subtree .root → (x = .root ∧ link.combinator = .child) ∨
      ∃ parent, d.parent? x = some parent ∧ dirty parent = true)) := by
  obtain ⟨combinator, part⟩ := link
  cases combinator with
  | child =>
    cases hp : d.parent? id with
    | none =>
      rw [ancestors_of_parent?_eq_none hp, SelectorLink.unsettled] at h
      obtain rfl := List.mem_singleton.mp h
      exact .inr ⟨rfl, fun hx => .inl ⟨hd.eq_root_of_parent?_eq_none hx hp, rfl⟩⟩
    | some parent =>
      rw [hd.ancestors_eq hp, SelectorLink.unsettled] at h
      rcases List.mem_append.mp h with h | h
      · split at h
        · rename_i hfit
          refine .inl ⟨parent, hp, hfit, h, fun above habove hall => ?_⟩
          obtain ⟨a, further, rfl, -, hrest⟩ := SelectorLink.allFit_child_iff.mp hall
          refine ⟨further, ?_, hrest⟩
          rw [hd.ancestors_eq hp] at habove
          rcases List.suffix_cons_iff.mp habove with heq | habove
          · obtain ⟨-, rfl⟩ := List.cons.inj heq
            exact List.suffix_refl _
          · exact (List.suffix_cons a further).trans habove
        · cases h
      · split at h
        · cases h
        · rename_i hcond
          obtain rfl := List.mem_singleton.mp h
          rw [Bool.or_eq_true, not_or] at hcond
          have hdirty : dirty parent = true := by simpa using hcond.2
          exact .inr ⟨rfl, fun _ => .inr ⟨parent, hp, hdirty⟩⟩
  | descendant =>
    rw [SelectorLink.unsettled] at h
    rcases List.mem_append.mp h with h | h
    · obtain ⟨⟨a, further⟩, htried, h⟩ := List.mem_flatMap.mp h
      dsimp only at h
      split at h
      · rename_i hfit
        obtain ⟨nearer, heq⟩ := suffix_of_mem_triedAbove htried
        obtain rfl := hd.ancestors_of_append heq.symm
        have ha : a ∈ d.ancestors id := heq ▸ by simp
        refine .inl ⟨a, hd.mem_ancestors_iff.mp ha, hfit, h, fun above habove hall => ?_⟩
        obtain ⟨_, b, more, rfl, hb, hrest⟩ := SelectorLink.allFit_descendant_iff.mp hall
        refine ⟨more, suffix_of_triedAbove htried ((List.suffix_append _ _).trans habove) ?_, hrest⟩
        rw [hb, hrest]
        rfl
      · cases h
    · split at h
      · cases h
      · rename_i hcond
        obtain rfl := List.mem_singleton.mp h
        rw [Bool.or_eq_true, not_or] at hcond
        refine .inr ⟨rfl, fun hx => absurd (hd.getLast?_ancestors hx) ?_⟩
        simpa using hcond.2

/-- What is marked from a node that fits the first link is marked, unless the links fit. -/
theorem mem_unsettled_of_joined {a : NodeId} (hjoin : d.Joined link.combinator a id)
    (hfit : fits a link.part = true)
    (hfail : SelectorLink.allFit fits (link :: links) (d.ancestors id) = false)
    (h : x ∈ SelectorLink.unsettled fits dirty links a (d.ancestors a)) :
    x ∈ SelectorLink.unsettled fits dirty (link :: links) id (d.ancestors id) := by
  obtain ⟨combinator, part⟩ := link
  cases combinator with
  | child =>
    have hp : d.parent? id = some a := hjoin
    rw [hd.ancestors_eq hp, SelectorLink.unsettled, if_pos hfit]
    exact List.mem_append_left _ h
  | descendant =>
    obtain ⟨nearer, further, heq⟩ := List.append_of_mem (hd.mem_ancestors_of_joined hjoin)
    obtain rfl := hd.ancestors_of_append heq
    rw [SelectorLink.allFit] at hfail
    have htried := mem_triedAbove_of_anyAbove_eq_false hfail ⟨nearer, heq.symm⟩
    rw [SelectorLink.unsettled]
    refine List.mem_append_left _ (List.mem_flatMap.mpr ⟨_, htried, ?_⟩)
    dsimp only
    rwa [if_pos hfit]

/-- **What matching leaves unsettled** stands at the node or above it; under the root it is
the root, or has a dirty parent. -/
theorem mem_unsettled
    (h : x ∈ SelectorLink.unsettled fits dirty links id (d.ancestors id)) :
    (x = id ∨ x ∈ d.ancestors id) ∧ (x ∈ d.subtree .root →
      x = .root ∨ ∃ parent, d.parent? x = some parent ∧ dirty parent = true) := by
  induction links generalizing id with
  | nil => cases h
  | cons link links ih =>
    rcases hd.mem_unsettled_cons h with ⟨a, hjoin, -, hrest, -⟩ | ⟨rfl, hcause⟩
    · obtain ⟨hplace, hcause⟩ := ih hrest
      have ha := hd.mem_ancestors_of_joined hjoin
      refine ⟨.inr ?_, hcause⟩
      rcases hplace with rfl | hplace
      · exact ha
      · rw [hd.mem_ancestors_iff] at ha hplace ⊢
        exact hplace.trans ha
    · exact ⟨.inl rfl, fun hx => (hcause hx).imp_left And.left⟩

/-! ## When the root is marked -/

/-- Where the root is marked, the links fit nowhere from the node upwards. -/
theorem allFit_eq_false_of_root_mem_unsettled (hid : id ∈ d.subtree .root)
    (h : .root ∈ SelectorLink.unsettled fits dirty links id (d.ancestors id))
    {above : List NodeId} (habove : above <:+ d.ancestors id) :
    SelectorLink.allFit fits links above = false := by
  induction links generalizing id above with
  | nil => cases h
  | cons link links ih =>
    refine Bool.eq_false_iff.mpr fun hall => ?_
    rcases hd.mem_unsettled_cons h with ⟨a, hjoin, -, hrest, hbefore⟩ | ⟨rfl, hcause⟩
    · have hattached := hd.mem_subtree_root_of_joined hjoin hid
      obtain ⟨further, hfurther, hfit⟩ := hbefore above habove hall
      exact absurd hfit (Bool.eq_false_iff.mp (ih hattached hrest hfurther))
    · -- The root has no ancestors, and both kinds of links need one.
      rw [ancestors_of_parent?_eq_none hd.parent_root] at habove
      cases List.suffix_nil.mp habove
      obtain ⟨combinator, part⟩ := link
      cases combinator <;> cases hall

theorem climbsOut_of_root_mem_unsettled
    (hfits : ∀ id part, fits id part = true ↔ Fits id part)
    (hid : id ∈ d.subtree .root)
    (h : .root ∈ SelectorLink.unsettled fits dirty links id (d.ancestors id)) :
    d.ClimbsOut Fits id links := by
  induction links generalizing id with
  | nil => cases h
  | cons link links ih =>
    rcases hd.mem_unsettled_cons h with ⟨a, hjoin, hfit, hrest, -⟩ | ⟨rfl, hcause⟩
    · have hattached := hd.mem_subtree_root_of_joined hjoin hid
      exact .step hjoin ((hfits _ _).mp hfit) (ih hattached hrest)
    · rcases hcause hid with ⟨-, hchild⟩ | ⟨parent, hp, -⟩
      · obtain ⟨combinator, part⟩ := link
        cases hchild
        exact .here hd.parent_root
      · rw [hd.parent_root] at hp
        cases hp

/-- **The root is marked** exactly if the links climb out and do not fit. -/
theorem root_mem_unsettled_iff (hfits : ∀ id part, fits id part = true ↔ Fits id part)
    (hid : id ∈ d.subtree .root) :
    .root ∈ SelectorLink.unsettled fits dirty links id (d.ancestors id) ↔
      d.ClimbsOut Fits id links ∧ SelectorLink.allFit fits links (d.ancestors id) = false := by
  refine ⟨fun h => ⟨hd.climbsOut_of_root_mem_unsettled hfits hid h,
    hd.allFit_eq_false_of_root_mem_unsettled hid h (List.suffix_refl _)⟩, ?_⟩
  rintro ⟨hclimbs, hfail⟩
  induction hclimbs with
  | here hroot =>
    obtain rfl := hd.eq_root_of_parent?_eq_none hid hroot
    rw [ancestors_of_parent?_eq_none hroot, SelectorLink.unsettled]
    exact List.mem_singleton.mpr rfl
  | @step id a link links hjoin hfit _ ih =>
    have hattached := hd.mem_subtree_root_of_joined hjoin hid
    have hfailAt : SelectorLink.allFit fits links (d.ancestors a) = false := by
      refine Bool.eq_false_iff.mpr fun hall => Bool.eq_false_iff.mp hfail ?_
      obtain ⟨nodes, hchain⟩ := (hd.allFit_iff hfits links a).mp hall
      exact (hd.allFit_iff hfits (link :: links) id).mpr ⟨_, .cons hjoin hfit hchain⟩
    exact hd.mem_unsettled_of_joined hjoin ((hfits _ _).mpr hfit) hfail (ih hattached hfailAt)

end Marks

end IsForest

/-! ## The nodes that matching leaves unsettled -/

theorem exists_of_mem_unsettled (h : x ∈ d.unsettled id) :
    ∃ rule ∈ d.activeRules id, ∃ s ∈ rule.selectors, x ∈ d.cascadeUnsettled s id := by
  obtain ⟨rule, hrule, h⟩ := List.mem_flatMap.mp h
  obtain ⟨s, hs, h⟩ := List.mem_flatMap.mp h
  exact ⟨rule, hrule, s, hs, h⟩

theorem ClimbsOut.imp {Fits Fits' : NodeId → SimpleSelector → Prop} (h : d.ClimbsOut Fits id links)
    (hfits : ∀ link ∈ links, ∀ a, Fits a link.part → Fits' a link.part) :
    d.ClimbsOut Fits' id links := by
  induction h with
  | here hroot => exact .here hroot
  | step hjoin hfit _ ih =>
    exact .step hjoin (hfits _ List.mem_cons_self _ hfit)
      (ih fun link hlink => hfits link (List.mem_cons_of_mem _ hlink))

/-- Where no part above the subject has a state, climbing out is a matter of names. -/
theorem climbsOut_iff_of_not_dependent {s : Selector} (h : s.isStateDependent = false) :
    d.ClimbsOut d.HasNameAndState id s.links ↔ d.ClimbsOut d.HasName id s.links := by
  have hsame : ∀ link ∈ s.links, ∀ a,
      d.HasNameAndState a link.part ↔ d.HasName a link.part := by
    intro link hlink a
    have hstateless : link.part.hasState = false := by
      simpa using List.any_eq_false.mp h link hlink
    rw [← fits_iff, ← fitsShape_iff, fits_of_stateless d a hstateless]
  constructor
  · exact fun hclimbs => hclimbs.imp fun link hlink a => (hsame link hlink a).mp
  · exact fun hclimbs => hclimbs.imp fun link hlink a => (hsame link hlink a).mpr

namespace IsForest

variable (hd : d.IsForest)
include hd

theorem root_mem_cascadeUnsettled_iff (hid : id ∈ d.subtree .root) (s : Selector) :
    .root ∈ d.cascadeUnsettled s id ↔
      d.HasNameAndState id s.subject ∧ d.cascadeMatch s id = .none ∧
        d.ClimbsOut d.HasName id s.links := by
  rw [← fits_iff, cascadeUnsettled, cascadeMatch]
  cases hsubject : d.fits id s.subject with
  | false => simp
  | true =>
    cases hdep : s.isStateDependent with
    | true =>
      have hroot : .root ∈ SelectorLink.unsettled d.fitsShape d.isDirty s.links id
          (d.ancestors id) ↔ _ := hd.root_mem_unsettled_iff fitsShape_iff hid
      simp [hroot, and_comm]
    | false =>
      have hroot : .root ∈ SelectorLink.unsettled d.fits d.isDirty s.links id
          (d.ancestors id) ↔ _ := hd.root_mem_unsettled_iff fits_iff hid
      rw [climbsOut_iff_of_not_dependent hdep] at hroot
      simp [hroot, and_comm]

/-- **The root is left unsettled** exactly by the nodes that ask above it. -/
theorem root_mem_unsettled_iff_asksAboveRoot (hid : id ∈ d.subtree .root) :
    .root ∈ d.unsettled id ↔ d.AsksAboveRoot id := by
  constructor
  · intro h
    obtain ⟨rule, hrule, s, hs, h⟩ := exists_of_mem_unsettled h
    exact ⟨rule, hrule, s, hs, (hd.root_mem_cascadeUnsettled_iff hid s).mp h⟩
  · rintro ⟨rule, hrule, s, hs, h⟩
    refine List.mem_flatMap.mpr ⟨rule, hrule, List.mem_flatMap.mpr ⟨s, hs, ?_⟩⟩
    exact (hd.root_mem_cascadeUnsettled_iff hid s).mpr h

/-- **All other nodes under the root** that are left unsettled have a dirty parent. -/
theorem of_mem_unsettled (h : x ∈ d.unsettled id) :
    (x = id ∨ x ∈ d.ancestors id) ∧ (x ∈ d.subtree .root →
      x = .root ∨ ∃ parent, d.parent? x = some parent ∧ d.isDirty parent = true) := by
  obtain ⟨rule, -, s, -, h⟩ := exists_of_mem_unsettled h
  rw [cascadeUnsettled] at h
  split at h
  · exact hd.mem_unsettled h
  · cases h

end IsForest

/-! ## Restyling keeps what asks above the root -/

theorem ClimbsOut.of_keeps (h : Keeps Node.apartFromStyling d e)
    (hclimbs : d.ClimbsOut d.HasName id links) : e.ClimbsOut e.HasName id links := by
  have hparent : ∀ id, e.parent? id = d.parent? id := (h.map (·.parent)).parent?
  induction hclimbs with
  | here hroot => exact .here ((hparent _).trans hroot)
  | @step id a link links hjoin hfit _ ih =>
    refine .step ?_ ?_ ih
    · cases hcombinator : link.combinator with
      | child =>
        rw [hcombinator] at hjoin
        exact (hparent id).trans hjoin
      | descendant =>
        rw [hcombinator] at hjoin
        have hle : d.IsParent ≤ e.IsParent := fun _ child hparents =>
          (hparent child).trans hparents
        exact Relation.TransGen.mono hle a id hjoin
    · have hsame : e.fitsShape a link.part = d.fitsShape a link.part :=
        (h.map (·.fitsShape link.part)).any a
      rwa [← fitsShape_iff, hsame, fitsShape_iff]

theorem AsksAboveRoot.of_keeps (h : Keeps Node.apartFromStyling d e) (hasks : d.AsksAboveRoot id) :
    e.AsksAboveRoot id := by
  obtain ⟨rule, hrule, s, hs, hsubject, hmatch, hclimbs⟩ := hasks
  refine ⟨rule, ?_, s, hs, ?_, (h.cascadeMatch id s).trans hmatch, hclimbs.of_keeps h⟩
  · rwa [h.activeRules]
  · have hsame : e.fits id s.subject = d.fits id s.subject := (h.map (·.fits s.subject)).any id
    rwa [← fits_iff, hsame, fits_iff]

end Document
end StyleCascade
