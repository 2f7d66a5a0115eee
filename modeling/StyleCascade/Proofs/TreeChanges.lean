import StyleCascade.Proofs.Forest

/-!
# Changes to the tree

Detaching a node cuts one link, and attaching one adds a link below a node that does not
stand under it.  Both lead from a forest to a forest (`IsForest.removeChild`,
`IsForest.attach`), and so does appending, which does one after the other.
-/
namespace StyleCascade
namespace Document

variable {d e : Document}

/-! ## Links -/

/-- A document with the links of a forest is one, if it has a root. -/
theorem IsForest.congr (hd : d.IsForest) (hroot : e.contains .root = true)
    (hparent : ∀ id, e.parent? id = d.parent? id)
    (hchildren : ∀ id, e.children id = d.children id) : e.IsForest where
  root_exists := hroot
  parent_root := (hparent .root).trans hd.parent_root
  mem_children_iff parent child := by
    rw [hchildren, hparent]
    exact hd.mem_children_iff parent child
  nodup_children parent := by
    rw [hchildren]
    exact hd.nodup_children parent
  acyclic := by
    refine Subrelation.wf (fun {parent child} h => ?_) hd.acyclic
    exact (hparent child).symm.trans h

theorem children_eq_of_map (id : NodeId)
    (h : (e.node? id).map (·.children) = (d.node? id).map (·.children)) :
    e.children id = d.children id := by
  rw [children, children, h]

theorem parent?_eq_of_map (id : NodeId)
    (h : (e.node? id).map (·.parent) = (d.node? id).map (·.parent)) :
    e.parent? id = d.parent? id :=
  bind_eq_of_map h

/-- Nodes that keep their links form a forest still. -/
theorem IsForest.of_nodes (hd : d.IsForest)
    (h : ∀ id, (e.node? id).map Node.links =
      (d.node? id).map Node.links) : e.IsForest := by
  refine hd.congr ?_ (fun id => parent?_eq_of_map id ?_) fun id => children_eq_of_map id ?_
  · have hroot := congrArg Option.isSome (h .root)
    rw [Option.isSome_map, Option.isSome_map] at hroot
    exact hroot.trans hd.root_exists
  · have hfst := congrArg (Option.map Prod.fst) (h id)
    rwa [Option.map_map, Option.map_map] at hfst
  · have hsnd := congrArg (Option.map Prod.snd) (h id)
    rwa [Option.map_map, Option.map_map] at hsnd

/-! ## One link changed -/

/-- The document in which `parent` has its list of children changed by `f`, and `child` its
parent set to `p`. -/
def relink (d : Document) (parent child : NodeId) (f : List NodeId → List NodeId)
    (p : Option NodeId) : Document :=
  (d.modify parent fun n => { n with children := f n.children }).modify child fun n =>
    { n with parent := p }

section Relink
variable {parent child : NodeId} (f : List NodeId → List NodeId) (p : Option NodeId)

theorem parent?_relink (hc : d.contains child = true) (id : NodeId) :
    (d.relink parent child f p).parent? id = if child = id then p else d.parent? id := by
  have hkeeps : Keeps Node.parent d
      (d.modify parent fun n => { n with children := f n.children }) :=
    keeps_modify d parent fun _ => rfl
  rw [relink, parent?, node?_modify]
  by_cases h : child = id
  · subst h
    obtain ⟨n, hn⟩ := Option.isSome_iff_exists.mp ((hkeeps.contains child).trans hc)
    rw [if_pos rfl, if_pos rfl, hn]
    rfl
  · rw [if_neg h, if_neg h]
    exact hkeeps.parent? id

theorem children_relink (hp : d.contains parent = true) (id : NodeId) :
    (d.relink parent child f p).children id =
      if parent = id then f (d.children id) else d.children id := by
  have hkeeps : Keeps Node.children (d.modify parent fun n => { n with children := f n.children })
      (d.relink parent child f p) := keeps_modify _ child fun _ => rfl
  refine (hkeeps.field id).trans ?_
  refine (field_modify Node.children (g := f) d parent id fun _ => by rfl).trans ?_
  by_cases hid : parent = id
  · subst hid
    rw [if_pos ⟨rfl, hp⟩, if_pos rfl]
    rfl
  · rw [if_neg fun hand => hid hand.1, if_neg hid]
    rfl

end Relink

/-! ## New nodes -/

theorem parent?_create (d : Document) (tag : String) (id : NodeId) :
    (d.create tag).2.parent? id = d.parent? id := by
  rw [parent?, node?_create]
  split
  · rename_i h
    have hnone : d.node? id = none := by simp [h, create, node?]
    rw [parent?, hnone]
    rfl
  · rfl

theorem children_create (d : Document) (tag : String) (id : NodeId) :
    (d.create tag).2.children id = d.children id := by
  rw [children, node?_create]
  split
  · rename_i h
    have hnone : d.node? id = none := by simp [h, create, node?]
    rw [children, hnone]
    rfl
  · rfl

theorem contains_create {id : NodeId} (h : d.contains id = true) (tag : String) :
    (d.create tag).2.contains id = true := by
  rw [contains, node?_create]
  split
  · rfl
  · exact h

theorem IsForest.create (hd : d.IsForest) (tag : String) : (d.create tag).2.IsForest :=
  hd.congr (contains_create hd.root_exists tag) (parent?_create d tag) (children_create d tag)

/-! ## Detaching -/

theorem removeChild_of_mem {parent child : NodeId} (h : child ∈ d.children parent) :
    (d.removeChild parent child).1 =
      (d.relink parent child (List.filter (· ≠ child)) none).markSubtreeDirty child := by
  rw [removeChild, if_pos h]
  rfl

theorem removeChild_of_notMem {parent child : NodeId} (h : child ∉ d.children parent) :
    (d.removeChild parent child).1 = d := by
  rw [removeChild, if_neg h]

theorem IsForest.parent?_removeChild (hd : d.IsForest) {parent child : NodeId}
    (h : child ∈ d.children parent) (id : NodeId) :
    (d.removeChild parent child).1.parent? id = if child = id then none else d.parent? id := by
  have hc : d.contains child = true :=
    contains_of_parent? ((hd.mem_children_iff parent child).mp h)
  rw [removeChild_of_mem h, ← parent?_relink (List.filter (· ≠ child)) none hc id]
  exact ((keeps_markDirty _ _).map Node.parent).parent? id

theorem children_removeChild {parent child : NodeId} (h : child ∈ d.children parent)
    (id : NodeId) :
    (d.removeChild parent child).1.children id =
      if parent = id then (d.children id).filter (· ≠ child) else d.children id := by
  rw [removeChild_of_mem h, ← children_relink _ none (contains_of_mem_children h) id]
  exact ((keeps_markDirty _ _).map Node.children).field id

/-- **Cutting a link** leaves a forest. -/
theorem IsForest.removeChild (hd : d.IsForest) (parent child : NodeId) :
    (d.removeChild parent child).1.IsForest := by
  by_cases h : child ∈ d.children parent
  case neg => rwa [removeChild_of_notMem h]
  have hparent : d.parent? child = some parent := (hd.mem_children_iff parent child).mp h
  refine ⟨?_, ?_, fun p c => ?_, fun p => ?_, ?_⟩
  · rw [(keeps_removeChild d parent child).contains, hd.root_exists]
  · rw [hd.parent?_removeChild h]
    split
    · rfl
    · exact hd.parent_root
  · rw [children_removeChild h, hd.parent?_removeChild h]
    by_cases hc : child = c
    · subst hc
      have hnot : p ≠ parent → child ∉ d.children p := by
        intro hne hmem
        have hsame := (hd.mem_children_iff p child).mp hmem
        exact hne (Option.some.inj (hsame.symm.trans hparent))
      rw [if_pos rfl]
      by_cases hp : parent = p
      · simp [hp]
      · simp [hp, hnot (Ne.symm hp)]
    · rw [if_neg hc, ← hd.mem_children_iff]
      have hne : c ≠ child := Ne.symm hc
      by_cases hp : parent = p <;> simp [hp, hne]
  · rw [children_removeChild h]
    split
    · exact (hd.nodup_children p).filter _
    · exact hd.nodup_children p
  · refine Subrelation.wf (fun {p c} hpc => ?_) hd.acyclic
    rw [IsParent, hd.parent?_removeChild h] at hpc
    split at hpc
    · cases hpc
    · exact hpc

theorem IsForest.detach (hd : d.IsForest) (child : NodeId) : (d.detach child).IsForest := by
  rw [Document.detach]
  split
  · exact hd.removeChild _ child
  · exact hd

/-- A detached node has no parent. -/
theorem IsForest.parent?_detach (hd : d.IsForest) (child id : NodeId) :
    (d.detach child).parent? id = if child = id then none else d.parent? id := by
  rw [Document.detach]
  split
  · rename_i parent hparent
    exact hd.parent?_removeChild ((hd.mem_children_iff parent child).mpr hparent) id
  · rename_i hnone
    by_cases h : child = id
    · subst h
      rw [if_pos rfl, hnone]
    · rw [if_neg h]

/-! ## Attaching -/

theorem parent?_attach {parent child : NodeId} (hc : d.contains child = true) (id : NodeId) :
    (d.attach parent child).parent? id = if child = id then some parent else d.parent? id := by
  rw [← parent?_relink (· ++ [child]) (some parent) hc id]
  exact ((keeps_markDirty _ _).map Node.parent).parent? id

theorem children_attach {parent child : NodeId} (hp : d.contains parent = true) (id : NodeId) :
    (d.attach parent child).children id =
      if parent = id then d.children id ++ [child] else d.children id := by
  rw [← children_relink (· ++ [child]) (some parent) hp id]
  exact ((keeps_markDirty _ _).map Node.children).field id

/-- **Adding a link** below a node that does not stand under the new child leaves a
forest. -/
theorem IsForest.attach (hd : d.IsForest) {parent child : NodeId}
    (hp : d.contains parent = true) (hc : d.contains child = true)
    (hnone : d.parent? child = none) (hroot : child ≠ .root) (hne : parent ≠ child)
    (habove : child ∉ d.ancestors parent) : (d.attach parent child).IsForest := by
  refine ⟨?_, ?_, fun p c => ?_, fun p => ?_, ?_⟩
  · rw [(keeps_attach d parent child).contains, hd.root_exists]
  · rw [parent?_attach hc, if_neg hroot, hd.parent_root]
  · have hfree : child ∉ d.children p := by
      intro hmem
      rw [hd.mem_children_iff, hnone] at hmem
      cases hmem
    rw [children_attach hp, parent?_attach hc]
    by_cases hchild : child = c
    · subst hchild
      rw [if_pos rfl, Option.some.injEq]
      by_cases hpp : parent = p <;> simp [hpp, hfree]
    · rw [if_neg hchild, ← hd.mem_children_iff]
      have hne' : c ≠ child := Ne.symm hchild
      by_cases hpp : parent = p <;> simp [hpp, hne']
  · rw [children_attach hp]
    split
    · rename_i hpp
      refine List.nodup_append.mpr ⟨hd.nodup_children p, List.nodup_singleton _, ?_⟩
      rintro x hx y hy rfl
      obtain rfl := List.mem_singleton.mp hy
      rw [hd.mem_children_iff, hnone] at hx
      cases hx
    · exact hd.nodup_children p
  · -- Chains that avoid the child are as before; the child hangs on the end of one of them.
    have havoid : ∀ id, id ≠ child → child ∉ d.ancestors id →
        Acc (d.attach parent child).IsParent id := by
      intro id
      induction id using hd.acyclic.induction with
      | _ id ih =>
        intro hid hchain
        refine Acc.intro id fun p hparent => ?_
        rw [IsParent, parent?_attach hc, if_neg (Ne.symm hid)] at hparent
        rw [hd.ancestors_eq hparent, List.mem_cons, not_or] at hchain
        obtain ⟨hpne, hpchain⟩ := hchain
        exact ih p hparent (Ne.symm hpne) hpchain
    have hchildAcc : Acc (d.attach parent child).IsParent child := by
      refine Acc.intro child fun p hparent => ?_
      rw [IsParent, parent?_attach hc, if_pos rfl] at hparent
      obtain rfl := Option.some.inj hparent
      exact havoid parent hne habove
    -- From any other node the walk is the old one until it meets the child, if it does.
    refine ⟨fun id => ?_⟩
    induction id using hd.acyclic.induction with
    | _ id ih =>
      by_cases hid : child = id
      · exact hid ▸ hchildAcc
      · refine Acc.intro id fun p hparent => ?_
        rw [IsParent, parent?_attach hc, if_neg hid] at hparent
        exact ih p hparent

/-- What `canAppend` asks for, on the document from which the child has been detached. -/
theorem IsForest.canAppend_detach (hd : d.IsForest) {parent child : NodeId}
    (h : d.canAppend parent child = true) :
    parent ≠ child ∧ child ≠ .root ∧ (d.detach child).contains parent = true ∧
      (d.detach child).contains child = true ∧ child ∉ (d.detach child).ancestors parent := by
  simp only [canAppend, Bool.and_eq_true, decide_eq_true_eq] at h
  obtain ⟨⟨⟨⟨hne, hp⟩, hc⟩, hroot⟩, habove⟩ := h
  have hkeeps := keeps_detach d child
  refine ⟨hne, hroot, (hkeeps.contains _).trans hp, (hkeeps.contains _).trans hc, ?_⟩
  rw [hd.ancestors_congr (hd.detach child) fun a ha => ?_]
  · exact habove
  · rw [hd.parent?_detach, if_neg]
    rintro rfl
    rcases List.mem_cons.mp ha with rfl | ha
    · exact hne rfl
    · exact habove ha

theorem IsForest.append (hd : d.IsForest) (parent child : NodeId) :
    (d.append parent child).1.IsForest := by
  rw [Document.append]
  split
  · rename_i h
    split
    · exact hd
    · obtain ⟨hne, hroot, hp, hc, habove⟩ := hd.canAppend_detach h
      refine (hd.detach child).attach hp hc ?_ hroot hne habove
      rw [hd.parent?_detach, if_pos rfl]
  · exact hd

end Document
end StyleCascade
