import StyleCascade.Proofs.SheetOwners
import StyleCascade.Proofs.Unaffected

/-!
# What operations on the tree change

Appending, taking away a child and removing a node either refuse, and then the document is as it
was, or have an effect that is told node by node: which links are cut or made, and which marks
are set (`Document.Cuts`, `Document.Moves`, `Document.Removes`).  Nothing else changes
(`Document.effects_of_reachable`).

What stands below a node does not depend on the node's own parent (`IsForest.mem_subtree_congr`).
So the nodes that are marked, or dropped, are those of the subtree before the operation, although
the operation looks at the subtree only after it has cut or made the link.
-/
namespace StyleCascade
namespace Document

variable {d e f : Document} {parent child : NodeId}

/-! ## The effects -/

/-- `e` is `d` without the link from `parent` to `child`, and the subtree of `child` is marked. -/
structure Cuts (d e : Document) (parent child : NodeId) : Prop where
  rest : e = { d with slots := e.slots }
  size : e.slots.size = d.slots.size
  nodes : ∀ id, e.node? id = (d.node? id).map fun n => { n with
    parent := if id = child then none else n.parent
    children := if id = parent then n.children.filter (· ≠ child) else n.children
    dirty := n.dirty || decide (id ∈ d.subtree child) }

/-- `e` is `d` with `child` as the last child of `parent` and away from any other parent, and the
subtree of `child` is marked. -/
structure Moves (d e : Document) (parent child : NodeId) : Prop where
  rest : e = { d with slots := e.slots }
  size : e.slots.size = d.slots.size
  nodes : ∀ id, e.node? id = (d.node? id).map fun n => { n with
    parent := if id = child then some parent else n.parent
    children :=
      if id = parent then n.children ++ [child]
      else if d.parent? child = some id then n.children.filter (· ≠ child)
      else n.children
    dirty := n.dirty || decide (id ∈ d.subtree child) }

/-- `e` is `d` without the subtree of `top`.  The nodes that are left lose `top` as a child and
their part in listening that has to do with removed nodes; they listen to each other and own their
sheets as before. -/
structure Removes (d e : Document) (top : NodeId) : Prop where
  size : e.slots.size = d.slots.size
  sheets : e.sheets = d.sheets
  media : e.media = d.media
  owners : ∀ id ∉ d.subtree top, ∀ serial, (serial, id) ∈ e.owners ↔ (serial, id) ∈ d.owners
  gone : ∀ id ∈ d.subtree top, e.node? id = none
  left : ∀ id ∉ d.subtree top, (e.node? id).map Node.apartFromListening =
    (d.node? id).map fun n =>
      { n with children := n.children.filter (· ≠ top) }.apartFromListening
  listening : ∀ holder ∉ d.subtree top, ∀ leaf ∉ d.subtree top,
    e.listenersFor holder leaf = d.listenersFor holder leaf

/-! ## Node by node -/

theorem node?_markDirty (d : Document) (ids : List NodeId) (id : NodeId) :
    (d.markDirty ids).node? id =
      (d.node? id).map fun n => { n with dirty := n.dirty || decide (id ∈ ids) } := by
  induction ids generalizing d with
  | nil => cases h : d.node? id <;> simp [markDirty, h]
  | cons first rest ih =>
    rw [markDirty, List.foldl_cons, ← markDirty, ih, node?_modify]
    by_cases h : first = id
    · subst h
      cases d.node? first <;> simp
    · have hne : id ≠ first := Ne.symm h
      simp [h, hne]

theorem rest_trans (h : e = { d with slots := e.slots }) (h' : f = { e with slots := f.slots }) :
    f = { d with slots := f.slots } :=
  h'.trans (by rw [h])

theorem node?_relink (d : Document) (parent child : NodeId) (f : List NodeId → List NodeId)
    (p : Option NodeId) (id : NodeId) :
    (d.relink parent child f p).node? id = (d.node? id).map fun n => { n with
      parent := if id = child then p else n.parent
      children := if id = parent then f n.children else n.children } := by
  rw [relink, node?_modify, node?_modify]
  by_cases hc : child = id <;> by_cases hp : parent = id <;>
    cases d.node? id <;> simp [hc, hp, eq_comm]

theorem rest_markDirty (d : Document) (ids : List NodeId) :
    d.markDirty ids = { d with slots := (d.markDirty ids).slots } := by
  induction ids generalizing d with
  | nil => rfl
  | cons id rest ih => exact ih (d.modify id fun n => { n with dirty := true })

section Relinked
variable {f : List NodeId → List NodeId} {p : Option NodeId}

/-- The nodes that are marked after a change of the links at `child` are those that stood below it
before. -/
theorem IsForest.node?_relinked (hd : d.IsForest)
    (he : ((d.relink parent child f p).markSubtreeDirty child).IsForest)
    (hc : d.contains child = true) (id : NodeId) :
    ((d.relink parent child f p).markSubtreeDirty child).node? id =
      (d.node? id).map fun n => { n with
        parent := if id = child then p else n.parent
        children := if id = parent then f n.children else n.children
        dirty := n.dirty || decide (id ∈ d.subtree child) } := by
  have hmarks := keeps_markDirty (d.relink parent child f p)
    ((d.relink parent child f p).subtree child)
  have hrelinked : (d.relink parent child f p).IsForest :=
    he.of_nodes fun x => ((hmarks.map Node.links).nodes x).symm
  have hsame : id ∈ (d.relink parent child f p).subtree child ↔ id ∈ d.subtree child := by
    refine hd.mem_subtree_congr hrelinked (fun x => ?_) fun x hx => ?_
    · rw [contains, node?_relink, Option.isSome_map, contains]
    · rw [parent?_relink f p hc, if_neg (Ne.symm hx)]
  rw [markSubtreeDirty, node?_markDirty, node?_relink, Option.map_map, decide_eq_decide.mpr hsame]
  rfl

theorem rest_relinked (d : Document) :
    (d.relink parent child f p).markSubtreeDirty child =
      { d with slots := ((d.relink parent child f p).markSubtreeDirty child).slots } :=
  rest_markDirty _ _

theorem size_relinked (d : Document) :
    ((d.relink parent child f p).markSubtreeDirty child).slots.size = d.slots.size := by
  have hsize := (keeps_markDirty (d.relink parent child f p)
    ((d.relink parent child f p).subtree child)).size
  rw [markSubtreeDirty, hsize]
  simp [relink, modify]

end Relinked

/-! ## Taking away a child -/

theorem removeChild_snd (d : Document) (parent child : NodeId) :
    (d.removeChild parent child).2 = decide (child ∈ d.children parent) := by
  rw [removeChild]
  split
  · rename_i h
    exact (decide_eq_true h).symm
  · rename_i h
    exact (decide_eq_false h).symm

theorem IsForest.cuts_removeChild (hd : d.IsForest) (h : child ∈ d.children parent) :
    Cuts d (d.removeChild parent child).1 parent child := by
  have hc : d.contains child = true :=
    contains_of_parent? ((hd.mem_children_iff parent child).mp h)
  have hforest := hd.removeChild parent child
  rw [removeChild_of_mem h] at hforest ⊢
  exact ⟨rest_relinked d, size_relinked d, hd.node?_relinked hforest hc⟩

/-- Detaching cuts the link to the parent, if there is one. -/
theorem IsForest.node?_detach (hd : d.IsForest) (child id : NodeId) :
    (d.detach child).node? id = (d.node? id).map fun n => { n with
      parent := if id = child then none else n.parent
      children :=
        if d.parent? child = some id then n.children.filter (· ≠ child) else n.children
      dirty := n.dirty ||
        (decide (id ∈ d.subtree child) && (d.parent? child).isSome) } := by
  rw [Document.detach]
  split
  · rename_i parent hparent
    rw [(hd.cuts_removeChild ((hd.mem_children_iff parent child).mpr hparent)).nodes, hparent]
    simp only [Option.some.injEq, Option.isSome_some, Bool.and_true, eq_comm]
  · rename_i hnone
    cases hn : d.node? id with
    | none => rfl
    | some n =>
      have hparent : (if id = child then none else n.parent) = n.parent := by
        split
        · rename_i h
          rw [parent?, ← h, hn] at hnone
          exact hnone.symm
        · rfl
      simp [hnone, hparent]

theorem rest_removeChild (d : Document) (parent child : NodeId) :
    (d.removeChild parent child).1 = { d with slots := (d.removeChild parent child).1.slots } := by
  by_cases h : child ∈ d.children parent
  · rw [removeChild_of_mem h]
    exact rest_relinked d
  · rw [removeChild_of_notMem h]

theorem rest_detach (d : Document) (child : NodeId) :
    d.detach child = { d with slots := (d.detach child).slots } := by
  rw [detach]
  split
  · exact rest_removeChild d _ child
  · rfl

/-! ## Appending -/

theorem append_snd (d : Document) (parent child : NodeId) :
    (d.append parent child).2 = d.canAppend parent child := by
  rw [append]
  split
  · rename_i h
    rw [h]
    split <;> rfl
  · rename_i h
    exact (Bool.eq_false_iff.mpr h).symm

theorem IsForest.canAppend_eq_false_iff (hd : d.IsForest) :
    d.canAppend parent child = false ↔ parent = child ∨ d.contains parent = false ∨
      d.contains child = false ∨ child = .root ∨ d.IsAncestor child parent := by
  simp only [canAppend, Bool.and_eq_false_iff, decide_eq_false_iff_not, not_not,
    hd.mem_ancestors_iff, or_assoc, ne_eq]

theorem append_of_not_canAppend (h : d.canAppend parent child = false) :
    d.append parent child = (d, false) := by
  rw [append, if_neg (by simp [h])]

theorem append_of_parent? (h : d.canAppend parent child = true)
    (hparent : d.parent? child = some parent) : d.append parent child = (d, true) := by
  rw [append, if_pos h, if_pos hparent]

/-- **Moving a node** is to detach it and to attach it again; its subtree stays the same. -/
theorem IsForest.moves_append (hd : d.IsForest) (h : d.canAppend parent child = true)
    (hparent : d.parent? child ≠ some parent) :
    Moves d (d.append parent child).1 parent child := by
  obtain ⟨-, -, -, hc, -⟩ := hd.canAppend_detach h
  have hforest := hd.append parent child
  rw [Document.append, if_pos h, if_neg hparent] at hforest ⊢
  have hattached : (d.detach child).attach parent child =
      ((d.detach child).relink parent child (· ++ [child]) (some parent)).markSubtreeDirty child :=
    rfl
  rw [hattached] at hforest ⊢
  refine ⟨rest_trans (rest_detach d child) (rest_relinked _),
    (size_relinked _).trans (keeps_detach d child).size, fun id => ?_⟩
  have hsame : decide (id ∈ (d.detach child).subtree child) = decide (id ∈ d.subtree child) :=
    decide_eq_decide.mpr hd.mem_subtree_detach
  rw [(hd.detach child).node?_relinked hforest hc, hd.node?_detach, Option.map_map, hsame]
  refine congrArg (Option.map · (d.node? id)) (funext fun n => ?_)
  have hmarks : (n.dirty || (decide (id ∈ d.subtree child) && (d.parent? child).isSome) ||
      decide (id ∈ d.subtree child)) = (n.dirty || decide (id ∈ d.subtree child)) := by
    cases decide (id ∈ d.subtree child) <;> simp
  have hparents : (if id = child then some parent else if id = child then none else n.parent) =
      if id = child then some parent else n.parent := by
    split <;> rfl
  have hchildren : ∀ children : List NodeId,
      (if id = parent then
        (if d.parent? child = some id then children.filter (· ≠ child) else children) ++ [child]
      else if d.parent? child = some id then children.filter (· ≠ child) else children) =
      if id = parent then children ++ [child]
      else if d.parent? child = some id then children.filter (· ≠ child) else children := by
    intro children
    by_cases hid : id = parent
    · rw [hid, if_neg hparent]
    · rw [if_neg hid, if_neg hid]
  simp only [Function.comp_apply, hmarks, hparents, hchildren]

/-! ## Removing -/

theorem remove_snd (d : Document) (id : NodeId) :
    (d.remove id).2 = (decide (id ≠ .root) && d.contains id) := by
  rw [remove]
  by_cases hid : id = .root <;> cases d.contains id <;> simp [hid]

theorem remove_of_snd_eq_false {id : NodeId} (h : (d.remove id).2 = false) :
    d.remove id = (d, false) := by
  rw [remove] at h ⊢
  split at h
  · rename_i hrefused
    rw [if_pos hrefused]
  · cases h

theorem mem_owners_dropAll {removed : List NodeId} {id : NodeId} (h : id ∉ removed)
    (d : Document) (serial : Nat) :
    (serial, id) ∈ (d.dropAll removed).owners ↔ (serial, id) ∈ d.owners := by
  have hdrop : ∀ d : Document,
      (serial, id) ∈ (removed.foldl dropNode d).owners ↔ (serial, id) ∈ d.owners := by
    induction removed with
    | nil => exact fun _ => Iff.rfl
    | cons first rest ih =>
      obtain ⟨hne, hrest⟩ := not_or.mp (List.mem_cons.not.mp h)
      intro d
      rw [List.foldl_cons, ih hrest, mem_owners_dropNode]
      exact and_iff_left fun hand => hne hand.1
  rw [dropAll, hdrop, owners_foldl owners_releaseListeners]

/-- **Removing a node** takes away its subtree; what the others lose by it is the link to it. -/
theorem IsForest.removes_remove (hd : d.IsForest) {top : NodeId} (h : (d.remove top).2 = true) :
    Removes d (d.remove top).1 top := by
  have hallowed : ¬(top = .root ∨ ¬d.contains top) := by
    intro hnot
    rw [Document.remove, if_pos hnot] at h
    cases h
  have htop : top ∈ d.subtree top :=
    hd.mem_subtree_iff.mpr ⟨by simpa using fun hc => hallowed (.inr hc), .inl rfl⟩
  have hmem : ∀ {id}, id ∈ (d.detach top).subtree top ↔ id ∈ d.subtree top := hd.mem_subtree_detach
  have hkeeps := keeps_detach d top
  have hprune := prunes_dropAll (d.detach top) ((d.detach top).subtree top)
  rw [remove_eq, if_neg hallowed]
  refine ⟨hprune.size.trans hkeeps.size, hprune.sheets.trans hkeeps.sheets,
    hprune.media.trans hkeeps.media, fun id hid serial => ?_,
    fun id hid => hprune.node?_eq_none (hmem.mpr hid), fun id hid => ?_,
    fun holder hholder leaf hleaf => ?_⟩
  · rw [mem_owners_dropAll (mt hmem.mp hid), owners_detach]
  · rw [hprune.nodes_of_notMem (mt hmem.mp hid), hd.node?_detach, Option.map_map]
    cases hn : d.node? id with
    | none => rfl
    | some n =>
      have hne : id ≠ top := fun heq => hid (heq ▸ htop)
      -- Only the parent of `top` has it among its children.
      have hchildren : (if d.parent? top = some id then n.children.filter (· ≠ top)
          else n.children) = n.children.filter (· ≠ top) := by
        split
        · rfl
        · rename_i hnot
          refine (List.filter_eq_self.mpr fun c hc => ?_).symm
          have hlink : d.parent? c = some id :=
            (hd.mem_children_iff id c).mp (by rwa [children, hn])
          exact decide_eq_true fun heq => hnot (heq ▸ hlink)
      have hmark : (n.dirty || (decide (id ∈ d.subtree top) && (d.parent? top).isSome)) =
          n.dirty := by
        rw [decide_eq_false hid, Bool.false_and, Bool.or_false]
      simp only [Option.map_some, Function.comp_apply, if_neg hne, hchildren, hmark]
  · rw [listenersFor_dropAll _ (mt hmem.mp hleaf), if_neg (mt hmem.mp hholder)]
    exact listenersFor_congr ((hkeeps.map Node.listeners).listenersOf holder) leaf

/-! ## Exactly that -/

/-- **Operations on the tree change exactly what they say.**  Appending refuses a node that is to
stand under itself or under a node below it, the root, and handles of no node; removing refuses the
root and handles of no node; and what is no child of a node cannot be taken from it.  A refusal
changes nothing, and neither does appending a child that is in place.  Otherwise the links change as
asked and the subtree in question is marked or gone, and all else is as before. -/
theorem effects_of_reachable (hd : d.Reachable) (parent child top : NodeId) :
    ((d.append parent child).2 = false ↔ parent = child ∨ d.contains parent = false ∨
        d.contains child = false ∨ child = .root ∨ d.IsAncestor child parent) ∧
      ((d.append parent child).2 = false ∨ child ∈ d.children parent →
        (d.append parent child).1 = d) ∧
      ((d.append parent child).2 = true → child ∉ d.children parent →
        Moves d (d.append parent child).1 parent child) ∧
      ((d.removeChild parent child).2 = true ↔ child ∈ d.children parent) ∧
      ((d.removeChild parent child).2 = false → (d.removeChild parent child).1 = d) ∧
      ((d.removeChild parent child).2 = true →
        Cuts d (d.removeChild parent child).1 parent child) ∧
      ((d.remove top).2 = false ↔ top = .root ∨ d.contains top = false) ∧
      ((d.remove top).2 = false → (d.remove top).1 = d) ∧
      ((d.remove top).2 = true → Removes d (d.remove top).1 top) := by
  have hforest := hd.isForest
  rw [append_snd, removeChild_snd]
  refine ⟨hforest.canAppend_eq_false_iff, fun h => ?_, fun h hnot => ?_, decide_eq_true_iff,
    fun h => ?_, fun h => ?_, ?_, fun h => ?_, hforest.removes_remove⟩
  · cases hallowed : d.canAppend parent child with
    | false => rw [append_of_not_canAppend hallowed]
    | true =>
      have hchild : child ∈ d.children parent := h.resolve_left (by simp [hallowed])
      rw [append_of_parent? hallowed ((hforest.mem_children_iff parent child).mp hchild)]
  · exact hforest.moves_append h (mt (hforest.mem_children_iff parent child).mpr hnot)
  · exact removeChild_of_notMem (of_decide_eq_false h)
  · exact hforest.cuts_removeChild (of_decide_eq_true h)
  · rw [remove_snd]
    simp [imp_iff_not_or]
  · rw [remove_of_snd_eq_false h]

/-- A run that ends without marks: a list of two items, the first with a text. -/
def tidyRun : List Action :=
  [.create "list", .append .root ⟨1⟩, .create "item", .append ⟨1⟩ ⟨2⟩, .create "item",
    .append ⟨1⟩ ⟨3⟩, .create "text", .append ⟨2⟩ ⟨4⟩, .restyleDirty]

/-- The first item moves to the root and takes its text along; no other node is marked.  The list
cannot go under the text, and when it is removed, the moved item stays. -/
theorem effects_of_reachable_tidyRun :
    let d := Document.new.performAll tidyRun
    let e := (d.append .root ⟨2⟩).1
    d.Reachable ∧ d.dirtyNodes = [] ∧ (d.append ⟨4⟩ ⟨1⟩).1 = d ∧ Moves d e .root ⟨2⟩ ∧
      e.children .root = [⟨1⟩, ⟨2⟩] ∧ e.children ⟨1⟩ = [⟨3⟩] ∧ e.dirtyNodes = [⟨2⟩, ⟨4⟩] ∧
      Removes e (e.remove ⟨1⟩).1 ⟨1⟩ ∧ (e.remove ⟨1⟩).1.subtree .root = [.root, ⟨2⟩, ⟨4⟩] := by
  intro d e
  have hd : d.Reachable := reachable_performAll {} tidyRun
  have he : e.Reachable := hd.perform (a := .append .root ⟨2⟩) trivial
  obtain ⟨-, -, hmoves, -⟩ := effects_of_reachable hd .root ⟨2⟩ .root
  obtain ⟨-, hsame, -⟩ := effects_of_reachable hd ⟨4⟩ ⟨1⟩ .root
  obtain ⟨-, -, -, -, -, -, -, -, hremoves⟩ := effects_of_reachable he .root .root ⟨1⟩
  exact ⟨hd, by decide +kernel, hsame (.inl (by decide +kernel)),
    hmoves (by decide +kernel) (by decide +kernel), by decide +kernel, by decide +kernel,
    by decide +kernel, hremoves (by decide +kernel), by decide +kernel⟩

end Document
end StyleCascade
