import StyleCascade.Proofs.Registries

/-!
# What an action leaves alone

A node is not affected by a change if its styles, its surroundings and the listeners held
for it are the same afterwards (`Document.Unaffected`).  An action that does no styling
marks whatever it affects: a node that has no mark afterwards had none before and is not
affected (`Document.IsForest.spares_perform`).  Restyling a node affects no other node
(`Document.unaffected_restyle_of_ne`).
-/
namespace StyleCascade

/-- What restyling has found out about a node, and the inline style it used. -/
def Node.outcome (n : Node) : Declaration × Declaration × Option (List MatchedRule) :=
  (n.inlineStyle, n.finalStyle, n.matched)

/-- What a node shows to the nodes below it and to restyling, with its mark. -/
def Node.standing (n : Node) : Option NodeId × Node × (Declaration × Declaration ×
    Option (List MatchedRule)) × Bool :=
  (n.parent, n.face, n.outcome, n.dirty)

/-- The actions that match nodes, or give them styles. -/
def Action.IsStyling : Action → Prop
  | .replaceInline _ _ | .updateInline _ _ | .rematch _ | .applyRules _ _ | .restyle _
  | .restyleDirty => True
  | _ => False

namespace Document

/-- A node has the same styles, surroundings and listeners in `e` as in `d`. -/
structure Unaffected (d e : Document) (id : NodeId) : Prop where
  outcome : (e.node? id).map Node.outcome = (d.node? id).map Node.outcome
  surroundings : SameSurroundings d e id
  listening : ∀ holder, e.listenersFor holder id = d.listenersFor holder id

/-- A node that has no mark in `e` had none in `d` and is not affected. -/
def Spares (d e : Document) : Prop :=
  ∀ id, e.contains id = true → e.isDirty id = false → d.isDirty id = false ∧ Unaffected d e id

/-- Only its ancestors hold listeners for a node without mark. -/
def HeldAbove (d : Document) : Prop :=
  ∀ id, d.contains id = true → d.isDirty id = false →
    ∀ holder, holder ∉ d.ancestors id → d.listenersFor holder id = []

variable {d e f : Document} {id : NodeId}

theorem listenersFor_congr {holder : NodeId} (h : e.listenersOf holder = d.listenersOf holder)
    (leaf : NodeId) : e.listenersFor holder leaf = d.listenersFor holder leaf := by
  rw [listenersFor, listenersFor, h]

namespace Unaffected

theorem trans (h : Unaffected d e id) (h' : Unaffected e f id) : Unaffected d f id where
  outcome := h'.outcome.trans h.outcome
  surroundings := h.surroundings.trans h'.surroundings
  listening holder := (h'.listening holder).trans (h.listening holder)

theorem contains (h : Unaffected d e id) : e.contains id = d.contains id := by
  have hsome := congrArg Option.isSome h.outcome
  rwa [Option.isSome_map, Option.isSome_map] at hsome

end Unaffected

theorem Spares.trans (h : Spares d e) (h' : Spares e f) : Spares d f := by
  intro id hc hclean
  obtain ⟨hmiddle, hsecond⟩ := h' id hc hclean
  obtain ⟨hbefore, hfirst⟩ := h id (hsecond.contains.symm.trans hc) hmiddle
  exact ⟨hbefore, hfirst.trans hsecond⟩

theorem spares_refl (d : Document) : Spares d d :=
  fun _ _ hclean => ⟨hclean, rfl, ⟨rfl, rfl, rfl, fun _ _ => rfl⟩, fun _ => rfl⟩

theorem HeldAbove.of_spares (hd : d.HeldAbove) (h : Spares d e) : e.HeldAbove := by
  intro id hc hclean holder hnot
  obtain ⟨hbefore, hsame⟩ := h id hc hclean
  rw [hsame.listening]
  refine hd id (hsame.contains.symm.trans hc) hbefore holder ?_
  rwa [← hsame.surroundings.ancestors]

/-! ## Views and marks -/

/-- Views and states are nothing that a node is affected by. -/
theorem Keeps.spares (h : Keeps Node.apartFromViews d e) : Spares d e := by
  intro id _ hclean
  refine ⟨((h.map Node.dirty).isDirty id).symm.trans hclean, ?_⟩
  exact ⟨(h.map Node.outcome).nodes id,
    (h.map fun n => (n.parent, n.face)).sameSurroundings id,
    fun holder => listenersFor_congr ((h.map Node.listeners).listenersOf holder) id⟩

/-- Neither are marks. -/
theorem unaffected_markDirty (d : Document) (ids : List NodeId) (id : NodeId) :
    Unaffected d (d.markDirty ids) id :=
  ⟨((keeps_markDirty d ids).map Node.outcome).nodes id,
    ((keeps_markDirty d ids).map fun n => (n.parent, n.face)).sameSurroundings id,
    fun holder => listenersFor_congr
      (((keeps_markDirty d ids).map Node.listeners).listenersOf holder) id⟩

/-- Where every node is marked, nothing is asked. -/
theorem spares_of_marked (h : ∀ id, e.node? id = (d.node? id).map fun n =>
    { n with dirty := true }) : Spares d e := by
  intro id hc hclean
  rw [contains, h] at hc
  rw [isDirty, h] at hclean
  cases hn : d.node? id with
  | none =>
    rw [hn] at hc
    cases hc
  | some n =>
    rw [hn] at hclean
    cases hclean

/-! ## Changing a node and marking its subtree -/

/-- Apart from child lists and owners, `e` differs from `d` at one node only. -/
structure ChangedAt (id : NodeId) (d e : Document) : Prop where
  sheets : e.sheets = d.sheets
  media : e.media = d.media
  listeners : ∀ holder, e.listenersOf holder = d.listenersOf holder
  nodes : ∀ a, a ≠ id → (e.node? a).map Node.standing = (d.node? a).map Node.standing

namespace ChangedAt

/-- A node is not affected by a change at a node that is neither it nor above it. -/
theorem unaffected (h : ChangedAt id d e) (hd : d.IsForest) (he : e.IsForest) {x : NodeId}
    (hx : x ≠ id) (habove : id ∉ e.ancestors x) : Unaffected d e x := by
  have hne : ∀ a ∈ x :: e.ancestors x, a ≠ id := by
    rintro a ha rfl
    rcases List.mem_cons.mp ha with rfl | ha
    · exact hx rfl
    · exact habove ha
  have hancestors : d.ancestors x = e.ancestors x := by
    refine he.ancestors_congr hd fun a ha => parent?_eq_of_map a ?_
    have hstanding := congrArg (Option.map Prod.fst) (h.nodes a (hne a ha))
    rw [Option.map_map, Option.map_map] at hstanding
    exact hstanding.symm
  refine ⟨?_, ⟨h.sheets, h.media, hancestors.symm, fun a ha => ?_⟩,
    fun holder => listenersFor_congr (h.listeners holder) x⟩
  · have hstanding := congrArg (Option.map fun standing => standing.2.2.1) (h.nodes x hx)
    rwa [Option.map_map, Option.map_map] at hstanding
  · rw [hancestors] at ha
    have hstanding := congrArg (Option.map fun standing => standing.2.1) (h.nodes a (hne a ha))
    rwa [Option.map_map, Option.map_map] at hstanding

theorem isDirty (h : ChangedAt id d e) {x : NodeId} (hx : x ≠ id) : e.isDirty x = d.isDirty x := by
  have hstanding := congrArg (Option.any fun standing => standing.2.2.2) (h.nodes x hx)
  rwa [Option.any_map, Option.any_map] at hstanding

/-- **Marking the subtree of a changed node** marks all that is affected. -/
theorem spares (h : ChangedAt id d e) (hd : d.IsForest)
    (hmarked : (e.markSubtreeDirty id).IsForest) : Spares d (e.markSubtreeDirty id) := by
  have hkeeps : Keeps Node.links e (e.markSubtreeDirty id) :=
    (keeps_markDirty e (e.subtree id)).map Node.links
  have he : e.IsForest := hmarked.of_nodes fun a => (hkeeps.nodes a).symm
  intro x hc hclean
  rw [hkeeps.contains] at hc
  rw [markSubtreeDirty, isDirty_markDirty, hc, Bool.and_true, Bool.or_eq_false_iff,
    decide_eq_false_iff_not, he.mem_subtree_iff] at hclean
  obtain ⟨hbefore, hnot⟩ := hclean
  -- A node without mark is not in the subtree, so the change is neither at it nor above it.
  have hx : x ≠ id := fun heq => hnot ⟨hc, Or.inl heq⟩
  have habove : id ∉ e.ancestors x := fun hmem => hnot ⟨hc, Or.inr hmem⟩
  exact ⟨(h.isDirty hx).symm.trans hbefore,
    (h.unaffected hd he hx habove).trans (unaffected_markDirty e _ x)⟩

end ChangedAt

theorem changedAt_modify (d : Document) (id : NodeId) {f : Node → Node}
    (hf : ∀ n, (f n).listeners = n.listeners) :
    ChangedAt id d (d.modify id f) where
  sheets := rfl
  media := rfl
  listeners := (keeps_modify d id hf).listenersOf
  nodes a ha := by rw [node?_modify, if_neg (Ne.symm ha)]

theorem ChangedAt.of_keeps (h : Keeps Node.standing d e)
    (hlisteners : ∀ holder, e.listenersOf holder = d.listenersOf holder)
    (h' : ChangedAt id e f) : ChangedAt id d f where
  sheets := h'.sheets.trans h.sheets
  media := h'.media.trans h.media
  listeners holder := (h'.listeners holder).trans (hlisteners holder)
  nodes a ha := (h'.nodes a ha).trans (h.nodes a)

/-- Giving a node another parent changes no other node but for its list of children. -/
theorem changedAt_relink (d : Document) (parent child : NodeId)
    (f : List NodeId → List NodeId) (p : Option NodeId) :
    ChangedAt child d (d.relink parent child f p) := by
  have hstanding : Keeps Node.standing d
      (d.modify parent fun n => { n with children := f n.children }) :=
    keeps_modify d parent fun _ => rfl
  have hlisteners : Keeps Node.listeners d
      (d.modify parent fun n => { n with children := f n.children }) :=
    keeps_modify d parent fun _ => rfl
  exact .of_keeps hstanding hlisteners.listenersOf (changedAt_modify _ child fun _ => rfl)

/-! ## The actions that do no styling -/

namespace IsForest

variable (hd : d.IsForest)
include hd

theorem spares_setId (id : NodeId) (text : String) : Spares d (d.setId id text) :=
  (changedAt_modify d id fun _ => by rfl).spares hd (hd.perform (.setId id text))

theorem spares_setClasses (id : NodeId) (text : String) : Spares d (d.setClasses id text) :=
  (changedAt_modify d id fun _ => by rfl).spares hd (hd.perform (.setClasses id text))

theorem spares_setSheet (id : NodeId) (sheet : Option SharedSheet) :
    Spares d (d.setSheet id sheet) := by
  cases hc : d.contains id with
  | false =>
    rw [setSheet_of_not_contains hc]
    exact spares_refl d
  | true =>
    have hforest := hd.perform (.setSheet id sheet)
    obtain ⟨owners, heq⟩ := exists_setSheet_eq hc sheet
    rw [Document.perform, heq] at hforest
    rw [heq]
    have hchanged : ChangedAt id d ({ d with owners }.modify id fun n => { n with sheet }) :=
      .of_keeps (keeps_owners _ d owners) (fun _ => rfl) (changedAt_modify _ id fun _ => rfl)
    exact hchanged.spares hd hforest

theorem spares_removeChild (parent child : NodeId) : Spares d (d.removeChild parent child).1 := by
  have hforest := hd.removeChild parent child
  by_cases h : child ∈ d.children parent
  case neg =>
    rw [removeChild_of_notMem h]
    exact spares_refl d
  rw [removeChild_of_mem h] at hforest ⊢
  exact (changedAt_relink d parent child _ none).spares hd hforest

theorem spares_detach (child : NodeId) : Spares d (d.detach child) := by
  rw [Document.detach]
  split
  · exact hd.spares_removeChild _ child
  · exact spares_refl d

theorem spares_attach {parent child : NodeId} (hforest : (d.attach parent child).IsForest) :
    Spares d (d.attach parent child) :=
  (changedAt_relink d parent child (· ++ [child]) (some parent)).spares hd hforest

theorem spares_append (parent child : NodeId) : Spares d (d.append parent child).1 := by
  have hforest := hd.append parent child
  rw [Document.append] at hforest ⊢
  split at hforest
  · rename_i hallowed
    rw [if_pos hallowed]
    split at hforest
    · rename_i hplace
      rw [if_pos hplace]
      exact spares_refl d
    · rename_i hplace
      rw [if_neg hplace]
      exact (hd.spares_detach child).trans ((hd.detach child).spares_attach hforest)
  · rename_i hnot
    rw [if_neg hnot]
    exact spares_refl d

/-- A new node is marked, and no other sees it. -/
theorem spares_create (tag : String) : Spares d (d.create tag).2 := by
  have hnew : d.node? (d.create tag).1 = none := by simp [Document.create, node?]
  have hold : ∀ id, d.contains id = true → (d.create tag).2.node? id = d.node? id := by
    intro id hc
    rw [node?_create, if_neg]
    rintro rfl
    rw [contains, hnew] at hc
    cases hc
  intro id hc hclean
  have hexists : d.contains id = true := by
    by_contra hnot
    have hid : id = (d.create tag).1 := by
      by_contra hne
      rw [contains, node?_create, if_neg hne] at hc
      exact hnot hc
    rw [isDirty, node?_create, if_pos hid] at hclean
    cases hclean
  have hancestors : (d.create tag).2.ancestors id = d.ancestors id :=
    hd.ancestors_congr (hd.create tag) fun a _ => parent?_create d tag a
  refine ⟨?_, ?_, ⟨rfl, rfl, hancestors, fun a ha => ?_⟩,
    fun holder => listenersFor_congr (listenersOf_create d tag holder) id⟩
  · rwa [isDirty, hold id hexists] at hclean
  · rw [hold id hexists]
  · rcases List.mem_cons.mp ha with rfl | ha
    · rw [hold a hexists]
    · rw [hold a (hd.contains_of_mem_ancestors ha)]

/-- What is removed stood above nothing that is left, so it held no listeners for it. -/
theorem spares_dropAll (hheld : d.HeldAbove) (hroot : id ≠ .root)
    (hparent : d.parent? id = none) : Spares d (d.dropAll (d.subtree id)) := by
  have hprune := prunes_dropAll d (d.subtree id)
  have hforest := hd.dropAll hroot hparent
  intro x hc hclean
  have hx : x ∉ d.subtree id := hprune.notMem_of_contains hc
  rw [hprune.contains hx] at hc
  have hbefore : d.isDirty x = false := by
    have hdirty := congrArg (Option.any fun dirty => dirty)
      ((hprune.map Node.dirty).nodes_of_notMem hx)
    rw [Option.any_map, Option.any_map] at hdirty
    exact hdirty.symm.trans hclean
  -- With an ancestor of `x` in the subtree, `x` would be in it as well.
  have hleft : ∀ a ∈ x :: d.ancestors x, a ∉ d.subtree id := by
    intro a ha hmem
    rcases List.mem_cons.mp ha with rfl | ha
    · exact hx hmem
    · refine hx (hd.mem_subtree_iff.mpr ⟨hc, Or.inr ?_⟩)
      rcases (hd.mem_subtree_iff.mp hmem).2 with rfl | habove
      · exact ha
      · rw [hd.mem_ancestors_iff] at ha habove ⊢
        exact habove.trans ha
  have hancestors : (d.dropAll (d.subtree id)).ancestors x = d.ancestors x :=
    hd.ancestors_congr hforest fun a ha =>
      parent?_eq_of_map a ((hprune.map Node.parent).nodes_of_notMem (hleft a ha))
  refine ⟨hbefore, (hprune.map Node.outcome).nodes_of_notMem hx,
    ⟨hprune.sheets, hprune.media, hancestors, fun a ha => ?_⟩, fun holder => ?_⟩
  · exact (hprune.map Node.face).nodes_of_notMem (hleft a ha)
  · rw [listenersFor_dropAll d hx]
    split
    · rename_i hholder
      exact (hheld x hc hbefore holder fun habove =>
        hleft holder (List.mem_cons_of_mem _ habove) hholder).symm
    · rfl

theorem spares_remove (hheld : d.HeldAbove) (id : NodeId) : Spares d (d.remove id).1 := by
  rw [remove_eq]
  split
  · exact spares_refl d
  · rename_i h
    have hdetach := hd.spares_detach id
    refine hdetach.trans ((hd.detach id).spares_dropAll (hheld.of_spares hdetach)
      (fun hid => h (Or.inl hid)) ?_)
    rw [hd.parent?_detach, if_pos rfl]

/-- **An action that does no styling marks whatever it affects.** -/
theorem spares_perform (hheld : d.HeldAbove) {a : Action} (ha : ¬a.IsStyling) :
    Spares d (d.perform a) := by
  cases a with
  | create tag => exact hd.spares_create tag
  | append parent child => exact hd.spares_append parent child
  | removeChild parent child => exact hd.spares_removeChild parent child
  | remove id => exact hd.spares_remove hheld id
  | setId id text => exact hd.spares_setId id text
  | setClasses id text => exact hd.spares_setClasses id text
  | addSheet sheet => exact spares_of_marked (node?_addSheet d sheet)
  | setSheet id sheet => exact hd.spares_setSheet id sheet
  | setMedia media => exact spares_of_marked (node?_setMedia d media)
  | bind id component => exact (keeps_bind d id component).spares
  | unbind id => exact (keeps_unbind d id).spares
  | changeView id f => exact (keeps_changeView d id f).spares
  | recordStates id states => exact (keeps_recordStates d id states).spares
  | changeStates id states => exact (keeps_changeStates d id states).spares
  | replaceInline | updateInline | rematch | applyRules | restyle | restyleDirty =>
    exact absurd trivial ha

end IsForest

/-! ## Matching and restyling -/

theorem Keeps.neededAt (h : Keeps Node.apartFromStyling d e) (leaf holder : NodeId) :
    e.neededAt leaf holder = d.neededAt leaf holder := by
  rw [Document.neededAt, Document.neededAt, h.neededListeners]

/-- Matched in a forest, a node has the listeners that it asks for, and no others. -/
theorem IsForest.listenersFor_rematch_self (hforest : d.IsForest) (hindexed : d.ListenersIndexed)
    (id holder : NodeId) : (d.rematch id).1.listenersFor holder id =
      Keyed.upsertAll Listener.key [] (d.neededAt id holder) := by
  cases hc : d.contains holder with
  | true => exact hindexed.listenersFor_rematch_self id hc
  | false =>
    have hafter : (d.rematch id).1.contains holder = false :=
      ((keeps_rematch d id).contains holder).trans hc
    have hnot : holder ∉ d.ancestors id := by
      intro habove
      rw [hforest.contains_of_mem_ancestors habove] at hc
      cases hc
    rw [listenersFor, listenersOf_of_not_contains hafter, neededAt_of_notMem hnot]
    rfl

theorem IsForest.listenersFor_restyle_self (hforest : d.IsForest) (hindexed : d.ListenersIndexed)
    (hc : d.contains id = true) (holder : NodeId) :
    (d.restyle id).1.listenersFor holder id =
      Keyed.upsertAll Listener.key [] (d.neededAt id holder) := by
  have hlinks : Keeps Node.links d (d.unmarked id) := keeps_modify d id fun _ => rfl
  have hlistening : Keeps Node.listening d (d.unmarked id) := keeps_modify d id fun _ => rfl
  rw [listenersFor_congr (listenersOf_restyle hc holder),
    (hlinks.isForest hforest).listenersFor_rematch_self (hlistening.listenersIndexed hindexed),
    ((keeps_unmarked d id).map Node.apartFromStyling).neededAt]

theorem listenersFor_restyle_of_ne (d : Document) {id leaf : NodeId} (h : leaf ≠ id)
    (holder : NodeId) : (d.restyle id).1.listenersFor holder leaf = d.listenersFor holder leaf :=
  listenersFor_of_listenersExcept h (listenersExcept_restyle d id holder)

/-- **Restyling a node affects no other.** -/
theorem unaffected_restyle_of_ne (d : Document) {id x : NodeId} (hx : x ≠ id) :
    Unaffected d (d.restyle id).1 x := by
  refine ⟨?_, ((keeps_restyle d id).map fun n => (n.parent, n.face)).sameSurroundings x,
    fun holder => listenersFor_restyle_of_ne d hx holder⟩
  have hnode := congrArg (Option.map Node.outcome) (node?_restyle_of_ne d hx)
  rwa [Option.map_map, Option.map_map] at hnode

/-- A change to what a node alone reads affects no other. -/
theorem unaffected_modify_of_ne (d : Document) {id x : NodeId} (hx : x ≠ id) {f : Node → Node}
    (hf : ∀ n, ((f n).parent, (f n).face, (f n).listeners) = (n.parent, n.face, n.listeners)) :
    Unaffected d (d.modify id f) x := by
  have hkeeps : Keeps (fun n => (n.parent, n.face, n.listeners)) d (d.modify id f) :=
    keeps_modify d id hf
  refine ⟨?_, (hkeeps.map fun view => (view.1, view.2.1)).sameSurroundings x,
    fun holder => listenersFor_congr ((hkeeps.map (·.2.2)).listenersOf holder) x⟩
  rw [node?_modify, if_neg (Ne.symm hx)]

end Document
end StyleCascade
