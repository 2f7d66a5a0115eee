import StyleCascade.Proofs.Reachability

/-!
# Registries in every run

Whatever an action does, it changes registries and indices in steps of three kinds: a leaf
is released, a listener for a leaf that exists is registered, or a node that nobody holds
listeners for is dropped (`Document.Relisting`, `Document.relists_perform`).  Each step
keeps the index of every leaf exact and the keys of every registry apart.  So a node of a
reachable document holds listeners for a leaf exactly if the leaf knows it as a holder, and
no trace of a removed subtree is left on either side (`Document.mem_holdersOf_iff_of_run`).
-/
namespace StyleCascade
namespace Document

variable {d e f : Document}

/-! ## Steps -/

/-- One change to registries and indices. -/
inductive Relisting (d : Document) : Document → Prop
  | same {e : Document} (hlisteners : ∀ id, e.listenersOf id = d.listenersOf id)
      (hholders : ∀ id, e.holdersOf id = d.holdersOf id) : Relisting d e
  | release (leaf : NodeId) : Relisting d (d.releaseListeners leaf)
  | add (holder : NodeId) {l : Listener} (hleaf : d.contains l.leaf = true) :
      Relisting d (d.addListener holder l)
  | drop {id : NodeId} (hid : d.holdersOf id = []) : Relisting d (d.dropNode id)

/-- Several changes, one after the other. -/
abbrev Relists : Document → Document → Prop :=
  Relation.ReflTransGen Relisting

theorem relists_of_nodes
    (h : ∀ id, (e.node? id).map Node.listening = (d.node? id).map Node.listening) :
    Relists d e := by
  refine .single (.same (fun id => ?_) fun id => ?_)
  · have hid := congrArg (fun both => (both.map Prod.fst).getD []) (h id)
    simp only [Option.map_map] at hid
    exact hid
  · have hid := congrArg (fun both => (both.map Prod.snd).getD []) (h id)
    simp only [Option.map_map] at hid
    exact hid

theorem Keeps.relists (h : Keeps Node.listening d e) : Relists d e :=
  relists_of_nodes h.nodes

theorem relists_foldl {α : Type} {step : Document → α → Document}
    (hstep : ∀ d a, Relists d (step d a)) (l : List α) (d : Document) :
    Relists d (l.foldl step d) := by
  induction l generalizing d with
  | nil => exact .refl
  | cons a rest ih => exact (hstep d a).trans (ih (step d a))

/-! ## The steps of an action -/

theorem listenersOf_create (d : Document) (tag : String) (id : NodeId) :
    (d.create tag).2.listenersOf id = d.listenersOf id := by
  have hnew : d.node? (d.create tag).1 = none := by simp [create, node?]
  rw [listenersOf, node?_create]
  split
  · rename_i h
    rw [h, listenersOf, hnew]
    rfl
  · rfl

theorem relists_create (d : Document) (tag : String) : Relists d (d.create tag).2 := by
  have hnew : d.node? (d.create tag).1 = none := by simp [create, node?]
  refine .single (.same (listenersOf_create d tag) fun id => ?_)
  rw [holdersOf, node?_create]
  split
  · rename_i h
    rw [h, holdersOf, hnew]
    rfl
  · rfl

theorem relists_addListeners {needed : List (NodeId × Listener)}
    (hleaf : ∀ pair ∈ needed, d.contains pair.2.leaf = true) :
    Relists d (needed.foldl (fun d (holder, l) => d.addListener holder l) d) := by
  induction needed generalizing d with
  | nil => exact .refl
  | cons pair rest ih =>
    refine .head (.add pair.1 (hleaf pair List.mem_cons_self)) (ih fun p hp => ?_)
    rw [(keeps_addListener d pair.1 pair.2).contains]
    exact hleaf p (List.mem_cons_of_mem _ hp)

theorem relists_rematch (d : Document) (id : NodeId) : Relists d (d.rematch id).1 := by
  have hmark := (keeps_markDirty (d.releaseListeners id) (d.unsettled id)).map Node.listening
  refine .head (.release id) (hmark.relists.trans (relists_addListeners fun pair hpair => ?_))
  obtain ⟨-, hleaf, hc⟩ := of_mem_neededListeners hpair
  rw [hleaf, hmark.contains, (keeps_releaseListeners d id).contains, hc]

theorem relists_restyle (d : Document) (id : NodeId) : Relists d (d.restyle id).1 := by
  cases hc : d.contains id with
  | false => rw [restyle_of_not_contains hc]
  | true =>
    have hclean : Keeps Node.listening d (d.unmarked id) := keeps_modify d id fun _ => rfl
    rw [restyle_of_contains hc]
    refine hclean.relists.trans ((relists_rematch _ id).trans (Keeps.relists ?_))
    refine (keeps_modify _ id ?_).modify id ?_
    all_goals exact fun _ => rfl

theorem relists_modify_restyle (d : Document) (id : NodeId) {f : Node → Node}
    (hf : ∀ n, (f n).listening = n.listening) : Relists d ((d.modify id f).restyle id).1 :=
  (keeps_modify d id hf).relists.trans (relists_restyle _ id)

theorem holdersOf_releaseAll (leaves : List NodeId) (d : Document) (id : NodeId) :
    (leaves.foldl releaseListeners d).holdersOf id =
      if id ∈ leaves then [] else d.holdersOf id := by
  induction leaves generalizing d with
  | nil => rfl
  | cons leaf rest ih =>
    rw [List.foldl_cons, ih, holdersOf_releaseListeners]
    by_cases hid : id = leaf <;> simp [hid]

/-- Nodes whose leaves have been released can be dropped one by one. -/
theorem relists_foldl_dropNode {removed : List NodeId}
    (h : ∀ id ∈ removed, d.holdersOf id = []) : Relists d (removed.foldl dropNode d) := by
  induction removed generalizing d with
  | nil => exact .refl
  | cons id rest ih =>
    refine .head (.drop (h id List.mem_cons_self)) (ih fun j hj => ?_)
    refine List.eq_nil_iff_forall_not_mem.mpr fun x hx => ?_
    have hmem := (mem_holdersOf_dropNode.mp hx).2.1
    rw [h j (List.mem_cons_of_mem _ hj)] at hmem
    cases hmem

theorem relists_remove (d : Document) (id : NodeId) : Relists d (d.remove id).1 := by
  rw [remove_eq]
  split
  · exact .refl
  · refine ((keeps_detach d id).map Node.listening).relists.trans ?_
    refine (relists_foldl (fun d leaf => .single (.release leaf)) _ _).trans
      (relists_foldl_dropNode fun j hj => ?_)
    rw [holdersOf_releaseAll, if_pos hj]

/-- **What an action does to registries and indices.** -/
theorem relists_perform (d : Document) (a : Action) : Relists d (d.perform a) := by
  cases a with
  | create tag => exact relists_create d tag
  | append parent child => exact ((keeps_append d parent child).map Node.listening).relists
  | removeChild parent child =>
    exact ((keeps_removeChild d parent child).map Node.listening).relists
  | remove id => exact relists_remove d id
  | setId id text => exact ((keeps_setId d id text).map Node.listening).relists
  | setClasses id text => exact ((keeps_setClasses d id text).map Node.listening).relists
  | addSheet sheet =>
    refine relists_of_nodes fun id => ?_
    rw [perform, node?_addSheet, Option.map_map]
    rfl
  | setSheet id sheet => exact ((keeps_setSheet d id sheet).map Node.listening).relists
  | setMedia media =>
    refine relists_of_nodes fun id => ?_
    rw [perform, node?_setMedia, Option.map_map]
    rfl
  | replaceInline id style => exact relists_modify_restyle d id fun _ => rfl
  | updateInline id style => exact relists_modify_restyle d id fun _ => rfl
  | bind id component => exact ((keeps_bind d id component).map Node.listening).relists
  | unbind id => exact ((keeps_unbind d id).map Node.listening).relists
  | changeView id f => exact ((keeps_changeView d id f).map Node.listening).relists
  | recordStates id states => exact ((keeps_recordStates d id states).map Node.listening).relists
  | changeStates id states => exact ((keeps_changeStates d id states).map Node.listening).relists
  | rematch id => exact relists_rematch d id
  | applyRules id rules => exact Keeps.relists (keeps_modify d id fun _ => rfl)
  | restyle id => exact relists_restyle d id
  | restyleDirty => exact relists_foldl relists_restyle d.dirtyNodes d

/-! ## The index -/

theorem listenersOf_new (media : MediaEnvironment) (id : NodeId) :
    (Document.new media).listenersOf id = [] := by
  rw [listenersOf, node?_new]
  split <;> rfl

theorem holdersOf_new (media : MediaEnvironment) (id : NodeId) :
    (Document.new media).holdersOf id = [] := by
  rw [holdersOf, node?_new]
  split <;> rfl

theorem listenersIndexed_new (media : MediaEnvironment) :
    (Document.new media).ListenersIndexed := by
  intro holder leaf
  rw [holdersOf_new, listenersOf_new]
  simp

theorem ListenersIndexed.relisting (hd : d.ListenersIndexed) (h : Relisting d e) :
    e.ListenersIndexed := by
  cases h with
  | same hlisteners hholders =>
    intro holder leaf
    rw [hholders, hlisteners]
    exact hd holder leaf
  | release leaf => exact hd.releaseListeners leaf
  | add holder hleaf => exact hd.addListener holder hleaf
  | drop hid => exact hd.dropNode hid

theorem ListenersIndexed.relists (hd : d.ListenersIndexed) (h : Relists d e) :
    e.ListenersIndexed := by
  induction h with
  | refl => exact hd
  | tail _ hstep ih => exact ih.relisting hstep

theorem Keeps.listenersIndexed (h : Keeps Node.listening d e) (hd : d.ListenersIndexed) :
    e.ListenersIndexed :=
  hd.relists h.relists

/-- **Every action keeps the index of listeners in step with the registries.** -/
theorem ListenersIndexed.perform (hd : d.ListenersIndexed) (a : Action) :
    (d.perform a).ListenersIndexed :=
  hd.relists (relists_perform d a)

theorem ReachableBy.listenersIndexed {allowed : Action → Prop} (hd : ReachableBy allowed d) :
    d.ListenersIndexed :=
  hd.invariant listenersIndexed_new fun _ a _ h => h.perform a

/-! ## Keys -/

/-- No two listeners of one holder share a key. -/
def KeysApart (d : Document) : Prop :=
  ∀ holder, ((d.listenersOf holder).map Listener.key).Nodup

theorem keysApart_new (media : MediaEnvironment) : (Document.new media).KeysApart := by
  intro holder
  rw [listenersOf_new]
  exact List.nodup_nil

theorem KeysApart.relisting (hd : d.KeysApart) (h : Relisting d e) : e.KeysApart := by
  intro holder
  cases h with
  | same hlisteners hholders =>
    rw [hlisteners]
    exact hd holder
  | release leaf =>
    rw [listenersOf_releaseListeners]
    split
    · exact (hd holder).sublist (List.filter_sublist.map Listener.key)
    · exact hd holder
  | add _ hleaf =>
    rw [listenersOf_addListener]
    split
    · exact Keyed.nodup_map_key_upsert Listener.key _ (hd holder)
    · exact hd holder
  | drop hid =>
    rw [listenersOf_dropNode]
    split
    · exact List.nodup_nil
    · exact hd holder

theorem KeysApart.relists (hd : d.KeysApart) (h : Relists d e) : e.KeysApart := by
  induction h with
  | refl => exact hd
  | tail _ hstep ih => exact ih.relisting hstep

theorem ReachableBy.keysApart {allowed : Action → Prop} (hd : ReachableBy allowed d) :
    d.KeysApart :=
  hd.invariant keysApart_new fun d a _ h => h.relists (relists_perform d a)

/-! ## What is left of a removed subtree -/

theorem contains_of_mem_holdersOf {holder leaf : NodeId} (h : holder ∈ d.holdersOf leaf) :
    d.contains leaf = true := by
  by_contra hnot
  rw [holdersOf_of_not_contains (by simpa using hnot)] at h
  cases h

theorem contains_of_mem_listenersOf {holder : NodeId} {l : Listener}
    (h : l ∈ d.listenersOf holder) : d.contains holder = true := by
  by_contra hnot
  rw [listenersOf_of_not_contains (by simpa using hnot)] at h
  cases h

theorem contains_remove_of_mem_subtree (hd : d.IsForest) {id x : NodeId}
    (h : (d.remove id).2 = true) (hx : x ∈ d.subtree id) :
    (d.remove id).1.contains x = false := by
  have hallowed : ¬(id = .root ∨ ¬d.contains id) := by
    intro hnot
    rw [remove, if_pos hnot] at h
    cases h
  rw [remove_eq, if_neg hallowed, contains,
    (prunes_dropAll _ _).node?_eq_none ((hd.mem_subtree_detach).mpr hx)]
  rfl

/-- **Registries and indices agree in every run.**  A node holds listeners for a leaf exactly
if the leaf has it in its index; then both exist, and each listener is found under its key.
Releasing a leaf leaves no listener for it anywhere, and removing a subtree leaves its nodes
in no registry and in no index. -/
theorem mem_holdersOf_iff_of_run (hd : d.Reachable) (holder leaf : NodeId) :
    ((∃ l ∈ d.listenersOf holder, l.leaf = leaf) ↔ holder ∈ d.holdersOf leaf) ∧
      (holder ∈ d.holdersOf leaf → d.contains holder = true ∧ d.contains leaf = true) ∧
      (∀ l ∈ d.listenersOf holder,
        Keyed.lookup Listener.key l.key (d.listenersOf holder) = some l) ∧
      (∀ l ∈ (d.releaseListeners leaf).listenersOf holder, l.leaf ≠ leaf) ∧
      ∀ id, (d.remove id).2 = true → ∀ x ∈ d.subtree id,
        (d.remove id).1.contains x = false ∧
        (∀ l ∈ (d.remove id).1.listenersOf holder, l.leaf ≠ x) ∧
        x ∉ (d.remove id).1.holdersOf leaf := by
  have hindexed := hd.listenersIndexed
  refine ⟨(hindexed holder leaf).symm, fun hmem => ?_, fun l hl => ?_, fun l hl => ?_,
    fun id hremoved x hx => ?_⟩
  · obtain ⟨l, hl, -⟩ := (hindexed holder leaf).mp hmem
    exact ⟨contains_of_mem_listenersOf hl, contains_of_mem_holdersOf hmem⟩
  · exact Keyed.lookup_eq_some_of_mem Listener.key (hd.keysApart holder) hl
  · rw [hindexed.listenersOf_releaseListeners] at hl
    simpa using (List.mem_filter.mp hl).2
  · -- The removed node is gone, and the index that is left is exact.
    have hgone := contains_remove_of_mem_subtree hd.isForest hremoved hx
    have hafter : (d.remove id).1.ListenersIndexed := hindexed.perform (.remove id)
    refine ⟨hgone, ?_, fun hmem => ?_⟩
    · rintro l hl rfl
      have hmem := (hafter holder l.leaf).mpr ⟨l, hl, rfl⟩
      rw [contains_of_mem_holdersOf hmem] at hgone
      cases hgone
    · obtain ⟨l, hl, -⟩ := (hafter x leaf).mp hmem
      rw [contains_of_mem_listenersOf hl] at hgone
      cases hgone

/-- The selector `button:active label`. -/
def activeButtonLabel : Selector where
  subject := ⟨.element, "label", none⟩
  links := [⟨.descendant, ⟨.element, "button", some "active"⟩⟩]

/-- A rule that turns what one selector matches red. -/
def redRule (s : Selector) (order : Nat) : StyleRule where
  selectors := [s]
  declaration := .ofList [{ name := "color", value := some (.string "red") }]
  text := s.text
  order := order

/-- A sheet of such rules, in the order of the selectors. -/
def redSheet (selectors : List Selector) : SharedSheet where
  serial := 0
  sheet := { rules := (selectors.zipIdx.map fun (s, order) => .style (redRule s order)) }

/-- A label in a button, restyled under a rule for active buttons. -/
def heldSample : Document :=
  Document.new.performAll [.addSheet (redSheet [activeButtonLabel]), .create "button",
    .append .root ⟨1⟩, .create "label", .append ⟨1⟩ ⟨2⟩, .restyleDirty]

/-- The button holds a listener for the label, and none once the label has been removed. -/
theorem mem_holdersOf_iff_of_run_heldSample :
    heldSample.Reachable ∧ (∃ l ∈ heldSample.listenersOf ⟨1⟩, l.leaf = ⟨2⟩) ∧
      ⟨1⟩ ∈ heldSample.holdersOf ⟨2⟩ ∧ (heldSample.remove ⟨2⟩).2 = true ∧
      ∀ l ∈ (heldSample.remove ⟨2⟩).1.listenersOf ⟨1⟩, l.leaf ≠ ⟨2⟩ := by
  have hreach : heldSample.Reachable := reachable_performAll {} _
  have hmem : ⟨1⟩ ∈ heldSample.holdersOf ⟨2⟩ := by decide +kernel
  have hremoved : (heldSample.remove ⟨2⟩).2 = true := by decide +kernel
  obtain ⟨hiff, -, -, -, hremove⟩ := mem_holdersOf_iff_of_run hreach ⟨1⟩ ⟨2⟩
  exact ⟨hreach, hiff.mpr hmem, hmem, hremoved, (hremove ⟨2⟩ hremoved ⟨2⟩ (by decide +kernel)).2.1⟩

end Document
end StyleCascade
