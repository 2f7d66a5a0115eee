import StyleCascade.Proofs.StateListening
import StyleCascade.Proofs.Unaffected

/-!
# Listeners wherever a match can turn

A leaf is covered if each of its listeners is held above it, and if every ancestor on which a
state of that listener's selector can turn holds the same listener (`Document.Covered`).
Matching covers a leaf, and what leaves it unaffected keeps it covered; so in every reachable
document all nodes without mark are covered (`ReachableBy.coveredUnmarked`), and all nodes
are once the marked ones have been restyled (`Document.covered_restyleDirty`).
-/
namespace StyleCascade
namespace Document

variable {d e : Document} {id leaf holder : NodeId}

/-- The listeners of a leaf are held above it, and where one of them is held, all ancestors that
fit a part of its selector with a state hold it as well. -/
def Covered (d : Document) (leaf : NodeId) : Prop :=
  ∀ holder, ∀ l ∈ d.listenersFor holder leaf,
    holder ∈ d.ancestors leaf ∧
      ∀ above ∈ d.ancestors leaf, (∃ part ∈ l.selector.stateParts, d.fitsShape above part = true) →
        ∃ m ∈ d.listenersFor above leaf, m.key = l.key

/-- Every node without mark is covered. -/
def CoveredUnmarked (d : Document) : Prop :=
  ∀ id, d.contains id = true → d.isDirty id = false → d.Covered id

/-! ## What covers a leaf -/

/-- Where the surroundings and the listeners are the same, a leaf stays covered. -/
theorem Covered.congr (hd : d.Covered leaf) (h : SameSurroundings d e leaf)
    (hlisteners : ∀ holder, e.listenersFor holder leaf = d.listenersFor holder leaf) :
    e.Covered leaf := by
  intro holder l hl
  rw [hlisteners] at hl
  obtain ⟨hholder, habove⟩ := hd holder l hl
  rw [h.ancestors]
  refine ⟨hholder, fun above hmem ⟨part, hpart, hshape⟩ => ?_⟩
  rw [h.fitsShape (List.mem_cons_of_mem _ hmem)] at hshape
  rw [hlisteners]
  exact habove above hmem ⟨part, hpart, hshape⟩

theorem Unaffected.covered (h : Unaffected d e leaf) (hd : d.Covered leaf) : e.Covered leaf :=
  hd.congr h.surroundings h.listening

/-- **Where a match turns, it is listened to.**  A report that turns the match of a listener, and
not at the leaf, is made on a node that holds a listener of the same group. -/
theorem Covered.exists_of_matchesLive_ne (hd : d.Covered leaf) (h : ReportsAt holder d e)
    {other : NodeId} {l : Listener} (hl : l ∈ d.listenersFor other leaf)
    (hsubject : e.fits leaf l.selector.subject = d.fits leaf l.selector.subject)
    (hchange : e.matchesLive l.selector leaf ≠ d.matchesLive l.selector leaf) :
    ∃ m ∈ d.listenersFor holder leaf, m.group = l.group := by
  obtain ⟨habove, hpart⟩ := h.mem_ancestors_of_matchesLive_ne hsubject hchange
  obtain ⟨m, hm, hkey⟩ := (hd other l hl).2 holder habove hpart
  refine ⟨m, hm, ?_⟩
  have hselector : m.selector = l.selector := congrArg ListenerKey.selector hkey
  have hleaf : m.leaf = l.leaf := congrArg ListenerKey.leaf hkey
  rw [Listener.group, Listener.group, hselector, hleaf]

/-- What a node asks for comes from a selector of an active rule that matches it as far as
states are left open. -/
theorem exists_of_mem_neededAt {l : Listener} (h : l ∈ d.neededAt leaf holder) :
    ∃ rule ∈ d.activeRules leaf, ∃ s ∈ rule.selectors,
      d.cascadeMatch s leaf = .pseudo ∧ holder ∈ d.ancestors leaf ∧ l = ⟨s, leaf, rule⟩ := by
  obtain ⟨pair, hpair, rfl⟩ := List.mem_map.mp h
  obtain ⟨hneeded, hholder⟩ := List.mem_filter.mp hpair
  obtain ⟨rule, hrule, hneeded⟩ := List.mem_flatMap.mp hneeded
  obtain ⟨s, hs, hneeded⟩ := List.mem_flatMap.mp hneeded
  rw [cascadeListeners] at hneeded
  split at hneeded
  · rename_i hmatch
    obtain ⟨a, ha, rfl⟩ := List.mem_map.mp hneeded
    obtain rfl : a = holder := by simpa using hholder
    exact ⟨rule, hrule, s, hs, hmatch, (List.mem_filter.mp ha).1, rfl⟩
  · cases hneeded

/-- **A leaf that has what it asks for is covered.** -/
theorem covered_of_needed
    (h : ∀ holder, d.listenersFor holder leaf =
      Keyed.upsertAll Listener.key [] (d.neededAt leaf holder)) : d.Covered leaf := by
  intro holder l hl
  rw [h] at hl
  rcases Keyed.mem_of_mem_upsertAll Listener.key hl with hnil | hl
  · cases hnil
  obtain ⟨rule, hrule, s, hs, hmatch, hholder, rfl⟩ := exists_of_mem_neededAt hl
  refine ⟨hholder, fun above hmem hpart => ?_⟩
  have hneeded : (⟨s, leaf, rule⟩ : Listener) ∈ d.neededAt leaf above :=
    mem_neededAt hrule hs hmatch hmem hpart
  rw [h]
  exact List.mem_map.mp (by
    rw [Keyed.mem_map_key_upsertAll]
    exact Or.inr (List.mem_map_of_mem hneeded))

theorem CoveredUnmarked.heldAbove (hd : d.CoveredUnmarked) : d.HeldAbove := by
  intro id hc hclean holder hnot
  refine List.eq_nil_iff_forall_not_mem.mpr fun l hl => ?_
  exact hnot (hd id hc hclean holder l hl).1

theorem CoveredUnmarked.of_spares (hd : d.CoveredUnmarked) (h : Spares d e) :
    e.CoveredUnmarked := by
  intro id hc hclean
  obtain ⟨hbefore, hsame⟩ := h id hc hclean
  exact hsame.covered (hd id (hsame.contains.symm.trans hc) hbefore)

/-! ## Matching and restyling -/

section Matching

variable (hforest : d.IsForest) (hindexed : d.ListenersIndexed)
include hforest hindexed

theorem covered_rematch_self (id : NodeId) : (d.rematch id).1.Covered id := by
  refine covered_of_needed fun holder => ?_
  rw [hforest.listenersFor_rematch_self hindexed,
    ((keeps_rematch d id).map Node.apartFromStyling).neededAt]

theorem Covered.rematch (hd : d.Covered leaf) (id : NodeId) : (d.rematch id).1.Covered leaf := by
  by_cases hleaf : leaf = id
  · exact hleaf ▸ covered_rematch_self hforest hindexed leaf
  · exact hd.congr (((keeps_rematch d id).map fun n => (n.parent, n.face)).sameSurroundings leaf)
      fun holder => listenersFor_rematch_of_ne d hleaf holder

theorem covered_restyle_self (hc : d.contains id = true) : (d.restyle id).1.Covered id := by
  refine covered_of_needed fun holder => ?_
  rw [hforest.listenersFor_restyle_self hindexed hc, (keeps_restyle d id).neededAt]

theorem Covered.restyle (hd : d.Covered leaf) (id : NodeId) : (d.restyle id).1.Covered leaf := by
  by_cases hleaf : leaf = id
  · subst hleaf
    cases hc : d.contains leaf with
    | true => exact covered_restyle_self hforest hindexed hc
    | false => rwa [restyle_of_not_contains hc]
  · exact (unaffected_restyle_of_ne d hleaf).covered hd

/-- Restyling covers a node, and the others stay covered. -/
theorem CoveredUnmarked.restyle (hd : d.CoveredUnmarked) (id : NodeId) :
    (d.restyle id).1.CoveredUnmarked := by
  intro x hc hclean
  rw [(keeps_restyle d id).contains] at hc
  by_cases hx : x = id
  · exact hx ▸ covered_restyle_self hforest hindexed (hx ▸ hc)
  · exact (hd x hc (isDirty_of_restyle hx hclean)).restyle hforest hindexed id

/-- What restyling one node keeps, restyling several keeps. -/
theorem foldl_restyle (P : Document → Prop)
    (hstep : ∀ {d : Document}, d.IsForest → d.ListenersIndexed → P d → ∀ id, P (d.restyle id).1)
    (hd : P d) (ids : List NodeId) : P (ids.foldl (fun d id => (d.restyle id).1) d) := by
  induction ids generalizing d with
  | nil => exact hd
  | cons id rest ih =>
    exact ih (hforest.perform (.restyle id)) (hindexed.perform (.restyle id))
      (hstep hforest hindexed hd id)

/-- **Restyling several nodes covers each of them.** -/
theorem covered_foldl_restyle {ids : List NodeId} (hmem : leaf ∈ ids)
    (hc : d.contains leaf = true) :
    (ids.foldl (fun d id => (d.restyle id).1) d).Covered leaf := by
  induction ids generalizing d with
  | nil => cases hmem
  | cons id rest ih =>
    have hforest' := hforest.perform (.restyle id)
    have hindexed' := hindexed.perform (.restyle id)
    rcases List.mem_cons.mp hmem with rfl | hmem
    · exact foldl_restyle hforest' hindexed' (·.Covered leaf) Covered.restyle
        (covered_restyle_self hforest hindexed hc) rest
    · exact ih hforest' hindexed' hmem (((keeps_restyle d id).contains leaf).trans hc)

end Matching

/-! ## Every run -/

/-- A change to what only restyling reads takes no cover away. -/
theorem CoveredUnmarked.of_keeps
    (h : Keeps (fun n => ((n.parent, n.face), n.listeners, n.dirty)) d e)
    (hd : d.CoveredUnmarked) : e.CoveredUnmarked := by
  intro id hc hclean
  rw [h.contains] at hc
  rw [(h.map (·.2.2)).isDirty] at hclean
  exact (hd id hc hclean).congr ((h.map Prod.fst).sameSurroundings id)
    fun holder => listenersFor_congr ((h.map (·.2.1)).listenersOf holder) id

theorem CoveredUnmarked.restyle_modify (hd : d.CoveredUnmarked) (hforest : d.IsForest)
    (hindexed : d.ListenersIndexed) (id : NodeId) (style : Node → Declaration) :
    ((d.modify id fun n => { n with inlineStyle := style n }).restyle id).1.CoveredUnmarked := by
  have hkeeps : Keeps
      (fun n => ((n.links, n.listening), (n.parent, n.face), n.listeners, n.dirty)) d
      (d.modify id fun n => { n with inlineStyle := style n }) := keeps_modify d id fun _ => rfl
  exact (of_keeps (hkeeps.map (·.2)) hd).restyle ((hkeeps.map (·.1.1)).isForest hforest)
    ((hkeeps.map (·.1.2)).listenersIndexed hindexed) id

theorem CoveredUnmarked.perform (hd : d.CoveredUnmarked) (hforest : d.IsForest)
    (hindexed : d.ListenersIndexed) (a : Action) : (d.perform a).CoveredUnmarked := by
  cases a with
  | replaceInline id style => exact hd.restyle_modify hforest hindexed id _
  | updateInline id style => exact hd.restyle_modify hforest hindexed id _
  | rematch id =>
    intro x hc hclean
    rw [Document.perform, (keeps_rematch d id).contains] at hc
    exact (hd x hc (isDirty_of_rematch hclean)).rematch hforest hindexed id
  | applyRules id rules => exact of_keeps (keeps_modify d id fun _ => rfl) hd
  | restyle id => exact hd.restyle hforest hindexed id
  | restyleDirty =>
    exact foldl_restyle hforest hindexed CoveredUnmarked CoveredUnmarked.restyle hd d.dirtyNodes
  | _ => exact hd.of_spares (hforest.spares_perform hd.heldAbove fun h => h)

/-- **In every run, the nodes without mark are covered.** -/
theorem ReachableBy.coveredUnmarked {allowed : Action → Prop} (hd : ReachableBy allowed d) :
    d.CoveredUnmarked := by
  induction hd with
  | new media =>
    intro id hc hclean
    rw [contains, node?_new] at hc
    rw [isDirty, node?_new] at hclean
    split at hc
    · rename_i h
      rw [if_pos h] at hclean
      cases hclean
    · cases hc
  | perform hd _ ih => exact ih.perform hd.isForest hd.listenersIndexed _

theorem mem_dirtyNodes (hc : d.contains id = true) (hdirty : d.isDirty id = true) :
    id ∈ d.dirtyNodes := by
  refine List.mem_filter.mpr ⟨?_, hdirty⟩
  by_cases hattached : id ∈ d.subtree .root
  · exact List.mem_append_left _ hattached
  · refine List.mem_append_right _ (List.mem_filter.mpr ⟨mem_handles_of_contains hc, ?_⟩)
    simp [hc, hattached]

/-- **Once the marked nodes have been restyled, every node is covered.** -/
theorem covered_restyleDirty (hd : d.Reachable) (hc : d.contains id = true) :
    d.restyleDirty.1.Covered id := by
  cases hdirty : d.isDirty id with
  | true =>
    have hmem := mem_dirtyNodes hc hdirty
    exact covered_foldl_restyle hd.isForest hd.listenersIndexed hmem hc
  | false =>
    exact foldl_restyle hd.isForest hd.listenersIndexed (·.Covered id) Covered.restyle
      (hd.coveredUnmarked id hc hdirty) d.dirtyNodes

end Document
end StyleCascade
