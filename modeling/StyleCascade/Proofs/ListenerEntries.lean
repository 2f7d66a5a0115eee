import StyleCascade.Proofs.ListenerCover
import StyleCascade.Proofs.MatchedRules
import StyleCascade.Proofs.ReadingOrder
import StyleCascade.Proofs.Rekeying

/-!
# Listeners and the entries of their rules

A view receives the style of a rule under the text of a listener's selector.  The final style of
the leaf holds the properties of the rule as well, but under one key for the whole rule: their
own keys if a selector of the rule matches at once, or else the state `pseudo+` with the text of
the first of the most specific selectors that match by shape
(`Document.keys_finalStyle_of_mem_listenersFor`).  Of the listeners of a rule with several such
selectors, the others have no entry of their own (`Document.notMem_keys_finalStyle_nestedSample`).
-/
namespace StyleCascade

/-- What a rule contributes to a cascade has an entry in the end. -/
theorem Declaration.key_entered_mem_keys_cascade {m : MatchedRule} {rules : List MatchedRule}
    (hm : m ∈ rules) {p : Property} (hp : p ∈ m.rule.declaration.enabled)
    (before inline : Declaration) (sheets : SheetStack) :
    (m.entered p).key ∈ (before.cascade rules inline sheets).keys := by
  have hcontributed : m.entered p ∈ rules.flatMap (·.contributions) := by
    refine List.mem_flatMap.mpr ⟨m, hm, ?_⟩
    rw [m.contributions_eq]
    exact List.mem_map_of_mem hp
  have hwritten : (m.entered p).key ∈
      (before.clear.insertAll (rules.flatMap (·.contributions))).keys := by
    rw [keys, properties_insertAll, Keyed.mem_map_key_upsertAll]
    exact .inr (List.mem_map_of_mem hcontributed)
  exact (keys_prefix_expand _).subset ((keys_prefix_insertAll _ _).subset hwritten)

namespace Selector.FirstBest

variable {P : Selector → Prop} {selectors : List Selector} {s t : Selector}

theorem mem (hs : FirstBest P selectors s) : s ∈ selectors := by
  obtain ⟨before, after, rfl, -, -⟩ := hs.place
  exact List.mem_append_right _ List.mem_cons_self

/-- There is one first best selector. -/
theorem unique (hs : FirstBest P selectors s) (ht : FirstBest P selectors t) : s = t := by
  obtain ⟨hPs, before, after, rfl, hbefore, hafter⟩ := hs
  obtain ⟨hPt, before', after', heq, hbefore', hafter'⟩ := ht
  rcases List.append_eq_append_iff.mp heq with ⟨between, rfl, hrest⟩ | ⟨between, rfl, hrest⟩
  · cases between with
    | nil => exact (List.cons.inj hrest).1
    | cons first between =>
      obtain ⟨rfl, rfl⟩ := List.cons.inj hrest
      exact absurd (hafter t (by simp) hPt) (Nat.not_le.mpr (hbefore' s (by simp) hPs))
  · cases between with
    | nil => exact (List.cons.inj hrest).1.symm
    | cons first between =>
      obtain ⟨rfl, rfl⟩ := List.cons.inj hrest
      exact absurd (hafter' s (by simp) hPs) (Nat.not_le.mpr (hbefore t (by simp) hPt))

end Selector.FirstBest

namespace Document

variable {d : Document} {id leaf holder : NodeId}

/-- A node for a link stands above the subject and fits its part. -/
theorem Chain.exists_of_mem {Fits : NodeId → SimpleSelector → Prop} {below : NodeId}
    {links : List SelectorLink} {nodes : List NodeId} (h : d.Chain Fits below links nodes)
    {link : SelectorLink} (hlink : link ∈ links) :
    ∃ above, d.IsAncestor above below ∧ Fits above link.part := by
  induction h with
  | nil below => cases hlink
  | @cons below id first links nodes hjoin hfit hrest ih =>
    have habove : d.IsAncestor id below := by
      cases hcombinator : first.combinator with
      | child =>
        rw [hcombinator] at hjoin
        exact Relation.TransGen.single hjoin
      | descendant =>
        rw [hcombinator] at hjoin
        exact hjoin
    rcases List.mem_cons.mp hlink with rfl | hlink
    · exact ⟨id, habove, hfit⟩
    · obtain ⟨above, hover, hfits⟩ := ih hlink
      exact ⟨above, hover.trans habove, hfits⟩

namespace IsForest

variable (hd : d.IsForest)
include hd

/-- A selector that applies by shape asks some ancestor for a listener. -/
theorem exists_mem_neededAt {rule : StyleRule} (hrule : rule ∈ d.activeRules leaf) {s : Selector}
    (hs : s ∈ rule.selectors) (happlies : d.AppliesByShape leaf s) :
    ∃ above, (⟨s, leaf, rule⟩ : Listener) ∈ d.neededAt leaf above := by
  have hmatch := (hd.cascadeMatch_eq_pseudo_iff s).mpr happlies
  obtain ⟨⟨link, hlink, hstate⟩, -, -, nodes, hnodes⟩ := happlies
  obtain ⟨above, habove, hname⟩ := hnodes.exists_of_mem hlink
  refine ⟨above, mem_neededAt hrule hs hmatch (hd.mem_ancestors_iff.mpr habove)
    ⟨link.part, ?_, (fitsShape_iff above link.part).mpr hname⟩⟩
  refine List.mem_filter.mpr ⟨List.mem_map_of_mem hlink, ?_⟩
  simpa [SimpleSelector.hasState, Option.isSome_iff_ne_none] using hstate

/-- A rule of which a selector applies at once is matched without a key. -/
theorem matchRule?_of_appliesAtOnce {rule : StyleRule} {s : Selector} (hs : s ∈ rule.selectors)
    (happlies : d.AppliesAtOnce leaf s) :
    ∃ m, d.matchRule? leaf rule = some m ∧ m.rule = rule ∧ m.pseudoKey = none := by
  have hentry : d.EntryOf leaf rule (d.matchRule? leaf rule) := hd.entryOf_matchRule? rule
  generalize d.matchRule? leaf rule = entry at hentry
  cases hentry with
  | none h => exact absurd happlies (h s hs).1
  | atOnce _ => exact ⟨_, rfl, rfl, rfl⟩
  | byShape hnone _ => exact absurd happlies (hnone s hs)

/-- A rule of which selectors apply by shape only is known by the first of the best. -/
theorem matchRule?_of_appliesByShape {rule : StyleRule}
    (hnone : ∀ t ∈ rule.selectors, ¬d.AppliesAtOnce leaf t) {s : Selector}
    (hs : s ∈ rule.selectors) (happlies : d.AppliesByShape leaf s) :
    ∃ m best, d.matchRule? leaf rule = some m ∧ m.rule = rule ∧ m.pseudoKey = some best.text ∧
      Selector.FirstBest (d.AppliesByShape leaf) rule.selectors best := by
  have hentry : d.EntryOf leaf rule (d.matchRule? leaf rule) := hd.entryOf_matchRule? rule
  generalize d.matchRule? leaf rule = entry at hentry
  cases hentry with
  | none h => exact absurd happlies (h s hs).2
  | @atOnce t ht =>
    exact absurd ht.holds (hnone t ht.mem)
  | byShape _ hbest => exact ⟨_, _, rfl, rfl, rfl, hbest⟩

end IsForest

/-- A selector that applies by shape does not apply at once. -/
theorem AppliesByShape.not_appliesAtOnce {s : Selector} (h : d.AppliesByShape leaf s) :
    ¬d.AppliesAtOnce leaf s := by
  obtain ⟨⟨link, hlink, hstate⟩, -⟩ := h
  exact fun honce => hstate (honce.1 link hlink)

/-- Right after a leaf has been restyled, the leaf exists if somebody listens for it. -/
theorem contains_of_mem_listenersFor_restyle (hindexed : d.ListenersIndexed) {l : Listener}
    (hl : l ∈ (d.restyle leaf).1.listenersFor holder leaf) : d.contains leaf = true := by
  by_contra hnot
  have habsent : d.contains leaf = false := by simpa using hnot
  rw [restyle_of_not_contains habsent, hindexed.listenersFor_of_not_contains habsent] at hl
  cases hl

section Restyled

variable (hforest : d.IsForest) (hindexed : d.ListenersIndexed)
include hforest hindexed

/-- Right after a leaf has been restyled, the listeners for it have selectors of active rules that
apply by shape. -/
theorem appliesByShape_of_mem_listenersFor_restyle {l : Listener}
    (hl : l ∈ (d.restyle leaf).1.listenersFor holder leaf) :
    l.rule ∈ d.activeRules leaf ∧ l.selector ∈ l.rule.selectors ∧
      d.AppliesByShape leaf l.selector := by
  have hc := contains_of_mem_listenersFor_restyle hindexed hl
  rw [hforest.listenersFor_restyle_self hindexed hc] at hl
  obtain ⟨rule, hrule, s, hs, hmatch, -, rfl⟩ := exists_of_mem_neededAt
    ((Keyed.mem_of_mem_upsertAll Listener.key hl).resolve_left List.not_mem_nil)
  exact ⟨hrule, hs, (hforest.cascadeMatch_eq_pseudo_iff s).mp hmatch⟩

/-- Right after a leaf has been restyled, there are listeners for all selectors of active rules
that apply by shape. -/
theorem exists_mem_listenersFor_restyle (hc : d.contains leaf = true) {rule : StyleRule}
    (hrule : rule ∈ d.activeRules leaf) {s : Selector} (hs : s ∈ rule.selectors)
    (happlies : d.AppliesByShape leaf s) :
    ∃ above, ∃ l ∈ (d.restyle leaf).1.listenersFor above leaf, l.key = ⟨s, leaf, rule.order⟩ := by
  obtain ⟨above, hneeded⟩ := hforest.exists_mem_neededAt hrule hs happlies
  have hkey : (⟨s, leaf, rule.order⟩ : ListenerKey) ∈
      ((d.restyle leaf).1.listenersFor above leaf).map Listener.key := by
    rw [hforest.listenersFor_restyle_self hindexed hc, Keyed.mem_map_key_upsertAll]
    exact .inr (List.mem_map_of_mem hneeded)
  exact ⟨above, List.mem_map.mp hkey⟩

end Restyled

/-- What a matched rule enters has an entry in the final style of the node. -/
theorem key_entered_mem_keys_finalStyle {after : Node}
    (hafter : (d.restyle id).1.node? id = some after) (hc : d.contains id = true)
    {m : MatchedRule} (hm : m ∈ d.matchedRules id) {p : Property}
    (hp : p ∈ m.rule.declaration.enabled) : (m.entered p).key ∈ after.finalStyle.keys := by
  obtain ⟨node, hnode⟩ := Option.isSome_iff_exists.mp hc
  obtain ⟨after', hafter', -, -, hfinal⟩ := node?_restyle_self hnode
  obtain rfl : after' = after := Option.some.inj (hafter'.symm.trans hafter)
  rw [hfinal]
  exact Declaration.key_entered_mem_keys_cascade hm hp _ _ _

/-- **What the final style holds of a listener's rule.**  Right after a leaf has been restyled,
the rule of a listener for it is in the leaf's final style.  If a selector of the rule applies at
once, every enabled property has an entry under its own key.  Otherwise every enabled property
without a state has one under `pseudo+` and the text of the first of the most specific selectors
of the rule that apply by shape, and there is a listener with that selector.  This is the
listener's own key if its selector is the one. -/
theorem keys_finalStyle_of_mem_listenersFor (hd : d.Reachable) {l : Listener}
    (hl : l ∈ (d.restyle leaf).1.listenersFor holder leaf) :
    ∃ after, (d.restyle leaf).1.node? leaf = some after ∧
      ((∃ s ∈ l.rule.selectors, d.AppliesAtOnce leaf s) →
        ∀ p ∈ l.rule.declaration.enabled, p.key ∈ after.finalStyle.keys) ∧
      ((∀ s ∈ l.rule.selectors, ¬d.AppliesAtOnce leaf s) →
        ∃ best, Selector.FirstBest (d.AppliesByShape leaf) l.rule.selectors best ∧
          (∃ above, ∃ m ∈ (d.restyle leaf).1.listenersFor above leaf,
            m.key = ⟨best, leaf, l.rule.order⟩) ∧
          ∀ p ∈ l.rule.declaration.enabled, p.state = none →
            p.name ++ ":pseudo+" ++ best.text ∈ after.finalStyle.keys) ∧
      ((∀ s ∈ l.rule.selectors, ¬d.AppliesAtOnce leaf s) →
        Selector.FirstBest (d.AppliesByShape leaf) l.rule.selectors l.selector →
        ∀ p ∈ l.rule.declaration.enabled, p.state = none →
          p.name ++ ":pseudo+" ++ l.pseudoKey ∈ after.finalStyle.keys) := by
  have hforest := hd.isForest
  have hindexed := hd.listenersIndexed
  have hc := contains_of_mem_listenersFor_restyle hindexed hl
  obtain ⟨hrule, hselector, hshape⟩ :=
    appliesByShape_of_mem_listenersFor_restyle hforest hindexed hl
  obtain ⟨node, hnode⟩ := Option.isSome_iff_exists.mp hc
  obtain ⟨after, hafter, -⟩ := node?_restyle_self hnode
  have hentered : ∀ {m : MatchedRule}, d.matchRule? leaf l.rule = some m → m.rule = l.rule →
      ∀ p ∈ l.rule.declaration.enabled, (m.entered p).key ∈ after.finalStyle.keys := by
    intro m hm hmrule p hp
    exact key_entered_mem_keys_finalStyle hafter hc (mem_matchedRules.mpr ⟨l.rule, hrule, hm⟩)
      (hmrule ▸ hp)
  -- Without a selector that applies at once, the rule is entered under the best one.
  have hbyShape : (∀ s ∈ l.rule.selectors, ¬d.AppliesAtOnce leaf s) →
      ∃ best, Selector.FirstBest (d.AppliesByShape leaf) l.rule.selectors best ∧
        ∀ p ∈ l.rule.declaration.enabled, p.state = none →
          p.name ++ ":pseudo+" ++ best.text ∈ after.finalStyle.keys := by
    intro hnone
    obtain ⟨m, best, hm, hmrule, hkey, hbest⟩ :=
      hforest.matchRule?_of_appliesByShape hnone hselector hshape
    refine ⟨best, hbest, fun p hp hstate => ?_⟩
    have hplain : p.isPseudo = false := by rw [Property.isPseudo, hstate]
    rw [← MatchedRule.key_entered_of_not_isPseudo hkey hplain]
    exact hentered hm hmrule p hp
  refine ⟨after, hafter, ?_, fun hnone => ?_, fun hnone hown p hp hstate => ?_⟩
  · rintro ⟨s, hs, honce⟩ p hp
    obtain ⟨m, hm, hmrule, hkey⟩ := hforest.matchRule?_of_appliesAtOnce hs honce
    have hsame : m.entered p = p := by rw [MatchedRule.entered, hkey]
    rw [← hsame]
    exact hentered hm hmrule p hp
  · obtain ⟨best, hbest, hkeys⟩ := hbyShape hnone
    exact ⟨best, hbest,
      exists_mem_listenersFor_restyle hforest hindexed hc hrule hbest.mem hbest.holds, hkeys⟩
  · obtain ⟨best, hbest, hkeys⟩ := hbyShape hnone
    obtain rfl : best = l.selector := hbest.unique hown
    exact hkeys p hp hstate

/-- Adding a sheet leaves nothing but marks beside the sheet. -/
theorem matchedRules_addSheet (d : Document) (sheet : SharedSheet) (id : NodeId) :
    (d.addSheet sheet).matchedRules id =
      { d with sheets := d.sheets ++ [sheet] }.matchedRules id := by
  have hkeeps : Keeps Node.apartFromStyling { d with sheets := d.sheets ++ [sheet] }
      (d.addSheet sheet) := by
    refine ⟨size_addSheet d sheet, ?_, ?_, fun j => ?_⟩
    · rw [addSheet, addOwner]
      split <;> rfl
    · rw [addSheet, addOwner]
      split <;> rfl
    · rw [node?_addSheet, Option.map_map]
      rfl
  exact hkeeps.matchedRules id

/-- The selector `button:active label` after `list:active label`, which is as specific. -/
def nestedRule : StyleRule where
  selectors := [activeLabel, activeButtonLabel]
  declaration := .ofList [{ name := "color", value := some (.string "red") }]
  text := "list:active label, button:active label"
  order := 0

/-- A label in a button in a list. -/
def nestedLabel : Document :=
  Document.new.performAll [.create "list", .append .root ⟨1⟩, .create "button",
    .append ⟨1⟩ ⟨2⟩, .create "label", .append ⟨2⟩ ⟨3⟩]

/-- The label under that rule. -/
def nestedSample : Document :=
  nestedLabel.addSheet ⟨0, { rules := [.style nestedRule] }⟩

theorem reachable_nestedSample : nestedSample.Reachable :=
  ReachableBy.perform (reachable_performAll {} _) (a := .addSheet _) trivial

/-- The list holds a listener with the first selector, whose text the style is entered under. -/
theorem keys_finalStyle_of_mem_listenersFor_nestedSample :
    nestedSample.Reachable ∧
      ∃ l ∈ (nestedSample.restyle ⟨3⟩).1.listenersFor ⟨1⟩ ⟨3⟩,
        l.pseudoKey = "list:active label" ∧
        ∃ after, (nestedSample.restyle ⟨3⟩).1.node? ⟨3⟩ = some after ∧
          "color:pseudo+list:active label" ∈ after.finalStyle.keys := by
  have hreach := reachable_nestedSample
  obtain ⟨l, hl, hselector, hselectors, henabled⟩ :
      ∃ l ∈ (nestedSample.restyle ⟨3⟩).1.listenersFor ⟨1⟩ ⟨3⟩, l.selector = activeLabel ∧
        l.rule.selectors = nestedRule.selectors ∧
        l.rule.declaration.enabled.map (fun p => (p.name, p.state)) = [("color", none)] := by
    decide +kernel
  have hshape : ∀ s ∈ nestedRule.selectors, nestedSample.AppliesByShape ⟨3⟩ s := by
    intro s hs
    refine (hreach.isForest.cascadeMatch_eq_pseudo_iff s).mp ?_
    revert s
    decide +kernel
  have hkey : l.pseudoKey = "list:active label" := by
    rw [Listener.pseudoKey, hselector]
    decide +kernel
  obtain ⟨after, hafter, -, -, hown⟩ := keys_finalStyle_of_mem_listenersFor hreach hl
  obtain ⟨p, hp, hcolor⟩ : ∃ p ∈ l.rule.declaration.enabled, (p.name, p.state) = ("color", none) :=
    List.mem_map.mp (by rw [henabled]; exact List.mem_singleton.mpr rfl)
  obtain ⟨hname, hstate⟩ := Prod.mk.inj hcolor
  have hfirst : Selector.FirstBest (nestedSample.AppliesByShape ⟨3⟩) nestedRule.selectors
      activeLabel := by
    refine ⟨hshape activeLabel (by decide), [], [activeButtonLabel], rfl, by simp, ?_⟩
    exact fun t ht _ => List.mem_singleton.mp ht ▸ by decide
  rw [hselectors, hselector, hkey] at hown
  have hentry := hown (fun s hs => (hshape s hs).not_appliesAtOnce) hfirst p hp hstate
  rw [hname] at hentry
  exact ⟨hreach, l, hl, hkey, after, hafter, hentry⟩

/-- The button holds a listener with the second selector, whose text nothing is entered under. -/
theorem notMem_keys_finalStyle_nestedSample :
    nestedSample.Reachable ∧
      (∃ l ∈ (nestedSample.restyle ⟨3⟩).1.listenersFor ⟨2⟩ ⟨3⟩,
        l.pseudoKey = "button:active label" ∧
          l.rule.declaration.enabled.map (fun p => (p.name, p.state)) = [("color", none)]) ∧
      ∃ after, (nestedSample.restyle ⟨3⟩).1.node? ⟨3⟩ = some after ∧
        "color:pseudo+button:active label" ∉ after.finalStyle.keys := by
  have hmatched : nestedSample.matchedRules ⟨3⟩ =
      [{ rule := nestedRule, specificity := 2, pseudoKey := some "list:active label" }] :=
    (matchedRules_addSheet nestedLabel _ ⟨3⟩).trans (List.mergeSort_singleton _)
  obtain ⟨after, hafter, -, -, hfinal⟩ :=
    @node?_restyle_self nestedSample ⟨3⟩ _ (node?_addSheet nestedLabel _ ⟨3⟩)
  have hkeys : after.finalStyle.keys = ["color:pseudo+list:active label"] := by
    rw [hfinal, hmatched]
    rfl
  refine ⟨reachable_nestedSample, by decide +kernel, after, hafter, ?_⟩
  rw [hkeys]
  decide

end Document
end StyleCascade
