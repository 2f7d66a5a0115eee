import StyleCascade.Proofs.ReadingOrder
import StyleCascade.Proofs.SheetPriority

/-!
# The order in which styles are pushed

A group of listeners pushes the styles of its satisfied members in the order of the registry, and
that is the order in which the selectors were read, not the order of the cascade.  A view that
lays later styles over earlier ones therefore shows what the last satisfied selector says that
was read.

The two orders agree on rules of equal specificity that both stand under a media condition or
both do not, as long as the rules were read in ascending order
(`Document.exists_pushes_of_run`).  They differ where a more specific selector was read first
(`Document.not_pairwise_rank_specificFirst`).
-/
namespace StyleCascade

/-! ## Ranks of listeners -/

/-- The rule of a listener as it would match by the listener's selector alone. -/
def Listener.asMatched (l : Listener) : MatchedRule where
  rule := l.rule
  specificity := l.selector.specificity
  pseudoKey := some l.pseudoKey

/-- The rank of a listener's rule in the cascade: the specificity of the selector, then standing
under a media condition, then order. -/
def Listener.rank (l : Listener) : ℕ ×ₗ Bool ×ₗ ℕ :=
  l.asMatched.rank

theorem Listener.rank_le_of_order_le {l m : Listener}
    (hspecificity : l.selector.specificity = m.selector.specificity)
    (hmedia : l.rule.inMedia = m.rule.inMedia) (horder : l.rule.order ≤ m.rule.order) :
    l.rank ≤ m.rank :=
  (MatchedRule.rank_le_iff_order_le hspecificity hmedia).mpr horder

/-! ## Styles over one another -/

/-- In a list, the last entry that a test finds stands behind all others that it would find. -/
theorem exists_findSome?_reverse {α β : Type} {R : α → α → Prop} {l : List α} {f : α → Option β}
    (h : l.Pairwise R) (hrefl : ∀ a, R a a) {a : α} (ha : a ∈ l) (hfound : (f a).isSome = true) :
    ∃ top ∈ l, l.reverse.findSome? f = f top ∧ R a top := by
  induction l using List.reverseRecOn with
  | nil => cases ha
  | append_singleton l last ih =>
    obtain ⟨hbefore, -, hcross⟩ := List.pairwise_append.mp h
    rw [List.reverse_concat, List.findSome?_cons]
    cases hlast : f last with
    | some b =>
      refine ⟨last, List.mem_append_right _ (List.mem_singleton.mpr rfl), hlast.symm, ?_⟩
      rcases List.mem_append.mp ha with ha | ha
      · exact hcross a ha last (List.mem_singleton.mpr rfl)
      · exact List.mem_singleton.mp ha ▸ hrefl a
    | none =>
      rcases List.mem_append.mp ha with ha | ha
      · obtain ⟨top, htop, hfind, hR⟩ := ih hbefore ha
        exact ⟨top, List.mem_append_left _ htop, hfind, hR⟩
      · rw [List.mem_singleton.mp ha, hlast] at hfound
        cases hfound

/-- A view after an update, if it lays later styles over earlier ones. -/
def ViewUpdate.lay (shown : Declaration) : ViewUpdate → Declaration
  | apply _ style => shown.merge style
  | restore => .empty

/-- What some updates lay over the normal style. -/
def laid (updates : List ViewUpdate) : Declaration :=
  updates.foldl ViewUpdate.lay .empty

namespace Document

variable {d : Document} {holder leaf : NodeId} {states : StateMap} {group : ListenerGroup}

/-! ## Pushes of a group -/

/-- The members of a group that are satisfied once the holder has reported the states. -/
def onMembers (d : Document) (holder : NodeId) (states : StateMap) (group : ListenerGroup) :
    List Listener :=
  (d.listenersOf holder).filter fun l =>
    l.group = group && (d.recordStates holder states).satisfied l

/-- The style that a listener lays over that of its leaf. -/
def pushedStyle (d : Document) (l : Listener) : Declaration :=
  (Declaration.ofList l.rule.declaration.enabled).expand (d.sheetStack l.leaf)

/-- What a group pushes: the styles of the members that are on, one by one, or one update back to
normal. -/
def pushes (d : Document) (holder : NodeId) (states : StateMap) (group : ListenerGroup) :
    List ViewUpdate :=
  match d.onMembers holder states group with
  | [] => [.restore]
  | on => on.map fun l => .apply l.pseudoKey (d.pushedStyle l)

theorem groupUpdates_recordStates (d : Document) (holder : NodeId) (states : StateMap)
    (group : ListenerGroup) :
    (d.recordStates holder states).groupUpdates holder group =
      (d.pushes holder states group).map (group.leaf, ·) := by
  rw [groupUpdates, listenersOf_recordStates, pushes, onMembers, pseudoUpdate_recordStates]
  generalize (d.listenersOf holder).filter (fun l => l.group = group &&
    (d.recordStates holder states).satisfied l) = on
  cases on with
  | nil => rfl
  | cons l rest => exact (List.map_map ..).symm

/-- The view of a leaf receives the pushes of a group on end. -/
theorem exists_deliveries_changeStates (hgroup : group ∈ d.groupsOf holder)
    (hview : d.hasView group.leaf = true) (states : StateMap) :
    ∃ earlier later, (d.changeStates holder states).2 =
      earlier ++ (d.pushes holder states group).map (Delivery.mk group.leaf) ++ later := by
  obtain ⟨before, after, hsplit⟩ := List.append_of_mem hgroup
  have hgroups : (d.recordStates holder states).groupsOf holder = before ++ group :: after := by
    rw [groupsOf, listenersOf_recordStates, ← groupsOf, hsplit]
  have hdelivered : (d.changeStates holder states).2 =
      (((d.recordStates holder states).updatesFrom holder).filter (d.hasView ·.1)).map
        fun u => ⟨u.1, u.2⟩ := by
    rw [← hasView_recordStates d holder states]
    exact deliveries_deliverAll _ _
  have hall : ((d.pushes holder states group).map (group.leaf, ·)).filter (d.hasView ·.1) =
      (d.pushes holder states group).map (group.leaf, ·) := by
    refine List.filter_eq_self.mpr fun u hu => ?_
    obtain ⟨update, -, rfl⟩ := List.mem_map.mp hu
    exact hview
  rw [hdelivered, updatesFrom, hgroups, List.flatMap_append, List.flatMap_cons,
    groupUpdates_recordStates, List.filter_append, List.filter_append, hall, List.map_append,
    List.map_append, List.map_map, ← List.append_assoc]
  exact ⟨_, _, rfl⟩

/-- The members that are on are listeners for the leaf, in the order of the registry. -/
theorem onMembers_sublist (d : Document) (holder : NodeId) (states : StateMap)
    (group : ListenerGroup) :
    (d.onMembers holder states group).Sublist (d.listenersFor holder group.leaf) := by
  refine List.monotone_filter_right _ fun l hl => ?_
  simp only [Bool.and_eq_true, decide_eq_true_eq] at hl
  have hleaf : l.leaf = group.leaf := congrArg ListenerGroup.leaf hl.1
  simpa using hleaf

/-- Of the styles that are laid over one another, the last one that has a key shows. -/
theorem get?_laid (d : Document) (listeners : List Listener) (key : String) :
    (laid (listeners.map fun l => .apply l.pseudoKey (d.pushedStyle l))).get? key =
      listeners.reverse.findSome? fun l => (d.pushedStyle l).get? key := by
  induction listeners using List.reverseRecOn with
  | nil => rfl
  | append_singleton listeners top ih =>
    have htop : laid ((listeners ++ [top]).map fun l => .apply l.pseudoKey (d.pushedStyle l)) =
        (laid (listeners.map fun l => .apply l.pseudoKey (d.pushedStyle l))).merge
          (d.pushedStyle top) := by
      rw [laid, List.map_append, List.map_singleton, List.foldl_concat]
      rfl
    rw [htop, Declaration.get?_merge, ih, List.reverse_concat, List.findSome?_cons]
    cases (d.pushedStyle top).get? key <;> rfl

/-- **A view shows what the last satisfied listener says** that says anything. -/
theorem get?_laid_pushes (d : Document) (holder : NodeId) (states : StateMap)
    (group : ListenerGroup) (key : String) :
    (laid (d.pushes holder states group)).get? key =
      (d.onMembers holder states group).reverse.findSome? fun l =>
        (d.pushedStyle l).get? key := by
  rw [pushes]
  split
  · rename_i hnone
    rw [hnone]
    rfl
  · exact get?_laid d _ key

/-! ## Ascending orders -/

/-- What is read later has no lower order, if the rules are read in ascending order. -/
theorem order_le_of_idxOf_lt (h : (d.activeRules leaf).Pairwise (·.order ≤ ·.order))
    {a b : ListenerKey} (ha : a ∈ d.readingOrder leaf) (hb : b ∈ d.readingOrder leaf)
    (hlt : (d.readingOrder leaf).idxOf a < (d.readingOrder leaf).idxOf b) :
    a.order ≤ b.order := by
  have hread : (d.readingOrder leaf).Pairwise (·.order ≤ ·.order) := by
    refine List.pairwise_flatMap.mpr ⟨fun rule _ => ?_, h.imp fun {r r'} hle => ?_⟩
    · exact List.pairwise_map.mpr (List.pairwise_of_forall fun _ _ => le_rfl)
    · intro x hx y hy
      obtain ⟨s, -, rfl⟩ := List.mem_map.mp hx
      obtain ⟨t, -, rfl⟩ := List.mem_map.mp hy
      exact hle
  have hle := List.pairwise_iff_getElem.mp hread _ _ (List.idxOf_lt_length_of_mem ha)
    (List.idxOf_lt_length_of_mem hb) hlt
  rwa [List.getElem_idxOf, List.getElem_idxOf] at hle

end Document

/-- The rule of `m` has no higher order than that of `top`, and so no higher rank, if the
selectors are equally specific and the rules both stand under a media condition or both do not. -/
def Listener.AtMost (m top : Listener) : Prop :=
  m.rule.order ≤ top.rule.order ∧
    (m.selector.specificity = top.selector.specificity → m.rule.inMedia = top.rule.inMedia →
      m.rank ≤ top.rank)

theorem Listener.atMost_of_order_le {m top : Listener} (h : m.rule.order ≤ top.rule.order) :
    m.AtMost top :=
  ⟨h, fun hspecificity hmedia => rank_le_of_order_le hspecificity hmedia h⟩

namespace Document

/-- **Styles are pushed in the order in which selectors were read.**  What a group pushes reaches
the view of its leaf on end: the styles of the satisfied members, in the reading order of the last
match of the leaf.  A view that lays later styles over earlier ones shows under each key what the
last of these styles has there.  Where rules were read in ascending order, the styles come in
ascending order, and among members of equal specificity and media membership in ascending rank. -/
theorem exists_pushes_of_run {media : MediaEnvironment} {actions : List Action}
    {holder : NodeId} {l : Listener}
    (hl : l ∈ ((new media).performAll actions).listenersOf holder)
    (hview : ((new media).performAll actions).hasView l.leaf = true) (states : StateMap) :
    let d := (new media).performAll actions
    let on := d.onMembers holder states l.group
    let pushes := d.pushes holder states l.group
    (∃ earlier later, (d.changeStates holder states).2 =
      earlier ++ pushes.map (Delivery.mk l.leaf) ++ later) ∧
    (∀ key, (laid pushes).get? key =
      on.reverse.findSome? fun m => (d.pushedStyle m).get? key) ∧
    ∃ read, lastReading? l.leaf (new media) actions = some read ∧
      InReadingOrder (read.readingOrder l.leaf) on ∧
      ((read.activeRules l.leaf).Pairwise (·.order ≤ ·.order) →
        on.Pairwise Listener.AtMost ∧
        ∀ key, ∀ m ∈ on, ((d.pushedStyle m).get? key).isSome = true →
          ∃ top ∈ on, (laid pushes).get? key = (d.pushedStyle top).get? key ∧ m.AtMost top) := by
  intro d on pushes
  have hgroup : l.group ∈ d.groupsOf holder := mem_groupsOf_iff.mpr ⟨l, hl, rfl⟩
  have hshown := get?_laid_pushes d holder states l.group
  obtain ⟨read, hread, hordered⟩ := inReadingOrder_of_run hl
  have hon : InReadingOrder (read.readingOrder l.leaf) on :=
    hordered.sublist (onMembers_sublist d holder states l.group)
  refine ⟨exists_deliveries_changeStates hgroup hview states, hshown, read, hread, hon,
    fun hascending => ?_⟩
  have hatMost : on.Pairwise Listener.AtMost :=
    hon.ordered.imp_of_mem fun {m top} hm htop hlt => Listener.atMost_of_order_le
      (order_le_of_idxOf_lt hascending (hon.mem m hm) (hon.mem top htop) hlt)
  refine ⟨hatMost, fun key m hm hsome => ?_⟩
  obtain ⟨top, htop, hfind, hle⟩ := exists_findSome?_reverse
    (f := fun m => (d.pushedStyle m).get? key) hatMost
    (fun m => Listener.atMost_of_order_le le_rfl) hm hsome
  exact ⟨top, htop, (hshown key).trans hfind, hle⟩

/-- The selector `#go:active label`. -/
def activeGoLabel : Selector where
  subject := ⟨.element, "label", none⟩
  links := [⟨.descendant, ⟨.id, "go", some "active"⟩⟩]

/-- A run that makes a label with a view in a button with an id, under a rule for the id and a
rule for buttons, which gives another color. -/
def specificFirst : List Action := [
  .addSheet ⟨0, { rules := [.style (redRule activeGoLabel 0),
    .style { redRule activeButtonLabel 1 with
      declaration := .ofList [{ name := "color", value := some (.string "blue") }] }] }⟩,
  .create "button", .setId ⟨1⟩ "go", .append .root ⟨1⟩, .create "label", .append ⟨1⟩ ⟨2⟩,
  .bind ⟨2⟩ {}, .restyleDirty]

/-- The orders of the two rules ascend as they are read, so they ascend as they are pushed. -/
theorem exists_pushes_of_run_specificFirst :
    ∃ l ∈ ((new {}).performAll specificFirst).listenersOf ⟨1⟩,
      ((new {}).performAll specificFirst).hasView l.leaf = true ∧
        ∃ read, lastReading? l.leaf (new {}) specificFirst = some read ∧
          (read.activeRules l.leaf).Pairwise (·.order ≤ ·.order) ∧
          (((new {}).performAll specificFirst).onMembers ⟨1⟩ [("active", true)]
            l.group).Pairwise Listener.AtMost := by
  obtain ⟨l, hl, hleaf, hview⟩ : ∃ l ∈ ((new {}).performAll specificFirst).listenersOf ⟨1⟩,
      l.leaf = ⟨2⟩ ∧ ((new {}).performAll specificFirst).hasView l.leaf = true := by
    decide +kernel
  obtain ⟨-, -, read, hread, -, hordered⟩ := exists_pushes_of_run hl hview [("active", true)]
  have horders : (lastReading? ⟨2⟩ (new {}) specificFirst).map
      (fun read => (read.activeRules ⟨2⟩).map (·.order)) = some [0, 1] := by decide +kernel
  rw [← hleaf, hread, Option.map_some, Option.some.injEq] at horders
  have hascending : (read.activeRules l.leaf).Pairwise (·.order ≤ ·.order) := by
    rw [← List.pairwise_map (f := StyleRule.order) (R := (· ≤ ·)), horders]
    decide
  exact ⟨l, hl, hview, read, hread, hascending, (hordered hascending).1⟩

/-- The style of the more specific rule is pushed first, so the view shows the color of the
other one. -/
theorem not_pairwise_rank_specificFirst :
    ((new {}).performAll specificFirst).Reachable ∧
      ((new {}).performAll specificFirst).hasView ⟨2⟩ = true ∧
      (((new {}).performAll specificFirst).onMembers ⟨1⟩ [("active", true)]
        ⟨⟨2⟩, "label"⟩).map Listener.pseudoKey = ["#go:active label", "button:active label"] ∧
      ¬(((new {}).performAll specificFirst).onMembers ⟨1⟩ [("active", true)]
        ⟨⟨2⟩, "label"⟩).Pairwise (fun l m => l.rank ≤ m.rank) ∧
      ((laid (received ⟨2⟩ (((new {}).performAll specificFirst).changeStates ⟨1⟩
        [("active", true)]).2)).get? "color").map Property.valueText = some "blue" := by
  refine ⟨reachable_performAll {} _, by decide +kernel, by decide +kernel, fun h => ?_,
    by decide +kernel⟩
  have hle : (((new {}).performAll specificFirst).onMembers ⟨1⟩ [("active", true)]
      ⟨⟨2⟩, "label"⟩).Pairwise fun l m => l.asMatched.rankLe m.asMatched = true :=
    h.imp fun {l m} hrank => (MatchedRule.rankLe_iff _ _).mpr hrank
  exact absurd hle (by decide +kernel)

end Document
end StyleCascade
