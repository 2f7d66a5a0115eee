import StyleCascade.Proofs.CascadeLaw
import StyleCascade.Proofs.QuietRuns
import StyleCascade.Proofs.Unaffected

/-!
# A node that is not dirty is up to date

In a quiet run, every node that is not dirty is settled: its final style is a cascade of
the rules that match it now, it remembers these rules, and it has the listeners that they
ask for (`Document.Settled`).  An action does not affect the nodes that it leaves without
mark, or it restyles a node; so every action keeps the nodes settled
(`Fresh.upToDate_perform`).  Restyling a settled node changes nothing
(`Document.finalStyle_restyle_of_not_dirty`), since a cascade over its own result gives
that result.
-/
namespace StyleCascade
namespace Document

/-- A node is settled if it shows a cascade of the rules that match it now, remembers them,
and has the listeners that it asks for, and no others. -/
structure Settled (d : Document) (id : NodeId) : Prop where
  styled : ∃ n, d.node? id = some n ∧ n.matched = some (d.matchedRules id) ∧
    ∃ before : Declaration,
      n.finalStyle = before.cascade (d.matchedRules id) n.inlineStyle (d.sheetStack id)
  listening : ∀ holder,
    d.listenersFor holder id = Keyed.upsertAll Listener.key [] (d.neededAt id holder)

/-- Every node that is not dirty is settled. -/
def UpToDate (d : Document) : Prop :=
  ∀ id, d.contains id = true → d.isDirty id = false → d.Settled id

variable {d e : Document} {id : NodeId}

/-- Where no subject has a state, a settled node that is not affected stays settled. -/
theorem Unaffected.settled (h : Unaffected d e id) (hstateless : d.StatelessSubjects)
    (hd : d.Settled id) : e.Settled id := by
  have hmatch : ∀ rule ∈ d.activeRules id, ∀ s ∈ rule.selectors,
      e.cascadeMatch s id = d.cascadeMatch s id := fun rule hrule s hs =>
    h.surroundings.cascadeMatch_of_stateless (hstateless.hasState_subject hrule hs)
  obtain ⟨n, hn, hmatched, before, hfinal⟩ := hd.styled
  have houtcome := h.outcome
  rw [hn] at houtcome
  obtain ⟨m, hm, heq⟩ := Option.map_eq_some_iff.mp houtcome
  obtain ⟨hinline, heq⟩ := Prod.mk.inj heq
  obtain ⟨hstyle, hrules⟩ := Prod.mk.inj heq
  refine ⟨⟨m, hm, ?_, before, ?_⟩, fun holder => ?_⟩
  · rw [hrules, h.surroundings.matchedRules hmatch, hmatched]
  · rw [hstyle, hinline, h.surroundings.matchedRules hmatch, h.surroundings.sheetStack, hfinal]
  · rw [h.listening, hd.listening, neededAt, neededAt, h.surroundings.neededListeners hmatch]

theorem UpToDate.of_spares (hd : d.UpToDate) (hstateless : d.StatelessSubjects)
    (h : Spares d e) : e.UpToDate := by
  intro id hc hclean
  obtain ⟨hbefore, hsame⟩ := h id hc hclean
  exact hsame.settled hstateless (hd id (hsame.contains.symm.trans hc) hbefore)

/-! ## The actions -/

/-- What quiet runs keep. -/
structure Fresh (d : Document) : Prop where
  forest : d.IsForest
  indexed : d.ListenersIndexed
  stateless : d.StatelessSubjects
  upToDate : d.UpToDate

namespace Fresh

theorem heldAbove (hd : d.Fresh) : d.HeldAbove := by
  intro id hc hclean holder hnot
  rw [(hd.upToDate id hc hclean).listening, neededAt_of_notMem hnot]
  rfl

theorem upToDate_rematch (hd : d.Fresh) (id : NodeId) : (d.rematch id).1.UpToDate := by
  have hkeeps := keeps_rematch d id
  refine hd.upToDate.of_spares hd.stateless fun x hc hclean => ?_
  have hbefore := isDirty_of_rematch hclean
  rw [hkeeps.contains] at hc
  refine ⟨hbefore, (hkeeps.map Node.outcome).nodes x,
    (hkeeps.map fun n => (n.parent, n.face)).sameSurroundings x, fun holder => ?_⟩
  by_cases hx : x = id
  · subst hx
    rw [hd.forest.listenersFor_rematch_self hd.indexed, (hd.upToDate x hc hbefore).listening]
  · exact listenersFor_rematch_of_ne d hx holder

end Fresh

/-- A restyled node is settled. -/
theorem settled_restyle (hforest : d.IsForest) (hindexed : d.ListenersIndexed)
    (hc : d.contains id = true) : (d.restyle id).1.Settled id := by
  obtain ⟨n, hn⟩ := Option.isSome_iff_exists.mp hc
  obtain ⟨after, hafter, hmatched, hinline, hfinal⟩ := node?_restyle_self hn
  have hkeeps := keeps_restyle d id
  refine ⟨⟨after, hafter, ?_, n.finalStyle, ?_⟩, fun holder => ?_⟩
  · rw [hkeeps.matchedRules, hmatched]
  · rw [hkeeps.matchedRules, hkeeps.sheetStack, hinline, hfinal]
  · rw [hforest.listenersFor_restyle_self hindexed hc, hkeeps.neededAt]

/-- Restyling settles a node, and the others stay as they are. -/
theorem upToDate_restyle (hforest : d.IsForest) (hindexed : d.ListenersIndexed)
    (hstateless : d.StatelessSubjects)
    (hd : ∀ x, x ≠ id → d.contains x = true → d.isDirty x = false → d.Settled x) :
    (d.restyle id).1.UpToDate := by
  intro x hc hclean
  rw [(keeps_restyle d id).contains] at hc
  by_cases hx : x = id
  · subst hx
    exact settled_restyle hforest hindexed hc
  · exact (unaffected_restyle_of_ne d hx).settled hstateless
      (hd x hx hc (isDirty_of_restyle hx hclean))

namespace Fresh

theorem restyle (hd : d.Fresh) (id : NodeId) : (d.restyle id).1.Fresh where
  forest := hd.forest.perform (.restyle id)
  indexed := hd.indexed.perform (.restyle id)
  stateless := hd.stateless.perform (a := .restyle id) trivial
  upToDate := upToDate_restyle hd.forest hd.indexed hd.stateless fun x _ => hd.upToDate x

theorem restyleDirty (hd : d.Fresh) : d.restyleDirty.1.Fresh := by
  rw [Document.restyleDirty]
  generalize d.dirtyNodes = dirty
  induction dirty generalizing d with
  | nil => exact hd
  | cons id rest ih => exact ih (hd.restyle id)

/-- An inline style may change when its node is restyled at once. -/
theorem upToDate_restyle_modify (hd : d.Fresh) (id : NodeId) (style : Node → Declaration) :
    ((d.modify id fun n => { n with inlineStyle := style n }).restyle id).1.UpToDate := by
  -- In between, the node itself may not be settled; restyling asks for the others only.
  have hkeeps : Keeps (fun n => (n.links, n.listening, n.sheet, n.dirty)) d
      (d.modify id fun n => { n with inlineStyle := style n }) := keeps_modify d id fun _ => rfl
  refine upToDate_restyle ((hkeeps.map Prod.fst).isForest hd.forest)
    ((hkeeps.map (·.2.1)).listenersIndexed hd.indexed)
    ((hkeeps.map (·.2.2.1)).statelessSubjects hd.stateless) fun x hx hc hclean => ?_
  rw [hkeeps.contains] at hc
  rw [(hkeeps.map (·.2.2.2)).isDirty] at hclean
  refine Unaffected.settled (unaffected_modify_of_ne d hx ?_) hd.stateless
    (hd.upToDate x hc hclean)
  exact fun _ => rfl

/-! ### Quiet runs -/

theorem upToDate_perform (hd : d.Fresh) {a : Action} (ha : a.IsQuiet) :
    (d.perform a).UpToDate := by
  cases a with
  | replaceInline id style => exact hd.upToDate_restyle_modify id _
  | updateInline id style => exact hd.upToDate_restyle_modify id _
  | rematch id => exact hd.upToDate_rematch id
  | applyRules id rules => exact ha.elim
  | restyle id => exact (hd.restyle id).upToDate
  | restyleDirty => exact hd.restyleDirty.upToDate
  | _ =>
    refine hd.upToDate.of_spares hd.stateless (hd.forest.spares_perform hd.heldAbove ?_)
    exact fun h => h

theorem new (media : MediaEnvironment) : (Document.new media).Fresh where
  forest := isForest_new media
  indexed := listenersIndexed_new media
  stateless := statelessSubjects_new media
  upToDate id hc hclean := by
    rw [contains, node?_new] at hc
    rw [isDirty, node?_new] at hclean
    split at hc
    · rename_i h
      rw [if_pos h] at hclean
      cases hclean
    · cases hc

end Fresh

theorem ReachableBy.fresh (hd : ReachableBy Action.IsQuiet d) : d.Fresh :=
  hd.invariant Fresh.new fun _ a ha h =>
    ⟨h.forest.perform a, h.indexed.perform a, h.stateless.perform ha, h.upToDate_perform ha⟩

/-- Restyling a settled node changes none of what it shows, remembers and listens to. -/
theorem Settled.restyle (hd : d.Settled id) (hforest : d.IsForest)
    (hindexed : d.ListenersIndexed) {n : Node} (hn : d.node? id = some n) :
    ∃ after, (d.restyle id).1.node? id = some after ∧ after.finalStyle = n.finalStyle ∧
      after.matched = n.matched ∧
      ∀ holder, (d.restyle id).1.listenersFor holder id = d.listenersFor holder id := by
  obtain ⟨m, hm, hmatched, before, hfinal⟩ := hd.styled
  obtain rfl := Option.some.inj (hm.symm.trans hn)
  obtain ⟨after, hafter, hrules, -, hstyle⟩ := node?_restyle_self hn
  refine ⟨after, hafter, ?_, hrules.trans hmatched.symm, fun holder => ?_⟩
  · rw [hstyle, hfinal, Declaration.cascade_cascade]
  · have hc : d.contains id = true := by
      rw [contains, hn]
      rfl
    rw [hforest.listenersFor_restyle_self hindexed hc, hd.listening]

/-- **A node that is not dirty is up to date.**  Wherever a quiet run has led, restyling such a
node would leave its final style, its matched rules and its listeners as they are. -/
theorem finalStyle_restyle_of_not_dirty (hd : ReachableBy Action.IsQuiet d) {n : Node}
    (hn : d.node? id = some n) (hclean : n.dirty = false) :
    ∃ after, (d.restyle id).1.node? id = some after ∧ after.finalStyle = n.finalStyle ∧
      after.matched = n.matched ∧
      ∀ holder, (d.restyle id).1.listenersFor holder id = d.listenersFor holder id := by
  have hfresh := hd.fresh
  have hsettled : d.Settled id := by
    refine hfresh.upToDate id ?_ ?_
    · rw [contains, hn]
      rfl
    · rw [isDirty, hn]
      exact hclean
  exact hsettled.restyle hfresh.forest hfresh.indexed hn

/-- A sheet that makes every label red. -/
def redLabels : SharedSheet where
  serial := 0
  sheet := { rules := [.style
    { selectors := [⟨⟨.element, "label", none⟩, []⟩]
      declaration := .ofList [{ name := "color", value := some (.string "red") }]
      text := "label"
      order := 0 }] }

/-- A label that has been restyled under that sheet, which is the root's. -/
def restyledSample : Document :=
  Document.new.perform (.setSheet .root (some redLabels))
    |>.perform (.create "label")
    |>.perform (.append .root ⟨1⟩)
    |>.perform (.restyle ⟨1⟩)

/-- The label is not dirty, and restyling it once more changes nothing. -/
theorem finalStyle_restyle_of_not_dirty_restyledSample :
    ∃ n, restyledSample.node? ⟨1⟩ = some n ∧ n.dirty = false ∧
      ∃ after, (restyledSample.restyle ⟨1⟩).1.node? ⟨1⟩ = some after ∧
        after.finalStyle = n.finalStyle ∧ after.matched = n.matched ∧
        ∀ holder, (restyledSample.restyle ⟨1⟩).1.listenersFor holder ⟨1⟩ =
          restyledSample.listenersFor holder ⟨1⟩ := by
  have hquiet : redLabels.sheet.StatelessSubjects := by
    intro env rule hrule s hs
    obtain rfl := List.mem_singleton.mp hrule
    obtain rfl := List.mem_singleton.mp hs
    rfl
  have hsheet : (Action.setSheet .root (some redLabels)).IsQuiet := by
    intro shared h
    exact Option.some.inj h ▸ hquiet
  have hreach : ReachableBy Action.IsQuiet restyledSample :=
    .perform (.perform (.perform (.perform (.new {}) hsheet) trivial) trivial) trivial
  have hdirty : (restyledSample.node? ⟨1⟩).map Node.dirty = some false := by decide
  obtain ⟨n, hn, hclean⟩ := Option.map_eq_some_iff.mp hdirty
  exact ⟨n, hn, hclean, finalStyle_restyle_of_not_dirty hreach hn hclean⟩

end Document
end StyleCascade
