import StyleCascade.Proofs.Restyling

/-!
# No change of states goes unheard

A selector that depends on states above its subject is settled again only when a node
that holds a listener for it reports.  That is enough: if a report on another node than
the subject changes whether the selector matches, then the node stands above the subject
and fits a part that carries a state, and the selector as a whole matches by shape
(`Document.mem_ancestors_of_matchesLive_ne`, `Document.cascadeMatch_of_matchesLive_ne`).
Matching the subject has then registered a listener there
(`Document.exists_listener_of_matchesLive_ne`).
-/
namespace StyleCascade
namespace Document

variable {d e : Document} {leaf holder : NodeId} {s : Selector} {states : StateMap}

/-! ## What a report can change -/

/-- `e` differs from `d` at most in what one node reports and in what its view shows. -/
structure ReportsAt (holder : NodeId) (d e : Document) : Prop where
  keeps : Keeps Node.apartFromViews d e
  fits : ∀ {id}, holder ≠ id → ∀ part, e.fits id part = d.fits id part

namespace ReportsAt

variable (h : ReportsAt holder d e)
include h

theorem ancestors (id : NodeId) : e.ancestors id = d.ancestors id :=
  (h.keeps.map (·.parent)).ancestors id

theorem fitsShape (id : NodeId) (part : SimpleSelector) :
    e.fitsShape id part = d.fitsShape id part :=
  (h.keeps.map (·.fitsShape part)).any id

/-- On the node that reports, only a part with a state that fits by shape can change. -/
theorem hasState_of_fits_ne {part : SimpleSelector}
    (hdiffer : e.fits holder part ≠ d.fits holder part) :
    part.hasState = true ∧ d.fitsShape holder part = true := by
  have hshape := h.fitsShape holder part
  constructor
  · by_contra hnot
    have hstateless : part.hasState = false := by simpa using hnot
    refine hdiffer ?_
    rw [fits_of_stateless _ _ hstateless, fits_of_stateless _ _ hstateless, hshape]
  · by_contra hnot
    have hbefore : ¬d.fits holder part = true := fun hfits => hnot (fitsShape_of_fits hfits)
    have hafter : ¬e.fits holder part = true :=
      fun hfits => hnot (hshape ▸ fitsShape_of_fits hfits)
    exact hdiffer (by rw [Bool.eq_false_iff.mpr hbefore, Bool.eq_false_iff.mpr hafter])

/-- If a report changes the match, and not at the subject, then the node stands above the
subject and fits a part with a state. -/
theorem mem_ancestors_of_matchesLive_ne (hsubject : e.fits leaf s.subject = d.fits leaf s.subject)
    (hchange : e.matchesLive s leaf ≠ d.matchesLive s leaf) :
    holder ∈ d.ancestors leaf ∧ ∃ part ∈ s.stateParts, d.fitsShape holder part = true := by
  by_contra hnot
  have hlinks : SelectorLink.allFit e.fits s.links (d.ancestors leaf) =
      SelectorLink.allFit d.fits s.links (d.ancestors leaf) := by
    refine SelectorLink.allFit_congr fun id hid link hlink => ?_
    by_cases hhold : holder = id
    · subst hhold
      by_contra hdiffer
      obtain ⟨hstate, hshape⟩ := h.hasState_of_fits_ne hdiffer
      refine hnot ⟨hid, link.part, ?_, hshape⟩
      exact List.mem_filter.mpr ⟨List.mem_map_of_mem hlink, hstate⟩
    · exact h.fits hhold link.part
  refine hchange ?_
  rw [matchesLive, matchesLive, h.ancestors, hlinks, hsubject]

end ReportsAt

theorem fits_recordStates_of_ne {id : NodeId} (h : holder ≠ id) (part : SimpleSelector) :
    (d.recordStates holder states).fits id part = d.fits id part := by
  rw [fits, fits, recordStates, node?_modify, if_neg h]

theorem reportsAt_recordStates (d : Document) (holder : NodeId) (states : StateMap) :
    ReportsAt holder d (d.recordStates holder states) :=
  ⟨keeps_recordStates d holder states, fun hne => fits_recordStates_of_ne hne⟩

theorem mem_ancestors_of_matchesLive_ne (hne : holder ≠ leaf)
    (hchange : (d.recordStates holder states).matchesLive s leaf ≠ d.matchesLive s leaf) :
    holder ∈ d.ancestors leaf ∧ ∃ part ∈ s.stateParts, d.fitsShape holder part = true :=
  (reportsAt_recordStates d holder states).mem_ancestors_of_matchesLive_ne
    (fits_recordStates_of_ne hne s.subject) hchange

/-- In that case the selector matches as far as the shape of the tree goes, and its subject
fits with its state. -/
theorem cascadeMatch_of_matchesLive_ne (hne : holder ≠ leaf)
    (hchange : (d.recordStates holder states).matchesLive s leaf ≠ d.matchesLive s leaf) :
    d.cascadeMatch s leaf = .pseudo := by
  obtain ⟨-, part, hpart, -⟩ := mem_ancestors_of_matchesLive_ne hne hchange
  obtain ⟨habove, hstate⟩ := List.mem_filter.mp hpart
  obtain ⟨link, hlink, rfl⟩ := List.mem_map.mp habove
  have hdep : s.isStateDependent = true := List.any_eq_true.mpr ⟨link, hlink, hstate⟩
  have hkeeps := keeps_recordStates d holder states
  have hancestors : (d.recordStates holder states).ancestors leaf = d.ancestors leaf :=
    (hkeeps.map (·.parent)).ancestors leaf
  -- One of the two matches succeeds, and either one makes the links fit by shape.
  have hfits : d.fits leaf s.subject = true ∧
      SelectorLink.allFit d.fitsShape s.links (d.ancestors leaf) = true := by
    cases hnow : d.matchesLive s leaf with
    | true =>
      rw [matchesLive, Bool.and_eq_true] at hnow
      exact ⟨hnow.1, SelectorLink.allFit_mono (fun _ _ _ _ => fitsShape_of_fits) hnow.2⟩
    | false =>
      have hthen : (d.recordStates holder states).matchesLive s leaf = true := by
        rwa [hnow, ne_eq, Bool.not_eq_false] at hchange
      rw [matchesLive, Bool.and_eq_true, fits_recordStates_of_ne hne, hancestors] at hthen
      refine ⟨hthen.1, SelectorLink.allFit_mono (fun id _ link _ hid => ?_) hthen.2⟩
      have hshape : (d.recordStates holder states).fitsShape id link.part =
          d.fitsShape id link.part := (hkeeps.map (·.fitsShape link.part)).any id
      exact hshape ▸ fitsShape_of_fits hid
  rw [cascadeMatch, hfits.1, hdep, hfits.2]
  rfl

/-! ## What matching registers -/

/-- The listener that a selector asks for on an ancestor that fits one of its parts with a
state. -/
theorem mem_neededAt {rule : StyleRule} (hrule : rule ∈ d.activeRules leaf)
    (hs : s ∈ rule.selectors) (hmatch : d.cascadeMatch s leaf = .pseudo)
    (hholder : holder ∈ d.ancestors leaf)
    (hpart : ∃ part ∈ s.stateParts, d.fitsShape holder part = true) :
    (⟨s, leaf, rule⟩ : Listener) ∈ d.neededAt leaf holder := by
  have hneeded : (holder, (⟨s, leaf, rule⟩ : Listener)) ∈ d.neededListeners leaf := by
    refine List.mem_flatMap.mpr ⟨rule, hrule, List.mem_flatMap.mpr ⟨s, hs, ?_⟩⟩
    rw [cascadeListeners, if_pos hmatch]
    refine List.mem_map.mpr ⟨holder, List.mem_filter.mpr ⟨hholder, ?_⟩, rfl⟩
    exact List.any_eq_true.mpr hpart
  exact List.mem_map.mpr ⟨_, List.mem_filter.mpr ⟨hneeded, by simp⟩, rfl⟩

/-- A matched node finds what it asks for in the registries. -/
theorem exists_listener_of_mem_neededAt (hc : d.contains holder = true) {l : Listener}
    (hl : l ∈ d.neededAt leaf holder) :
    ∃ m ∈ (d.rematch leaf).1.listenersOf holder, m.key = l.key := by
  have hkey : l.key ∈ ((d.rematch leaf).1.listenersOf holder).map Listener.key := by
    rw [listenersOf_rematch d leaf hc, Keyed.mem_map_key_upsertAll]
    exact Or.inr (List.mem_map_of_mem hl)
  exact List.mem_map.mp hkey

/-- **No change of states goes unheard.**  Right after a leaf has been matched or restyled,
any other node whose report changes whether a selector matches the leaf holds a listener for
that selector, that leaf and the order of the rule. -/
theorem exists_listener_of_matchesLive_ne
    (he : e = (d.rematch leaf).1 ∨ e = (d.restyle leaf).1)
    {rule : StyleRule} (hrule : rule ∈ e.activeRules leaf) (hs : s ∈ rule.selectors)
    (hne : holder ≠ leaf)
    (hchange : (e.recordStates holder states).matchesLive s leaf ≠ e.matchesLive s leaf) :
    ∃ l ∈ e.listenersOf holder, l.key = ⟨s, leaf, rule.order⟩ := by
  obtain ⟨hholder, part, hpart, hshape⟩ := mem_ancestors_of_matchesLive_ne hne hchange
  have hneeded : (⟨s, leaf, rule⟩ : Listener) ∈ e.neededAt leaf holder :=
    mem_neededAt hrule hs (cascadeMatch_of_matchesLive_ne hne hchange) hholder
      ⟨part, hpart, hshape⟩
  have hexists : e.contains holder = true := by
    obtain ⟨n, hn, -⟩ := fitsShape_eq_true_iff.mp hshape
    rw [contains, hn]
    rfl
  rcases he with rfl | rfl
  · have hkeeps := keeps_rematch d leaf
    rw [neededAt, (hkeeps.map Node.apartFromStyling).neededListeners] at hneeded
    exact exists_listener_of_mem_neededAt (hkeeps.contains holder ▸ hexists) hneeded
  · cases hleaf : d.contains leaf with
    | false =>
      -- Nothing matches a node that does not exist.
      rw [restyle_of_not_contains hleaf] at hneeded
      obtain ⟨pair, hpair, -⟩ := List.mem_map.mp hneeded
      have hcontains := (of_mem_neededListeners (List.mem_filter.mp hpair).1).2.2
      rw [hleaf] at hcontains
      cases hcontains
    | true =>
      have hkeeps := keeps_restyle d leaf
      have hclean := (keeps_unmarked d leaf).map Node.apartFromStyling
      rw [neededAt, hkeeps.neededListeners, ← hclean.neededListeners] at hneeded
      rw [listenersOf_restyle hleaf]
      refine exists_listener_of_mem_neededAt ?_ hneeded
      rw [hclean.contains, ← hkeeps.contains, hexists]

/-- The selector `list:active label`. -/
def activeLabel : Selector where
  subject := ⟨.element, "label", none⟩
  links := [⟨.descendant, ⟨.element, "list", some "active"⟩⟩]

def activeLabelRule : StyleRule where
  selectors := [activeLabel]
  declaration := .ofList [{ name := "color", value := some (.string "red") }]
  text := "list:active label"
  order := 7

/-- A label in a list, under a rule for active lists. -/
def listeningSample : Document where
  slots := #[some { tag := "#document", children := [⟨1⟩] },
    some { tag := "list", parent := some .root, children := [⟨2⟩] },
    some { tag := "label", parent := some ⟨1⟩ }]
  sheets := [⟨0, { rules := [.style activeLabelRule] }⟩]

/-- The list reports that it is not active, which ends the match, and it held the listener. -/
theorem exists_listener_of_matchesLive_ne_listeningSample :
    (((listeningSample.restyle ⟨2⟩).1.recordStates ⟨1⟩ [("active", false)]).matchesLive
        activeLabel ⟨2⟩ ≠ (listeningSample.restyle ⟨2⟩).1.matchesLive activeLabel ⟨2⟩) ∧
      ∃ l ∈ (listeningSample.restyle ⟨2⟩).1.listenersOf ⟨1⟩, l.key = ⟨activeLabel, ⟨2⟩, 7⟩ := by
  have hkeeps := keeps_restyle listeningSample ⟨2⟩
  have hrule : activeLabelRule ∈ (listeningSample.restyle ⟨2⟩).1.activeRules ⟨2⟩ := by
    rw [hkeeps.activeRules]
    exact List.mem_singleton.mpr rfl
  have hchange : ((listeningSample.restyle ⟨2⟩).1.recordStates ⟨1⟩
      [("active", false)]).matchesLive activeLabel ⟨2⟩ ≠
        (listeningSample.restyle ⟨2⟩).1.matchesLive activeLabel ⟨2⟩ := by
    decide
  exact ⟨hchange, exists_listener_of_matchesLive_ne (Or.inr rfl) hrule
    (List.mem_singleton.mpr rfl) (by decide) hchange⟩

end Document
end StyleCascade
