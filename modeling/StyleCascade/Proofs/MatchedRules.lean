import Mathlib.Data.List.Forall2
import Mathlib.Data.List.ReduceOption
import StyleCascade.Proofs.CascadeLaw
import StyleCascade.Proofs.SelectorMeaning

/-!
# The list of matched rules

Matching a node makes at most one entry for each style rule of the sheets that apply to it,
the way the rule applies: at once, by its most specific selector that does; or else by the
shape of the tree, by the first of its most specific selectors (`Document.EntryOf`).  The
entries are then sorted by rank.  Sorting loses none and adds none, and entries of one rank
keep their order (`MatchedRule.filter_rank_sort`), so the list is what the rules say and
nothing else (`Document.exists_entries_rematch`).
-/
namespace StyleCascade

/-! ## Sorting by rank -/

namespace MatchedRule

theorem perm_sort (rules : List MatchedRule) : (sort rules).Perm rules :=
  List.mergeSort_perm rules rankLe

/-- **Entries of one rank keep their order** when a list is sorted. -/
theorem filter_rank_sort (rules : List MatchedRule) (rank : ℕ ×ₗ Bool ×ₗ ℕ) :
    (sort rules).filter (·.rank = rank) = rules.filter (·.rank = rank) := by
  -- The entries of that rank are in order as they stand, so sorting keeps them as a sublist.
  have hordered : (rules.filter (·.rank = rank)).Pairwise (rankLe · ·) := by
    refine List.pairwise_of_forall_mem_list fun a ha b hb => ?_
    have hrank : a.rank = rank := by simpa using (List.mem_filter.mp ha).2
    have hrank' : b.rank = rank := by simpa using (List.mem_filter.mp hb).2
    exact (rankLe_iff a b).mpr (hrank.trans hrank'.symm).le
  have hkept : (rules.filter (·.rank = rank)).Sublist (sort rules) :=
    List.sublist_mergeSort rankLe_trans rankLe_total hordered List.filter_sublist
  have hsub := hkept.filter (·.rank = rank)
  simp only [List.filter_filter, Bool.and_self] at hsub
  exact (hsub.eq_of_length ((perm_sort rules).filter _).length_eq.symm).symm

end MatchedRule

/-! ## The first of the most specific -/

namespace Selector

/-- `s` satisfies a condition, and it is the first of the most specific selectors of a list that
do: those before it are less specific, those after it not more. -/
structure FirstBest (P : Selector → Prop) (selectors : List Selector) (s : Selector) : Prop where
  holds : P s
  place : ∃ earlier later, selectors = earlier ++ s :: later ∧
    (∀ t ∈ earlier, P t → t.specificity < s.specificity) ∧
    ∀ t ∈ later, P t → t.specificity ≤ s.specificity

variable {P : Selector → Prop} {selectors : List Selector} {s : Selector}

theorem FirstBest.cons {a : Selector} (h : FirstBest P selectors s)
    (ha : P a → a.specificity < s.specificity) : FirstBest P (a :: selectors) s := by
  obtain ⟨hs, earlier, later, rfl, hearlier, hlater⟩ := h
  refine ⟨hs, a :: earlier, later, rfl, ?_, hlater⟩
  intro t ht hP
  rcases List.mem_cons.mp ht with rfl | ht
  · exact ha hP
  · exact hearlier t ht hP

theorem FirstBest.congr {Q : Selector → Prop} (h : FirstBest P selectors s)
    (hPQ : ∀ t, P t ↔ Q t) : FirstBest Q selectors s := by
  obtain ⟨hs, earlier, later, heq, hearlier, hlater⟩ := h
  refine ⟨(hPQ s).mp hs, earlier, later, heq, ?_, ?_⟩
  · exact fun t ht hQ => hearlier t ht ((hPQ t).mpr hQ)
  · exact fun t ht hQ => hlater t ht ((hPQ t).mpr hQ)

/-- Picking the best of those that satisfy a condition gives the first of them. -/
theorem firstBest_of_best? [DecidablePred P]
    (h : best? (selectors.filter fun t => P t) = some s) : FirstBest P selectors s := by
  induction selectors generalizing s with
  | nil => cases h
  | cons a rest ih =>
    by_cases ha : P a
    · rw [List.filter_cons_of_pos (by simpa using ha), best?] at h
      cases hrest : best? (rest.filter fun t => P t) with
      | none =>
        rw [hrest] at h
        obtain rfl := Option.some.inj h
        have hnil := eq_nil_of_best? hrest
        refine ⟨ha, [], rest, rfl, by simp, ?_⟩
        intro t ht hP
        exact absurd (decide_eq_true hP) (List.filter_eq_nil_iff.mp hnil t ht)
      | some b =>
        simp only [hrest] at h
        by_cases hlt : a.specificity < b.specificity
        · obtain rfl := Option.some.inj ((if_pos hlt).symm.trans h)
          exact (ih hrest).cons fun _ => hlt
        · obtain rfl := Option.some.inj ((if_neg hlt).symm.trans h)
          refine ⟨ha, [], rest, rfl, by simp, ?_⟩
          intro t ht hP
          have hmem : t ∈ rest.filter fun t => P t := List.mem_filter.mpr ⟨ht, decide_eq_true hP⟩
          have hbest := (best?_eq_some hrest).2 t hmem
          omega
    · rw [List.filter_cons_of_neg (by simpa using ha)] at h
      exact (ih h).cons fun hP => absurd hP ha

theorem isStateDependent_iff {s : Selector} :
    s.isStateDependent = true ↔ ∃ link ∈ s.links, link.part.state ≠ none := by
  simp [isStateDependent, SimpleSelector.hasState, Option.isSome_iff_ne_none]

end Selector

namespace Document

variable {d : Document} {id : NodeId}

/-! ## How a selector applies -/

/-- A selector applies at once: no part above its subject has a state, and there are nodes for
all parts, with the states as they are. -/
def AppliesAtOnce (d : Document) (id : NodeId) (s : Selector) : Prop :=
  (∀ link ∈ s.links, link.part.state = none) ∧ d.Meets d.HasNameAndState s id

/-- A selector applies by shape: a part above its subject has a state, the subject fits with its
own, and there are nodes for all parts, states left aside. -/
def AppliesByShape (d : Document) (id : NodeId) (s : Selector) : Prop :=
  (∃ link ∈ s.links, link.part.state ≠ none) ∧ d.HasNameAndState id s.subject ∧
    d.Meets d.HasName s id

namespace IsForest

variable (hd : d.IsForest)
include hd

theorem cascadeMatch_eq_plain_iff (s : Selector) :
    d.cascadeMatch s id = .plain ↔ d.AppliesAtOnce id s := by
  rw [AppliesAtOnce, ← hd.matchesLive_iff]
  cases hdep : s.isStateDependent with
  | false =>
    have hstateless : ∀ link ∈ s.links, link.part.state = none := by
      intro link hlink
      by_contra hstate
      have := Selector.isStateDependent_iff.mpr ⟨link, hlink, hstate⟩
      simp [hdep] at this
    rw [cascadeMatch_of_not_dependent hdep]
    cases d.matchesLive s id with
    | false => simp
    | true => simpa using hstateless
  | true =>
    obtain ⟨link, hlink, hstate⟩ := Selector.isStateDependent_iff.mp hdep
    have hnot : ¬∀ link ∈ s.links, link.part.state = none := fun h => hstate (h link hlink)
    rw [cascadeMatch_of_dependent hdep]
    cases d.fits id s.subject && d.matchesShape s id <;> simp [hnot]

theorem cascadeMatch_eq_pseudo_iff (s : Selector) :
    d.cascadeMatch s id = .pseudo ↔ d.AppliesByShape id s := by
  rw [AppliesByShape, ← hd.matchesShape_iff, ← fits_iff, ← Selector.isStateDependent_iff]
  cases hdep : s.isStateDependent with
  | false =>
    rw [cascadeMatch_of_not_dependent hdep]
    cases d.matchesLive s id <;> simp
  | true =>
    rw [cascadeMatch_of_dependent hdep, ← Bool.and_eq_true]
    cases d.fits id s.subject && d.matchesShape s id <;> simp

end IsForest

/-! ## Entries -/

/-- What a style rule adds to the rules that match a node: nothing, if none of its selectors
applies; or the rule with the specificity of the best selector that applies at once; or, if
none does, with the specificity and the text of the first of the best that apply by shape. -/
inductive EntryOf (d : Document) (id : NodeId) (rule : StyleRule) : Option MatchedRule → Prop
  | none (h : ∀ s ∈ rule.selectors, ¬d.AppliesAtOnce id s ∧ ¬d.AppliesByShape id s) :
      EntryOf d id rule none
  | atOnce {s : Selector} (hs : Selector.FirstBest (d.AppliesAtOnce id) rule.selectors s) :
      EntryOf d id rule (some { rule, specificity := s.specificity, pseudoKey := .none })
  | byShape {s : Selector} (hnone : ∀ t ∈ rule.selectors, ¬d.AppliesAtOnce id t)
      (hs : Selector.FirstBest (d.AppliesByShape id) rule.selectors s) :
      EntryOf d id rule (some { rule, specificity := s.specificity, pseudoKey := s.text })

/-- **A rule makes the entry that it should.** -/
theorem IsForest.entryOf_matchRule? (hd : d.IsForest) (rule : StyleRule) :
    d.EntryOf id rule (d.matchRule? id rule) := by
  have hleftOut : ∀ {m : Match},
      Selector.best? (rule.selectors.filter fun s => d.cascadeMatch s id = m) = none →
        ∀ s ∈ rule.selectors, d.cascadeMatch s id ≠ m := by
    intro m h s hs heq
    exact List.filter_eq_nil_iff.mp (Selector.eq_nil_of_best? h) s hs (decide_eq_true heq)
  rw [matchRule?]
  cases hplain : Selector.best? (rule.selectors.filter fun s => d.cascadeMatch s id = .plain) with
  | some s =>
    exact .atOnce ((Selector.firstBest_of_best? hplain).congr hd.cascadeMatch_eq_plain_iff)
  | none =>
    have hnone : ∀ s ∈ rule.selectors, ¬d.AppliesAtOnce id s := by
      intro s hs happlies
      exact hleftOut hplain s hs ((hd.cascadeMatch_eq_plain_iff s).mpr happlies)
    cases hpseudo :
        Selector.best? (rule.selectors.filter fun s => d.cascadeMatch s id = .pseudo) with
    | some s =>
      have hs := (Selector.firstBest_of_best? hpseudo).congr hd.cascadeMatch_eq_pseudo_iff
      rw [Option.map_some]
      exact .byShape hnone hs
    | none =>
      rw [Option.map_none]
      refine .none fun s hs => ⟨hnone s hs, fun happlies => ?_⟩
      exact hleftOut hpseudo s hs ((hd.cascadeMatch_eq_pseudo_iff s).mpr happlies)

/-- **The matched rules of a node** are the entries of the style rules of its sheets, one for
each rule at most, from the lowest rank to the highest, and within a rank in the order of the
rules. -/
theorem exists_entries_rematch (hd : d.Reachable) (id : NodeId) :
    ∃ entries : List (Option MatchedRule),
      List.Forall₂ (d.EntryOf id) (d.activeRules id) entries ∧
      (d.rematch id).2.Perm entries.reduceOption ∧
      (d.rematch id).2.Pairwise (fun a b => a.rank ≤ b.rank) ∧
      ∀ rank, (d.rematch id).2.filter (·.rank = rank) =
        entries.reduceOption.filter (·.rank = rank) := by
  have hentries : ((d.activeRules id).map (d.matchRule? id)).reduceOption =
      (d.activeRules id).filterMap (d.matchRule? id) := by
    rw [List.reduceOption, List.filterMap_map]
    rfl
  refine ⟨(d.activeRules id).map (d.matchRule? id), ?_, ?_, ?_, ?_⟩
  · rw [List.forall₂_map_right_iff, List.forall₂_same]
    intro rule _
    exact hd.isForest.entryOf_matchRule? rule
  · rw [hentries]
    exact MatchedRule.perm_sort _
  · exact MatchedRule.pairwise_sort _
  · intro rank
    rw [hentries]
    exact MatchedRule.filter_rank_sort _ rank

/-- The selector `label`. -/
def anyLabel : Selector where
  subject := ⟨.element, "label", none⟩

/-- A rule for all labels, those of active lists named first. -/
def labelRule : StyleRule where
  selectors := [labelOfActive, anyLabel]
  declaration := .ofList [{ name := "color", value := some (.string "red") }]
  text := "list:active > label, label"
  order := 3

/-- The label of an inactive list under that rule. -/
def labelledSample : Document :=
  inactiveSample.perform (.setSheet .root (some ⟨0, { rules := [.style labelRule] }⟩))

/-- The rule has one entry, with the specificity of the selector that applies at once, though
the other is more specific. -/
theorem exists_entries_rematch_labelledSample :
    labelledSample.Reachable ∧
      (labelledSample.rematch ⟨2⟩).2 = [{ rule := labelRule, specificity := 1 }] := by
  have hreach : labelledSample.Reachable :=
    .perform (.perform (.perform (.perform (.perform (.perform (.new {}) trivial) trivial)
      trivial) trivial) trivial) trivial
  have happlies : labelledSample.AppliesAtOnce ⟨2⟩ anyLabel :=
    (hreach.isForest.cascadeMatch_eq_plain_iff _).mp (by decide)
  have hactive : labelledSample.activeRules ⟨2⟩ = [labelRule] := rfl
  obtain ⟨entries, hall, hperm, -, -⟩ := exists_entries_rematch hreach ⟨2⟩
  rw [hactive] at hall
  obtain _ | ⟨hentry, hnil⟩ := hall
  cases hnil
  refine ⟨hreach, ?_⟩
  cases hentry with
  | none h => exact absurd happlies (h anyLabel (by simp [labelRule])).1
  | @atOnce s hs =>
    obtain ⟨hstateless, -⟩ := hs.holds
    obtain ⟨earlier, later, heq, -, -⟩ := hs.place
    have hmem : s ∈ labelRule.selectors := by
      rw [heq]
      simp
    rcases List.mem_cons.mp hmem with rfl | hmem
    · exact absurd (hstateless _ (List.mem_singleton.mpr rfl)) (by decide)
    · obtain rfl := List.mem_singleton.mp hmem
      exact List.perm_singleton.mp hperm
  | byShape hnone _ => exact absurd happlies (hnone anyLabel (by simp [labelRule]))

end Document
end StyleCascade
