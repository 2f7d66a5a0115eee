import Mathlib.Data.List.Flatten
import StyleCascade.Proofs.MatchedRules

/-!
# Which sheet wins

Two rules of equal specificity, both under a media condition or both not, are ranked by
their orders, which the session that reads sheets gives out.  The place of their sheets
among those that apply to a node only decides between rules of the same order
(`Document.outdoes_matchedRules`).  A later sheet therefore wins where the sheets stand in
the order in which they were read, and loses to an earlier one that was read after it
(`Document.matchedRules_swappedSample`).
-/
namespace StyleCascade

namespace MatchedRule

/-- A matched rule enters a property under the key. -/
def ContributesTo (m : MatchedRule) (key : String) : Prop :=
  ∃ p ∈ m.rule.declaration.enabled, (m.entered p).key = key

/-- `winner` stands behind `loser` in a list of matched rules, and no key that `winner`
contributes to gets its entry from `loser` or from anything before it. -/
def Outdoes (rules : List MatchedRule) (winner loser : MatchedRule) : Prop :=
  ∃ lower higher, rules = lower ++ loser :: higher ∧ winner ∈ higher ∧
    ∀ key, winner.ContributesTo key → lastContribution rules key = lastContribution higher key

variable {rules : List MatchedRule} {a b m : MatchedRule} {key : String}

/-! ## Contributions along a list -/

theorem lastContribution_append (lower higher : List MatchedRule) (key : String) :
    lastContribution (lower ++ higher) key =
      (lastContribution higher key).or (lastContribution lower key) := by
  rw [lastContribution, List.flatMap_append, Keyed.lastUnder_append]
  rfl

theorem exists_lastContribution (hm : m ∈ rules) (h : m.ContributesTo key) :
    ∃ p, lastContribution rules key = some p := by
  obtain ⟨p, hp, hkey⟩ := h
  refine Option.ne_none_iff_exists'.mp fun hnone => ?_
  have hmem : m.entered p ∈ rules.flatMap fun m => m.rule.declaration.enabled.map m.entered :=
    List.mem_flatMap.mpr ⟨m, hm, List.mem_map_of_mem hp⟩
  have hother := List.find?_eq_none.mp hnone _ (List.mem_reverse.mpr hmem)
  simp [hkey] at hother

/-- **What stands behind wins.** -/
theorem outdoes_of_sublist (h : [a, b].Sublist rules) : Outdoes rules b a := by
  obtain ⟨front, back, rfl, ha, hb⟩ := List.cons_sublist_iff.mp h
  obtain ⟨lower, between, rfl⟩ := List.append_of_mem ha
  have hmem : b ∈ between ++ back := List.mem_append_right _ (List.singleton_sublist.mp hb)
  refine ⟨lower, between ++ back, by simp, hmem, fun key hkey => ?_⟩
  obtain ⟨p, hp⟩ := exists_lastContribution hmem hkey
  have hsplit : lower ++ a :: between ++ back = (lower ++ [a]) ++ (between ++ back) := by simp
  rw [hsplit, lastContribution_append, hp, Option.some_or]

/-! ## Places in a sorted list -/

/-- Sorting leaves what is in order where it stands. -/
theorem pair_sublist_sort (h : [a, b].Sublist rules) (hle : a.rank ≤ b.rank) :
    [a, b].Sublist (sort rules) :=
  List.pair_sublist_mergeSort rankLe_trans rankLe_total ((rankLe_iff a b).mpr hle) h

/-- What ranks lower stands in front after sorting. -/
theorem pair_sublist_sort_of_lt (ha : a ∈ rules) (hb : b ∈ rules) (hlt : a.rank < b.rank) :
    [a, b].Sublist (sort rules) := by
  have hpairwise := pairwise_sort rules
  obtain ⟨lower, higher, heq⟩ := List.append_of_mem ((perm_sort rules).mem_iff.mpr ha)
  have hmem : b ∈ sort rules := (perm_sort rules).mem_iff.mpr hb
  rw [heq, List.pairwise_append] at hpairwise
  rw [heq] at hmem ⊢
  obtain ⟨-, -, hcross⟩ := hpairwise
  have hhigher : b ∈ higher := by
    rcases List.mem_append.mp hmem with hlower | hmem
    · exact absurd (hcross b hlower a List.mem_cons_self) (not_le.mpr hlt)
    · rcases List.mem_cons.mp hmem with rfl | hmem
      · exact absurd hlt (lt_irrefl _)
      · exact hmem
  have hpair : [a, b].Sublist (a :: higher) :=
    List.Sublist.cons_cons a (List.singleton_sublist.mpr hhigher)
  exact hpair.trans (List.sublist_append_right lower _)

/-- Of two rules that are equal otherwise, order decides. -/
theorem rank_le_iff_order_le (hspecificity : a.specificity = b.specificity)
    (hmedia : a.rule.inMedia = b.rule.inMedia) : a.rank ≤ b.rank ↔ a.rule.order ≤ b.rule.order := by
  rw [← rankLe_iff, rankLe]
  simp [hspecificity, hmedia]

end MatchedRule

namespace Document

variable {d : Document} {id : NodeId} {first second : StyleSheet} {r₁ r₂ : StyleRule}
  {m₁ m₂ : MatchedRule}

/-- The rules of one sheet stand before those of a later one. -/
theorem pair_sublist_activeRules (hsheets : [first, second].Sublist (d.sheetStack id).sheets)
    (hr₁ : r₁ ∈ first.activeRules d.media) (hr₂ : r₂ ∈ second.activeRules d.media) :
    [r₁, r₂].Sublist (d.activeRules id) := by
  have hboth := hsheets.flatMap (·.activeRules d.media)
  rw [List.flatMap_cons, List.flatMap_singleton] at hboth
  exact ((List.singleton_sublist.mpr hr₁).append (List.singleton_sublist.mpr hr₂)).trans hboth

/-- **Order decides between rules, and the place of their sheets between rules of the same
order**: of two rules of equal specificity, alike in standing under a media condition, the one
of the later sheet wins if its order is at least that of the other, and otherwise loses. -/
theorem outdoes_matchedRules (hsheets : [first, second].Sublist (d.sheetStack id).sheets)
    (hr₁ : r₁ ∈ first.activeRules d.media) (hr₂ : r₂ ∈ second.activeRules d.media)
    (hm₁ : d.matchRule? id r₁ = some m₁) (hm₂ : d.matchRule? id r₂ = some m₂)
    (hspecificity : m₁.specificity = m₂.specificity) (hmedia : r₁.inMedia = r₂.inMedia) :
    (r₁.order ≤ r₂.order → MatchedRule.Outdoes (d.matchedRules id) m₂ m₁) ∧
      (r₂.order < r₁.order → MatchedRule.Outdoes (d.matchedRules id) m₁ m₂) := by
  obtain ⟨rfl, -⟩ := matchesAs_of_matchRule? hm₁
  obtain ⟨rfl, -⟩ := matchesAs_of_matchRule? hm₂
  have hpair := (pair_sublist_activeRules hsheets hr₁ hr₂).filterMap (d.matchRule? id)
  rw [List.filterMap_cons_some hm₁, List.filterMap_cons_some hm₂, List.filterMap_nil] at hpair
  constructor
  · intro horder
    have hrank := (MatchedRule.rank_le_iff_order_le hspecificity hmedia).mpr horder
    exact MatchedRule.outdoes_of_sublist (MatchedRule.pair_sublist_sort hpair hrank)
  · intro horder
    have hrank : m₂.rank < m₁.rank := by
      rw [← not_le, MatchedRule.rank_le_iff_order_le hspecificity hmedia]
      exact not_le.mpr horder
    refine MatchedRule.outdoes_of_sublist (MatchedRule.pair_sublist_sort_of_lt ?_ ?_ hrank)
    · exact hpair.subset (by simp)
    · exact hpair.subset (by simp)

/-- A rule that gives all texts a color. -/
def textRule (order : Nat) (color : String) : StyleRule where
  selectors := [⟨⟨.element, "text", none⟩, []⟩]
  declaration := .ofList [{ name := "color", value := some (.string color) }]
  text := "text"
  order := order

/-- The rule as it matches a text. -/
def textMatch (order : Nat) (color : String) : MatchedRule where
  rule := textRule order color
  specificity := 1

/-- The sheet that holds the rule, the first or a later one that a session has read. -/
def textSheet (order : Nat) (color : String) : SharedSheet where
  serial := order
  sheet := { rules := [.style (textRule order color)] }

/-- A text under the root of a document with two sheets, the first added first. -/
def textUnder (first second : SharedSheet) : Document :=
  { (Document.new.perform (.create "text")).perform (.append .root ⟨1⟩) with
    sheets := [first, second] }

/-- Of two sheets added in the order in which they were read, the second wins. -/
theorem outdoes_matchedRules_textUnder :
    MatchedRule.Outdoes ((textUnder (textSheet 0 "red") (textSheet 1 "green")).matchedRules ⟨1⟩)
      (textMatch 1 "green") (textMatch 0 "red") := by
  have hdecided := @outdoes_matchedRules (textUnder (textSheet 0 "red") (textSheet 1 "green")) ⟨1⟩
    (textSheet 0 "red").sheet (textSheet 1 "green").sheet (textRule 0 "red") (textRule 1 "green")
    (textMatch 0 "red") (textMatch 1 "green")
    (List.Sublist.refl _) (List.mem_singleton.mpr rfl) (List.mem_singleton.mpr rfl) rfl rfl rfl rfl
  exact hdecided.1 (by decide)

/-- The sheet that was read second is added first. -/
def swappedSample : Document :=
  textUnder (textSheet 1 "green") (textSheet 0 "red")

/-- The rule of the later sheet matches as the rule of the earlier one does, and yet it stands
before it and does not give the color. -/
theorem matchedRules_swappedSample :
    [(textSheet 1 "green").sheet, (textSheet 0 "red").sheet].Sublist
        (swappedSample.sheetStack ⟨1⟩).sheets ∧
      swappedSample.matchedRules ⟨1⟩ = [textMatch 0 "red", textMatch 1 "green"] ∧
      MatchedRule.lastContribution (swappedSample.matchedRules ⟨1⟩) "color" =
        some { name := "color", value := some (.string "green") } := by
  have hfound : (swappedSample.activeRules ⟨1⟩).filterMap (swappedSample.matchRule? ⟨1⟩) =
      [textMatch 1 "green", textMatch 0 "red"] := rfl
  have hrank : (textMatch 0 "red").rank < (textMatch 1 "green").rank := by
    refine lt_of_not_ge fun hle => ?_
    have horder : (textRule 1 "green").order ≤ (textRule 0 "red").order :=
      (MatchedRule.rank_le_iff_order_le (by rfl) (by rfl)).mp hle
    exact absurd horder (by decide)
  have hpair : [textMatch 0 "red", textMatch 1 "green"].Sublist
      (swappedSample.matchedRules ⟨1⟩) := by
    rw [matchedRules, hfound]
    exact MatchedRule.pair_sublist_sort_of_lt (by simp) (by simp) hrank
  have hmatched : swappedSample.matchedRules ⟨1⟩ =
      [textMatch 0 "red", textMatch 1 "green"] := by
    refine (hpair.eq_of_length ?_).symm
    rw [matchedRules, hfound, (MatchedRule.perm_sort _).length_eq]
    rfl
  refine ⟨List.Sublist.refl _, hmatched, ?_⟩
  rw [hmatched]
  rfl

end Document
end StyleCascade
