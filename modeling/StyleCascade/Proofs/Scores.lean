import Mathlib.Order.MinMax
import StyleCascade.Inspector
import StyleCascade.Proofs.Attachments
import StyleCascade.Proofs.SheetPriority

/-!
# Scores and ranks

An inspector shows the rank of a matched rule as one number.  The number grows with the
specificity and, within one specificity, with the order up to a limit, but it does not tell a
rule of a media group from any other.  So of two rules the one of higher rank has the higher or
the same score, unless it stands in a media group, the other one has the same specificity and
does not, and that one's order counts for more (`MatchedRule.Overtakes`,
`MatchedRule.score_le_iff_of_rank_le`).

The rules that a node holds come from its last match, so an inspector lists them from the
highest rank to the lowest (`Document.pairwise_rank_matchedOf`), and the scores go down the list
except where a rule overtakes another (`Document.scores_inspect?`).
-/
namespace StyleCascade

/-! ## Two rules -/

namespace MatchedRule

variable {a b : MatchedRule}

/-- What the order adds to the score: orders beyond the limit count alike. -/
def orderShare (m : MatchedRule) : ℕ :=
  min m.rule.order 999999

/-- The score is cut off once, at the end. -/
theorem score_eq (m : MatchedRule) :
    m.score = min greatestWord (m.specificity * 1000000 + m.orderShare) := by
  rw [score, orderShare]
  omega

/-- A point of specificity outweighs every order. -/
theorem score_le_of_specificity_lt (h : a.specificity < b.specificity) : a.score ≤ b.score := by
  have ha : a.orderShare ≤ 999999 := Nat.min_le_right _ _
  have hpoint : a.specificity * 1000000 + a.orderShare ≤
      b.specificity * 1000000 + b.orderShare := by omega
  rw [score_eq, score_eq]
  exact min_le_min le_rfl hpoint

/-- Within one specificity the orders decide, as far as the score has room for them. -/
theorem score_le_iff_of_specificity_eq (h : a.specificity = b.specificity) :
    a.score ≤ b.score ↔ a.orderShare ≤ b.orderShare ∨
      greatestWord ≤ b.specificity * 1000000 + b.orderShare := by
  rw [score_eq, score_eq, h]
  omega

theorem orderShare_le (h : a.rule.order ≤ b.rule.order) : a.orderShare ≤ b.orderShare :=
  min_le_min h le_rfl

/-- How two rules are ranked. -/
theorem rank_le_iff : a.rank ≤ b.rank ↔ a.specificity < b.specificity ∨
    a.specificity = b.specificity ∧
      (a.rule.inMedia = false ∧ b.rule.inMedia = true ∨
        a.rule.inMedia = b.rule.inMedia ∧ a.rule.order ≤ b.rule.order) := by
  rw [rank, rank, Prod.Lex.toLex_le_toLex, Prod.Lex.toLex_le_toLex, Bool.lt_iff]

/-- Of two rules that are out of order, sorting swaps the places. -/
theorem sort_pair_of_lt (h : b.rank < a.rank) : sort [a, b] = [b, a] := by
  have hpair : [b, a].Sublist (sort [a, b]) := pair_sublist_sort_of_lt (by simp) (by simp) h
  exact (hpair.eq_of_length (perm_sort [a, b]).length_eq.symm).symm

/-- `a`, which stands in no media group, has the higher score than `b`, which stands in one:
both have the same specificity, and the order of `a` counts for more. -/
def Overtakes (a b : MatchedRule) : Prop :=
  a.specificity = b.specificity ∧ a.rule.inMedia = false ∧ b.rule.inMedia = true ∧
    b.orderShare < a.orderShare ∧ b.specificity * 1000000 + b.orderShare < greatestWord

/-- **A score follows the rank**, except where a rule overtakes one of a media group. -/
theorem score_le_iff_of_rank_le (h : a.rank ≤ b.rank) : a.score ≤ b.score ↔ ¬a.Overtakes b := by
  rcases rank_le_iff.mp h with hlt | ⟨heq, ⟨ha, hb⟩ | ⟨hmedia, horder⟩⟩
  · have hnot : ¬a.Overtakes b := fun hover => hlt.ne hover.1
    exact iff_of_true (score_le_of_specificity_lt hlt) hnot
  · rw [score_le_iff_of_specificity_eq heq, Overtakes]
    simp only [heq, ha, hb, true_and, not_and_or, not_lt]
  · have hnot : ¬a.Overtakes b := by
      rintro ⟨-, ha, hb, -⟩
      rw [hmedia, hb] at ha
      cases ha
    exact iff_of_true ((score_le_iff_of_specificity_eq heq).mpr (.inl (orderShare_le horder))) hnot

end MatchedRule

/-! ## The rules that a node holds -/

namespace Document

variable {d e f : Document}

/-- The rules found when a node was last restyled. -/
def matchedOf (d : Document) (id : NodeId) : List MatchedRule :=
  ((d.node? id).map fun n => n.matched.getD []).getD []

/-- The rules that a node holds in `e` are those it holds in `d`, or come out of sorting. -/
def Rematches (d e : Document) : Prop :=
  ∀ id, e.matchedOf id = d.matchedOf id ∨ ∃ rules, e.matchedOf id = MatchedRule.sort rules

theorem Rematches.trans (h : Rematches d e) (h' : Rematches e f) : Rematches d f := by
  intro id
  rcases h' id with hkept | hsorted
  · rw [hkept]
    exact h id
  · exact .inr hsorted

theorem rematches_refl (d : Document) : Rematches d d :=
  fun _ => .inl rfl

theorem rematches_of_node?
    (h : ∀ id, (e.node? id).map Node.matched = (d.node? id).map Node.matched) :
    Rematches d e := by
  intro id
  have hid := congrArg (Option.map (Option.getD · [])) (h id)
  rw [Option.map_map, Option.map_map] at hid
  exact .inl (congrArg (Option.getD · []) hid)

theorem Keeps.rematches {view : Node → Node} (h : Keeps view d e)
    (hview : ∀ n, (view n).matched = n.matched) : Rematches d e := by
  have hnodes := (h.map Node.matched).nodes
  simp only [hview] at hnodes
  exact rematches_of_node? hnodes

theorem rematches_modify (d : Document) (id : NodeId) {f : Node → Node}
    (hf : ∀ n, (f n).matched = n.matched) : Rematches d (d.modify id f) :=
  rematches_of_node? (keeps_modify d id hf).nodes

theorem rematches_create (d : Document) (tag : String) : Rematches d (d.create tag).2 := by
  intro id
  rw [matchedOf, matchedOf, node?_create]
  split
  · exact .inr ⟨[], List.mergeSort_nil.symm⟩
  · exact .inl rfl

theorem rematches_remove (d : Document) (id : NodeId) : Rematches d (d.remove id).1 := by
  rw [remove_eq]
  split
  · exact rematches_refl d
  · refine ((keeps_detach d id).rematches fun _ => rfl).trans fun j => ?_
    have hprune : Prunes (fun n => n.matched.getD []) ((d.detach id).subtree id) (d.detach id)
        ((d.detach id).dropAll ((d.detach id).subtree id)) :=
      (prunes_dropAll _ _).map fun n => n.matched.getD []
    rw [matchedOf, matchedOf, hprune.field]
    split
    · exact .inr ⟨[], List.mergeSort_nil.symm⟩
    · exact .inl rfl

theorem rematches_restyle (d : Document) (id : NodeId) : Rematches d (d.restyle id).1 := by
  intro j
  by_cases hj : j = id
  case neg =>
    have hother := congrArg (Option.map fun n => n.matched.getD []) (node?_restyle_of_ne d hj)
    rw [Option.map_map, Option.map_map] at hother
    exact .inl (congrArg (Option.getD · []) hother)
  subst hj
  cases hn : d.node? j with
  | none =>
    have hc : d.contains j = false := by rw [contains, hn]; rfl
    rw [restyle_of_not_contains hc]
    exact .inl rfl
  | some node =>
    obtain ⟨after, hafter, hmatched, -⟩ := node?_restyle_self hn
    have hshown : (d.restyle j).1.matchedOf j = d.matchedRules j := by
      rw [matchedOf, hafter, Option.map_some, hmatched]
      rfl
    exact .inr ⟨_, hshown⟩

theorem rematches_foldl_restyle (turns : List NodeId) (d : Document) :
    Rematches d (turns.foldl (fun d id => (d.restyle id).1) d) := by
  induction turns generalizing d with
  | nil => exact rematches_refl d
  | cons turn rest ih => exact (rematches_restyle d turn).trans (ih _)

theorem rematches_restyle_modify (d : Document) (id : NodeId) (style : Node → Declaration) :
    Rematches d ((d.modify id fun n => { n with inlineStyle := style n }).restyle id).1 := by
  refine Rematches.trans ?_ (rematches_restyle _ id)
  exact rematches_modify d id fun _ => rfl

/-- **Every action** leaves each node with the rules it holds or with sorted ones. -/
theorem rematches_perform (d : Document) (a : Action) : Rematches d (d.perform a) := by
  cases a with
  | create tag => exact rematches_create d tag
  | append parent child => exact (keeps_append d parent child).rematches fun _ => rfl
  | removeChild parent child => exact (keeps_removeChild d parent child).rematches fun _ => rfl
  | remove id => exact rematches_remove d id
  | setId id text => exact (keeps_setId d id text).rematches fun _ => rfl
  | setClasses id text => exact (keeps_setClasses d id text).rematches fun _ => rfl
  | addSheet sheet =>
    refine rematches_of_node? fun id => ?_
    rw [perform, node?_addSheet, Option.map_map]
    rfl
  | setSheet id sheet => exact (keeps_setSheet d id sheet).rematches fun _ => rfl
  | setMedia media =>
    refine rematches_of_node? fun id => ?_
    rw [perform, node?_setMedia, Option.map_map]
    rfl
  | replaceInline id style => exact rematches_restyle_modify d id _
  | updateInline id style => exact rematches_restyle_modify d id _
  | bind id component => exact (keeps_bind d id component).rematches fun _ => rfl
  | unbind id => exact (keeps_unbind d id).rematches fun _ => rfl
  | changeView id f => exact (keeps_changeView d id f).rematches fun _ => rfl
  | recordStates id states => exact (keeps_recordStates d id states).rematches fun _ => rfl
  | changeStates id states => exact (keeps_changeStates d id states).rematches fun _ => rfl
  | rematch id => exact (keeps_rematch d id).rematches fun _ => rfl
  | applyRules id rules => exact rematches_modify d id fun _ => rfl
  | restyle id => exact rematches_restyle d id
  | restyleDirty => exact rematches_foldl_restyle d.dirtyNodes d

theorem matchedOf_new (media : MediaEnvironment) (id : NodeId) :
    (Document.new media).matchedOf id = [] := by
  rw [matchedOf, node?_new]
  split <;> rfl

/-- **The rules that a node holds** stand in ascending rank, at every point of a run. -/
theorem pairwise_rank_matchedOf (hd : d.Reachable) (id : NodeId) :
    (d.matchedOf id).Pairwise fun a b => a.rank ≤ b.rank := by
  induction hd with
  | new media =>
    rw [matchedOf_new]
    exact .nil
  | @perform d a _ _ ih =>
    rcases rematches_perform d a id with hkept | ⟨rules, hsorted⟩
    · rwa [hkept]
    · rw [hsorted]
      exact MatchedRule.pairwise_sort rules

theorem matchedRules_inspect? {id : NodeId} {styles : InspectedStyles}
    (h : d.inspect? id = some styles) :
    styles.matchedRules = (d.matchedOf id).reverse.map .ofMatched := by
  obtain ⟨n, hn, rfl⟩ := Option.map_eq_some_iff.mp h
  rw [matchedOf, hn]
  rfl

/-- **The scores that an inspector shows.**  Of two matched rules, the one of the higher rank has
at least the score of the other, unless the other one overtakes it.  An inspector lists the rules
of a node from the highest rank to the lowest, so the scores go down the list but for these
cases. -/
theorem scores_inspect? (hd : d.Reachable) {id : NodeId} {styles : InspectedStyles}
    (h : d.inspect? id = some styles) :
    (∀ a b : MatchedRule, a.rank ≤ b.rank → (a.score ≤ b.score ↔ ¬a.Overtakes b)) ∧
      ∃ rules : List MatchedRule, styles.matchedRules = rules.map .ofMatched ∧
        rules.Pairwise fun higher lower => lower.rank ≤ higher.rank ∧
          (lower.score ≤ higher.score ↔ ¬lower.Overtakes higher) := by
  refine ⟨fun a b => MatchedRule.score_le_iff_of_rank_le, (d.matchedOf id).reverse,
    matchedRules_inspect? h, ?_⟩
  rw [List.pairwise_reverse]
  exact (pairwise_rank_matchedOf hd id).imp fun hrank =>
    ⟨hrank, MatchedRule.score_le_iff_of_rank_le hrank⟩

/-- A rule for texts in wide views. -/
def wideRule : StyleRule :=
  { textRule 0 "red" with inMedia := true }

/-- The rule as it matches a text. -/
def wideMatch : MatchedRule where
  rule := wideRule
  specificity := 1

/-- A sheet with that rule, and behind it a rule for all texts. -/
def wideSheet : StyleSheet where
  rules := [
    .media ⟨"(min-width: 100)", [⟨false, [⟨.width, [(.moreEqual, 100)]⟩], true⟩]⟩
      [.style wideRule],
    .style (textRule 1 "blue")]

/-- A text under that sheet, in a view that is wide enough. -/
def wideSample : Document :=
  Document.new.performAll [.create "text", .append .root ⟨1⟩,
    .setSheet .root (some ⟨0, wideSheet⟩)]

/-- Once restyled, the text is shown with the rule of the media group first. -/
theorem matchedRules_inspect?_wideSample :
    ∃ styles, (wideSample.perform (.restyle ⟨1⟩)).inspect? ⟨1⟩ = some styles ∧
      styles.matchedRules = [.ofMatched wideMatch, .ofMatched (textMatch 1 "blue")] := by
  have hrank : (textMatch 1 "blue").rank < wideMatch.rank := by decide
  have hmatched : wideSample.matchedRules ⟨1⟩ = [textMatch 1 "blue", wideMatch] :=
    MatchedRule.sort_pair_of_lt hrank
  obtain ⟨node, hn⟩ : ∃ node, wideSample.node? ⟨1⟩ = some node := ⟨_, rfl⟩
  obtain ⟨after, hafter, hrules, -⟩ := node?_restyle_self hn
  have hshown := congrArg (Option.map fun n : Node =>
    ({ inlineStyle := .ofInline n.inlineStyle
       matchedRules := (n.matched.getD []).reverse.map .ofMatched } : InspectedStyles)) hafter
  rw [hmatched] at hrules
  rw [Option.map_some, hrules] at hshown
  exact ⟨_, hshown, rfl⟩

theorem reachable_wideSample : (wideSample.perform (.restyle ⟨1⟩)).Reachable :=
  (reachable_performAll _ _).perform trivial

/-- The blue rule ranks lower than the red one and overtakes it. -/
theorem scores_inspect?_wideSample :
    (wideSample.perform (.restyle ⟨1⟩)).Reachable ∧
      ∃ styles, (wideSample.perform (.restyle ⟨1⟩)).inspect? ⟨1⟩ = some styles ∧
        (textMatch 1 "blue").rank ≤ wideMatch.rank ∧ (textMatch 1 "blue").Overtakes wideMatch ∧
        ∃ rules : List MatchedRule, styles.matchedRules = rules.map .ofMatched ∧
          rules.Pairwise fun higher lower => lower.rank ≤ higher.rank ∧
            (lower.score ≤ higher.score ↔ ¬lower.Overtakes higher) := by
  obtain ⟨styles, hstyles, -⟩ := matchedRules_inspect?_wideSample
  obtain ⟨hpair, hlist⟩ := scores_inspect? reachable_wideSample hstyles
  have hrank : (textMatch 1 "blue").rank ≤ wideMatch.rank := by decide
  refine ⟨reachable_wideSample, styles, hstyles, hrank, ?_, hlist⟩
  have hnot : ¬(textMatch 1 "blue").score ≤ wideMatch.score := by decide
  exact not_not.mp (mt (hpair _ _ hrank).mpr hnot)

/-- The scores of an inspector do not always go down its list. -/
theorem score_lt_wideSample :
    (wideSample.perform (.restyle ⟨1⟩)).Reachable ∧
      (textMatch 1 "blue").rank ≤ wideMatch.rank ∧
      wideMatch.score < (textMatch 1 "blue").score ∧
      ∃ styles, (wideSample.perform (.restyle ⟨1⟩)).inspect? ⟨1⟩ = some styles ∧
        styles.matchedRules.map (fun r => (r.order, r.score)) =
          [(0, 1000000), (1, 1000001)] := by
  obtain ⟨styles, hstyles, hrules⟩ := matchedRules_inspect?_wideSample
  refine ⟨reachable_wideSample, by decide, by decide, styles, hstyles, ?_⟩
  rw [hrules]
  decide

end Document
end StyleCascade
