import Mathlib.Data.Prod.Lex
import Mathlib.Order.Lattice
import StyleCascade.Proofs.DerivedProperties
import StyleCascade.Proofs.Restyling

/-!
# Who wins the cascade

The entry that restyling gives to a key comes from the inline style if it is enabled
there, else from the last rule that contributes to the key, lowest rank first, and else
it is what the node showed before, cleared (`Document.get?_finalStyle_restyle`).  Derived
properties are left out: they follow from their sources.

Applying the same cascade to its own result changes nothing (`Declaration.cascade_cascade`),
which is what lets a node that is up to date stay as it is.
-/
namespace StyleCascade

/-! ## Rank -/

namespace MatchedRule

/-- The rank of a matched rule: specificity, then standing under a media condition, then
order. -/
def rank (m : MatchedRule) : ℕ ×ₗ Bool ×ₗ ℕ :=
  toLex (m.specificity, toLex (m.rule.inMedia, m.rule.order))

theorem rankLe_iff (a b : MatchedRule) : a.rankLe b = true ↔ a.rank ≤ b.rank := by
  rw [rank, rank, Prod.Lex.toLex_le_toLex, Prod.Lex.toLex_le_toLex, rankLe]
  by_cases hs : a.specificity = b.specificity
  · rw [if_neg (not_not.mpr hs)]
    by_cases hm : a.rule.inMedia = b.rule.inMedia
    · rw [if_neg (not_not.mpr hm)]
      simp [hs, hm]
    · rw [if_pos hm]
      cases ha : a.rule.inMedia <;> cases hb : b.rule.inMedia <;> simp_all
  · rw [if_pos hs]
    simp [hs]

theorem rankLe_trans (a b c : MatchedRule) (hab : a.rankLe b = true) (hbc : b.rankLe c = true) :
    a.rankLe c = true := by
  rw [rankLe_iff] at hab hbc ⊢
  exact hab.trans hbc

theorem rankLe_total (a b : MatchedRule) : (a.rankLe b || b.rankLe a) = true := by
  rw [Bool.or_eq_true, rankLe_iff, rankLe_iff]
  exact le_total _ _

/-- Sorted rules stand in ascending rank. -/
theorem pairwise_sort (rules : List MatchedRule) :
    (sort rules).Pairwise fun a b => a.rank ≤ b.rank := by
  have hsorted : (sort rules).Pairwise (rankLe · ·) :=
    List.pairwise_mergeSort rankLe_trans rankLe_total rules
  exact hsorted.imp fun {a b} h => (rankLe_iff a b).mp h

/-! ## Contributions -/

/-- What a matched rule makes of one of its properties: a rule that applies only while
states allow it puts the property under the state `pseudo+` and its selector, unless the
property has a state of that kind already. -/
def entered (m : MatchedRule) (p : Property) : Property :=
  match m.pseudoKey with
  | none => p
  | some text => if p.isPseudo then p else { p with state := some ("pseudo+" ++ text) }

theorem contributions_eq (m : MatchedRule) :
    m.contributions = m.rule.declaration.enabled.map m.entered := by
  rw [contributions]
  cases hkey : m.pseudoKey with
  | none =>
    have hid : m.entered = fun p => p := by
      funext p
      rw [entered, hkey]
    rw [hid, List.map_id']
  | some text =>
    refine List.map_congr_left fun p _ => ?_
    rw [entered, hkey]
    rfl

/-- A rule that applies only while states allow it contributes under states only. -/
theorem state_entered_ne_none {m : MatchedRule} (hm : m.pseudoKey ≠ none) (p : Property) :
    (m.entered p).state ≠ none := by
  obtain ⟨text, hkey⟩ := Option.ne_none_iff_exists'.mp hm
  rw [entered, hkey]
  by_cases hp : p.isPseudo
  · intro hnone
    simp only [hp, if_true] at hnone
    simp [Property.isPseudo, hnone] at hp
  · simp [hp]

/-- The last contribution to `key` when rules are walked in order, and each rule's enabled
properties in the order of its declaration. -/
def lastContribution (rules : List MatchedRule) (key : String) : Option Property :=
  Keyed.lastUnder Property.key key
    (rules.flatMap fun m => m.rule.declaration.enabled.map m.entered)

theorem lastContribution_cons (m : MatchedRule) (rest : List MatchedRule) (key : String) :
    lastContribution (m :: rest) key = (lastContribution rest key).or
      (Keyed.lastUnder Property.key key (m.rule.declaration.enabled.map m.entered)) := by
  rw [lastContribution, List.flatMap_cons, Keyed.lastUnder_append]
  rfl

/-- To a key without a state, rules that apply only while states allow it contribute
nothing. -/
theorem lastContribution_filter {key : String} (hkey : (Property.splitKey key).2 = none)
    (rules : List MatchedRule) :
    lastContribution (rules.filter (·.pseudoKey.isNone)) key = lastContribution rules key := by
  induction rules with
  | nil => rfl
  | cons m rest ih =>
    cases hm : m.pseudoKey with
    | none =>
      rw [List.filter_cons_of_pos (by simp [hm]), lastContribution_cons, lastContribution_cons, ih]
    | some text =>
      have hnone : Keyed.lastUnder Property.key key
          (m.rule.declaration.enabled.map m.entered) = none := by
        refine Keyed.lastUnder_eq_none Property.key fun q hq he => ?_
        obtain ⟨p, -, rfl⟩ := List.mem_map.mp hq
        refine Property.splitKey_key_snd_ne_none (state_entered_ne_none (m := m) ?_ p) ?_
        · simp [hm]
        · rw [he, hkey]
      rw [List.filter_cons_of_neg (by simp [hm]), lastContribution_cons, ih, hnone,
        Option.or_none]

end MatchedRule

/-! ## The cascade of declarations -/

namespace Declaration

/-- A cascade before derived properties are added. -/
def overlay (before : Declaration) (rules : List MatchedRule) (inline : Declaration) :
    Declaration :=
  (before.clear.insertAll (rules.flatMap (·.contributions))).insertAll inline.enabled

variable {rules : List MatchedRule} {inline : Declaration} {sheets : SheetStack}

theorem get?_overlay (before : Declaration) (key : String) :
    (before.overlay rules inline).get? key =
      ((inline.get? key).filter (!·.disabled)).or
        ((MatchedRule.lastContribution rules key).or
          ((before.get? key).map Property.cleared)) := by
  have hwalk : rules.flatMap (·.contributions) =
      rules.flatMap fun m => m.rule.declaration.enabled.map m.entered :=
    List.flatMap_congr fun m _ => m.contributions_eq
  rw [overlay, get?_insertAll, get?_insertAll, get?_clear, lastUnder_enabled, hwalk]
  rfl

theorem keys_prefix_overlay (before : Declaration) :
    before.keys <+: (before.overlay rules inline).keys := by
  rw [← keys_clear before]
  exact (keys_prefix_insertAll before.clear _).trans (keys_prefix_insertAll _ _)

/-- Keys that are present keep their places in a cascade. -/
theorem keys_prefix_cascade (before : Declaration) :
    before.keys <+: (before.cascade rules inline sheets).keys :=
  (keys_prefix_overlay before).trans (keys_prefix_expand (before.overlay rules inline))

/-- The entry of a key that is not derived. -/
theorem get?_cascade_of_ne (before : Declaration) {key : String}
    (h : (Property.splitKey key).1 ∉ Derivation.targets) :
    (before.cascade rules inline sheets).get? key =
      ((inline.get? key).filter (!·.disabled)).or
        ((MatchedRule.lastContribution rules key).or
          ((before.get? key).map Property.cleared)) := by
  rw [← get?_overlay]
  exact get?_expand_of_ne (before.overlay rules inline) h

/-- An entry that a cascade leaves as the overlay made it is made the same by a second
overlay. -/
theorem get?_overlay_of_eq {before after : Declaration} {key : String}
    (h : after.get? key = (before.overlay rules inline).get? key) :
    (after.overlay rules inline).get? key = (before.overlay rules inline).get? key := by
  rw [get?_overlay, h, get?_overlay]
  cases (inline.get? key).filter (!·.disabled) with
  | some p => rfl
  | none =>
    cases MatchedRule.lastContribution rules key with
    | some p => rfl
    | none => cases before.get? key <;> rfl

/-- **A cascade over its own result changes nothing.** -/
theorem cascade_cascade (before : Declaration) :
    (before.cascade rules inline sheets).cascade rules inline sheets =
      before.cascade rules inline sheets := by
  have hplain : ∀ key, (Property.splitKey key).1 ∉ Derivation.targets →
      ((before.cascade rules inline sheets).overlay rules inline).get? key =
        (before.overlay rules inline).get? key :=
    fun key hkey => get?_overlay_of_eq (get?_expand_of_ne _ hkey)
  have hget : ∀ key, ((before.cascade rules inline sheets).cascade rules inline sheets).get? key =
      (before.cascade rules inline sheets).get? key := by
    intro key
    rcases get?_expand_congr sheets hplain key with heq | ⟨hsecond, hfirst⟩
    · exact heq
    · exact hsecond.trans ((get?_overlay_of_eq hfirst).trans hfirst.symm)
  -- The keys of the first cascade stand in front in the second, which has no others.
  have hpre : (before.cascade rules inline sheets).keys <+:
      ((before.cascade rules inline sheets).cascade rules inline sheets).keys :=
    keys_prefix_cascade _
  have hsub : ((before.cascade rules inline sheets).cascade rules inline sheets).keys ⊆
      (before.cascade rules inline sheets).keys := by
    intro key hkey
    rw [mem_keys_iff, hget] at hkey
    exact mem_keys_iff.mpr hkey
  have hlength := List.Nodup.length_le_of_subset
    ((before.cascade rules inline sheets).cascade rules inline sheets).distinct hsub
  exact eq_of_get? (hpre.eq_of_length_le hlength).symm hget

end Declaration

/-! ## Rules that match -/

theorem Selector.eq_nil_of_best? {selectors : List Selector} (h : best? selectors = none) :
    selectors = [] := by
  cases selectors with
  | nil => rfl
  | cons s rest =>
    rw [best?] at h
    split at h
    · cases h
    · split at h <;> cases h

theorem Selector.best?_eq_some {selectors : List Selector} {s : Selector}
    (h : best? selectors = some s) :
    s ∈ selectors ∧ ∀ t ∈ selectors, t.specificity ≤ s.specificity := by
  induction selectors generalizing s with
  | nil => cases h
  | cons a rest ih =>
    rw [best?] at h
    cases hrest : best? rest with
    | none =>
      rw [hrest] at h
      obtain rfl := Option.some.inj h
      simp [eq_nil_of_best? hrest]
    | some b =>
      obtain ⟨hb, hmax⟩ := ih hrest
      simp only [hrest] at h
      by_cases hlt : a.specificity < b.specificity
      · obtain rfl := Option.some.inj ((if_pos hlt).symm.trans h)
        refine ⟨List.mem_cons_of_mem _ hb, fun t ht => ?_⟩
        rcases List.mem_cons.mp ht with rfl | ht
        · exact hlt.le
        · exact hmax t ht
      · obtain rfl := Option.some.inj ((if_neg hlt).symm.trans h)
        refine ⟨List.mem_cons_self, fun t ht => ?_⟩
        rcases List.mem_cons.mp ht with rfl | ht
        · exact le_rfl
        · exact (hmax t ht).trans (not_lt.mp hlt)

namespace Document

variable {d : Document} {id : NodeId}

/-- A selector of the rule matches in the given way, and none that does is more specific. -/
structure MatchesBy (d : Document) (id : NodeId) (m : MatchedRule) (how : Match)
    (s : Selector) : Prop where
  mem : s ∈ m.rule.selectors
  how_eq : d.cascadeMatch s id = how
  specificity : m.specificity = s.specificity
  best : ∀ t ∈ m.rule.selectors, d.cascadeMatch t id = how → t.specificity ≤ s.specificity

/-- How a matched rule comes about: a selector of it matches at once, or none does and one
matches as far as the shape of the tree goes.  The rule is then known by its text. -/
inductive MatchesAs (d : Document) (id : NodeId) (m : MatchedRule) : Prop
  | plain {s : Selector} (hs : d.MatchesBy id m .plain s) (hkey : m.pseudoKey = none)
  | pseudo {s : Selector} (hnone : ∀ t ∈ m.rule.selectors, d.cascadeMatch t id ≠ .plain)
      (hs : d.MatchesBy id m .pseudo s) (hkey : m.pseudoKey = some s.text)

/-- The best selector among those that match in one way. -/
theorem matchesBy_of_best? {m : MatchedRule} {how : Match} {s : Selector}
    (h : Selector.best? (m.rule.selectors.filter fun s => d.cascadeMatch s id = how) = some s)
    (hspec : m.specificity = s.specificity) : d.MatchesBy id m how s := by
  obtain ⟨hmem, hbest⟩ := Selector.best?_eq_some h
  obtain ⟨hs, hhow⟩ := List.mem_filter.mp hmem
  refine ⟨hs, by simpa using hhow, hspec, fun t ht hthow => ?_⟩
  exact hbest t (List.mem_filter.mpr ⟨ht, by simpa using hthow⟩)

theorem matchesAs_of_matchRule? {rule : StyleRule} {m : MatchedRule}
    (h : d.matchRule? id rule = some m) : m.rule = rule ∧ d.MatchesAs id m := by
  rw [matchRule?] at h
  split at h
  · rename_i s hbest
    obtain rfl := Option.some.inj h
    exact ⟨rfl, .plain (matchesBy_of_best? hbest rfl) rfl⟩
  · rename_i hnone
    obtain ⟨s, hbest, rfl⟩ := Option.map_eq_some_iff.mp h
    refine ⟨rfl, .pseudo (fun t ht hplain => ?_) (matchesBy_of_best? hbest rfl) rfl⟩
    have hempty := List.filter_eq_nil_iff.mp (Selector.eq_nil_of_best? hnone) t ht
    exact hempty (decide_eq_true hplain)

theorem MatchesAs.exists_cascadeMatch_ne_none {m : MatchedRule} (h : d.MatchesAs id m) :
    ∃ s ∈ m.rule.selectors, d.cascadeMatch s id ≠ .none := by
  cases h with
  | @plain s hs hkey => exact ⟨s, hs.mem, by simp [hs.how_eq]⟩
  | @pseudo s hnone hs hkey => exact ⟨s, hs.mem, by simp [hs.how_eq]⟩

/-- A rule is left out only if none of its selectors matches in either way. -/
theorem cascadeMatch_eq_none_of_matchRule? {rule : StyleRule}
    (h : d.matchRule? id rule = none) {s : Selector} (hs : s ∈ rule.selectors) :
    d.cascadeMatch s id = .none := by
  rw [matchRule?] at h
  split at h
  · cases h
  · rename_i hplain
    have hpseudo := Selector.eq_nil_of_best? (Option.map_eq_none_iff.mp h)
    have hnotPlain := List.filter_eq_nil_iff.mp (Selector.eq_nil_of_best? hplain) s hs
    have hnotPseudo := List.filter_eq_nil_iff.mp hpseudo s hs
    cases hmatch : d.cascadeMatch s id with
    | none => rfl
    | plain => exact absurd (decide_eq_true hmatch) hnotPlain
    | pseudo => exact absurd (decide_eq_true hmatch) hnotPseudo

theorem mem_matchedRules {m : MatchedRule} :
    m ∈ d.matchedRules id ↔ ∃ rule ∈ d.activeRules id, d.matchRule? id rule = some m := by
  rw [matchedRules, MatchedRule.sort, List.mem_mergeSort, List.mem_filterMap]

theorem matchesAs_of_mem_matchedRules {m : MatchedRule} (hm : m ∈ d.matchedRules id) :
    d.MatchesAs id m := by
  obtain ⟨rule, -, hmatch⟩ := mem_matchedRules.mp hm
  exact (matchesAs_of_matchRule? hmatch).2

/-- The rules that match are those of the sheets that apply to the node with a selector that
matches in one way or the other. -/
theorem exists_mem_matchedRules_iff (rule : StyleRule) :
    (∃ m ∈ d.matchedRules id, m.rule = rule) ↔
      rule ∈ d.activeRules id ∧ ∃ s ∈ rule.selectors, d.cascadeMatch s id ≠ .none := by
  constructor
  · rintro ⟨m, hm, rfl⟩
    obtain ⟨rule, hrule, hmatch⟩ := mem_matchedRules.mp hm
    obtain ⟨rfl, has⟩ := matchesAs_of_matchRule? hmatch
    exact ⟨hrule, has.exists_cascadeMatch_ne_none⟩
  · rintro ⟨hrule, s, hs, hne⟩
    cases hmatch : d.matchRule? id rule with
    | none => exact absurd (cascadeMatch_eq_none_of_matchRule? hmatch hs) hne
    | some m =>
      exact ⟨m, mem_matchedRules.mpr ⟨rule, hrule, hmatch⟩, (matchesAs_of_matchRule? hmatch).1⟩

/-! ## The winner -/

/-- **Who wins the cascade.**  The entry of a key that is not derived is the enabled inline
property; else what the matched rules, lowest rank first, contribute to it last; else the
entry from before, cleared.  Rules that match by shape only never reach a key without a
state, and keys that are present keep their places. -/
theorem get?_finalStyle_restyle {node : Node} (hn : d.node? id = some node) :
    ∃ after, (d.restyle id).1.node? id = some after ∧
      after.matched = some (d.matchedRules id) ∧
      (d.matchedRules id).Pairwise (fun a b => a.rank ≤ b.rank) ∧
      (∀ rule, (∃ m ∈ d.matchedRules id, m.rule = rule) ↔
        rule ∈ d.activeRules id ∧ ∃ s ∈ rule.selectors, d.cascadeMatch s id ≠ .none) ∧
      (∀ m ∈ d.matchedRules id, d.MatchesAs id m) ∧
      node.finalStyle.keys <+: after.finalStyle.keys ∧
      ∀ key, (Property.splitKey key).1 ∉ Derivation.targets →
        after.finalStyle.get? key =
          ((node.inlineStyle.get? key).filter (!·.disabled)).or
            ((MatchedRule.lastContribution (d.matchedRules id) key).or
              ((node.finalStyle.get? key).map Property.cleared)) ∧
        ((Property.splitKey key).2 = none →
          MatchedRule.lastContribution (d.matchedRules id) key =
            MatchedRule.lastContribution
              ((d.matchedRules id).filter (·.pseudoKey.isNone)) key) := by
  obtain ⟨after, hafter, hmatched, -, hfinal⟩ := node?_restyle_self hn
  refine ⟨after, hafter, hmatched, MatchedRule.pairwise_sort _, exists_mem_matchedRules_iff,
    fun m => matchesAs_of_mem_matchedRules, ?_, fun key hkey => ⟨?_, fun hstate => ?_⟩⟩
  · rw [hfinal]
    exact Declaration.keys_prefix_cascade node.finalStyle
  · rw [hfinal]
    exact Declaration.get?_cascade_of_ne node.finalStyle hkey
  · exact (MatchedRule.lastContribution_filter hstate _).symm

/-- A root that showed a height and has an inline width, under a rule that gives it a color
and another width. -/
def cascadeSample : Document where
  slots := #[some
    { tag := "#document"
      inlineStyle := .ofList [{ name := "width", value := some (.string "8px") }]
      finalStyle := .ofList [{ name := "height", value := some (.string "4px") }] }]
  sheets := [⟨0, { rules := [.style
    { selectors := [⟨⟨.element, "#document", none⟩, []⟩]
      declaration := .ofList [{ name := "color", value := some (.string "red") },
        { name := "width", value := some (.string "2px") }]
      text := "#document"
      order := 0 }] }⟩]

/-- The inline width wins, the color comes from the rule, and the height is cleared. -/
theorem get?_finalStyle_restyle_cascadeSample :
    ∃ after, (cascadeSample.restyle .root).1.node? .root = some after ∧
      after.finalStyle.get? "width" = some { name := "width", value := some (.string "8px") } ∧
      after.finalStyle.get? "color" = some { name := "color", value := some (.string "red") } ∧
      after.finalStyle.get? "height" = some { name := "height", value := none } ∧
      after.finalStyle.get? "margin" = none := by
  obtain ⟨after, hafter, -, -, -, -, -, hget⟩ :=
    @get?_finalStyle_restyle cascadeSample .root _ rfl
  have hmatched : cascadeSample.matchedRules .root =
      (cascadeSample.activeRules .root).filterMap (cascadeSample.matchRule? .root) :=
    List.mergeSort_singleton _
  rw [hmatched] at hget
  refine ⟨after, hafter, ?_, ?_, ?_, ?_⟩
  · exact (hget "width" (by decide)).1
  · exact (hget "color" (by decide)).1
  · exact (hget "height" (by decide)).1
  · exact (hget "margin" (by decide)).1

end Document
end StyleCascade
