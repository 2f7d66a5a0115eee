import StyleCascade.Proofs.CascadeLaw
import StyleCascade.Proofs.StateListening

/-!
# Properties that share a key once they are entered

A rule that matches only while states above the node allow it enters its properties in the
final style under the state `pseudo+` and the text of its selector.  That state takes the place
of whatever state the declaration gives a property, unless it is of the same kind.  So two
properties of one declaration can be entered under one key, and then only the later one is left.

`Property.Collide` says which properties these are (`MatchedRule.key_entered_eq_iff`); a merge
of the rule leaves the last of them (`Document.get?_insertAll_of_matchesByShape`).
-/
namespace StyleCascade

/-- What a run of writes leaves under the key of one of its entries: the last one behind it of
the same key, or else the entry itself. -/
theorem Keyed.lastUnder_append_cons {α κ : Type} [DecidableEq κ] (key : α → κ)
    (earlier : List α) (a : α) (later : List α) :
    lastUnder key (key a) (earlier ++ a :: later) =
      some ((later.filter (key · = key a)).getLast?.getD a) := by
  have hself : lastUnder key (key a) (earlier ++ [a]) = some a := by simp [lastUnder]
  have hlater : lastUnder key (key a) later = (later.filter (key · = key a)).getLast? :=
    List.getLast?_filter.symm
  rw [List.append_cons, lastUnder_append, hself, hlater]
  cases (later.filter (key · = key a)).getLast? <;> rfl

/-- The enabled properties of a declaration have different keys. -/
theorem Declaration.nodup_map_key_enabled (d : Declaration) :
    (d.enabled.map Property.key).Nodup :=
  d.distinct.sublist (List.filter_sublist.map Property.key)

/-! ## Properties that collide -/

/-- Whether a rule that is known by `text` brings two properties together: neither stands under
a state of the kind that the rule gives, and they share their name; or one of them does, and it
has the key that the other one gets. -/
def Property.Collide (text : String) (p q : Property) : Prop :=
  (p.isPseudo = false ∧ q.isPseudo = false ∧ q.name = p.name) ∨
    (p.isPseudo = false ∧ q.isPseudo = true ∧ q.key = p.name ++ ":pseudo+" ++ text) ∨
    (p.isPseudo = true ∧ q.isPseudo = false ∧ q.name ++ ":pseudo+" ++ text = p.key)

instance (text : String) (p q : Property) : Decidable (p.Collide text q) :=
  inferInstanceAs (Decidable (_ ∨ _))

namespace MatchedRule

variable {m : MatchedRule} {text : String} {p q : Property}

/-- A property that stands under a state of the kind that rules give is entered as it is. -/
theorem entered_of_isPseudo (hp : p.isPseudo = true) : m.entered p = p := by
  rw [entered]
  cases m.pseudoKey with
  | none => rfl
  | some text => exact if_pos hp

/-- Any other property loses the state that it has. -/
theorem key_entered_of_not_isPseudo (hm : m.pseudoKey = some text) (hp : p.isPseudo = false) :
    (m.entered p).key = p.name ++ ":pseudo+" ++ text := by
  have hentered : m.entered p = { p with state := some ("pseudo+" ++ text) } := by
    simp only [entered, hm, hp, Bool.false_eq_true, if_false]
  have hkey : (m.entered p).key = p.name ++ ":" ++ ("pseudo+" ++ text) := by
    rw [hentered]
    rfl
  have hmark : ":" ++ ("pseudo+" ++ text) = ":pseudo+" ++ text := by
    rw [← String.append_assoc]
    rfl
  rw [hkey, String.append_assoc, hmark, ← String.append_assoc]

/-- **Two properties of different keys are entered under one key exactly if they collide.** -/
theorem key_entered_eq_iff (hm : m.pseudoKey = some text) (hne : q.key ≠ p.key) :
    (m.entered q).key = (m.entered p).key ↔ p.Collide text q := by
  cases hp : p.isPseudo <;> cases hq : q.isPseudo
  · rw [key_entered_of_not_isPseudo hm hp, key_entered_of_not_isPseudo hm hq]
    simp [Property.Collide, hp, hq]
  · rw [key_entered_of_not_isPseudo hm hp, entered_of_isPseudo hq]
    simp [Property.Collide, hp, hq]
  · rw [entered_of_isPseudo hp, key_entered_of_not_isPseudo hm hq]
    simp [Property.Collide, hp, hq]
  · rw [entered_of_isPseudo hp, entered_of_isPseudo hq]
    simp [Property.Collide, hp, hq, hne]

/-- Merging the rule leaves, under the key that a property is entered under, the last of the
properties behind it that collide with it, or else the property. -/
theorem get?_insertAll_contributions (hm : m.pseudoKey = some text)
    {earlier later : List Property} (h : m.rule.declaration.enabled = earlier ++ p :: later)
    (style : Declaration) :
    (style.insertAll m.contributions).get? (m.entered p).key =
      some (m.entered ((later.filter (p.Collide text ·)).getLast?.getD p)) := by
  have hdistinct := m.rule.declaration.nodup_map_key_enabled
  rw [h, List.map_append, List.map_cons] at hdistinct
  have hnotMem : p.key ∉ later.map Property.key :=
    (List.nodup_cons.mp (List.nodup_append.mp hdistinct).2.1).1
  have hsame : later.filter (fun q => (m.entered q).key = (m.entered p).key) =
      later.filter (p.Collide text ·) := by
    refine List.filter_congr fun q hq => ?_
    have hne : q.key ≠ p.key := fun heq => hnotMem (heq ▸ List.mem_map_of_mem hq)
    exact decide_eq_decide.mpr (key_entered_eq_iff hm hne)
  have hlast := Keyed.lastUnder_append_cons Property.key (earlier.map m.entered) (m.entered p)
    (later.map m.entered)
  rw [List.filter_map, List.getLast?_map, Option.getD_map] at hlast
  rw [Declaration.get?_insertAll, contributions_eq, h, List.map_append, List.map_cons, hlast,
    ← hsame]
  rfl

end MatchedRule

namespace Document

variable {d : Document} {id : NodeId}

/-- **What re-keying keeps.**  Of a rule that matches a node only as far as the shape of the
tree goes, two properties are entered in the final style under one key exactly if they collide
under the text of the selector that the rule is known by.  Merging the rule leaves the last of
the properties that collide, so a property is there as long as none behind it collides with it. -/
theorem get?_insertAll_of_matchesByShape {m : MatchedRule} (hm : m ∈ d.matchedRules id)
    (hnone : ∀ t ∈ m.rule.selectors, d.cascadeMatch t id ≠ .plain) :
    ∃ s ∈ m.rule.selectors, d.cascadeMatch s id = .pseudo ∧ m.pseudoKey = some s.text ∧
      (∀ p q, q.key ≠ p.key →
        ((m.entered q).key = (m.entered p).key ↔ p.Collide s.text q)) ∧
      ∀ earlier p later, m.rule.declaration.enabled = earlier ++ p :: later →
        ∀ style : Declaration, (style.insertAll m.contributions).get? (m.entered p).key =
          some (m.entered ((later.filter (p.Collide s.text ·)).getLast?.getD p)) := by
  cases matchesAs_of_mem_matchedRules hm with
  | @plain s hs hkey => exact absurd hs.how_eq (hnone s hs.mem)
  | @pseudo s _ hs hkey =>
    exact ⟨s, hs.mem, hs.how_eq, hkey, fun p q hne => MatchedRule.key_entered_eq_iff hkey hne,
      fun earlier p later h style => MatchedRule.get?_insertAll_contributions hkey h style⟩

/-- A rule for labels in active lists that gives a color, and another one for the label while
it is hovered. -/
def hoverColorRule : StyleRule where
  selectors := [activeLabel]
  declaration := .ofMembers [("color", .string "red"), ("color:hover", .string "blue")]
  text := "list:active label"
  order := 0

/-- A label in a list under that rule. -/
def hoverColorSample : Document :=
  { listeningSample with sheets := [⟨0, { rules := [.style hoverColorRule] }⟩] }

/-- The rule as it matches the label. -/
def hoverColorMatch : MatchedRule where
  rule := hoverColorRule
  specificity := 2
  pseudoKey := some "list:active label"

theorem hoverColorMatch_mem_matchedRules :
    hoverColorMatch ∈ hoverColorSample.matchedRules ⟨2⟩ :=
  mem_matchedRules.mpr ⟨hoverColorRule, List.mem_singleton.mpr rfl, rfl⟩

theorem cascadeMatch_hoverColorSample :
    ∀ t ∈ hoverColorMatch.rule.selectors, hoverColorSample.cascadeMatch t ⟨2⟩ ≠ .plain := by
  decide

/-- The second color is entered over the first one, and is there. -/
theorem get?_insertAll_of_matchesByShape_hoverColorSample :
    hoverColorMatch ∈ hoverColorSample.matchedRules ⟨2⟩ ∧
      (∀ t ∈ hoverColorMatch.rule.selectors, hoverColorSample.cascadeMatch t ⟨2⟩ ≠ .plain) ∧
      (Declaration.empty.insertAll hoverColorMatch.contributions).get?
        "color:pseudo+list:active label" =
          some (hoverColorMatch.entered (.ofKey "color:hover" (some (.string "blue")))) := by
  obtain ⟨s, hs, -, -, -, hget⟩ := get?_insertAll_of_matchesByShape
    hoverColorMatch_mem_matchedRules cascadeMatch_hoverColorSample
  obtain rfl : s = activeLabel := List.mem_singleton.mp hs
  exact ⟨hoverColorMatch_mem_matchedRules, cascadeMatch_hoverColorSample,
    hget [] (.ofKey "color" (some (.string "red")))
      [.ofKey "color:hover" (some (.string "blue"))] rfl .empty⟩

/-- The two colors have different keys and are entered under one, and the first one is lost. -/
theorem properties_insertAll_hoverColorMatch :
    hoverColorMatch ∈ hoverColorSample.matchedRules ⟨2⟩ ∧
      (∀ t ∈ hoverColorMatch.rule.selectors, hoverColorSample.cascadeMatch t ⟨2⟩ ≠ .plain) ∧
      hoverColorMatch.rule.declaration.enabled.map Property.key = ["color", "color:hover"] ∧
      (Declaration.empty.insertAll hoverColorMatch.contributions).properties =
        [{ name := "color", state := some "pseudo+list:active label",
           value := some (.string "blue") }] :=
  ⟨hoverColorMatch_mem_matchedRules, cascadeMatch_hoverColorSample, rfl, rfl⟩

end Document
end StyleCascade
