import StyleCascade.Proofs.CascadeLaw

/-!
# What the style before leaves behind

A cascade keeps the keys of the style before and clears what nothing sets any more.  What
it shows in the end depends on the rules, the inline style and the sheets of now alone
(`Declaration.shown?_cascade_of_not_withdraws`), with one exception.  A cleared source of a
derived property is still a source: the property derived from it is cleared as well, even
where a rule of now or the inline style sets it (`Declaration.shown?_cascade_of_withdraws`).
-/
namespace StyleCascade

/-- The key of what is derived from a property. -/
def Derivation.keyFor (d : Derivation) (p : Property) : String :=
  ({ p with name := d.target } : Property).key

namespace Derivation

variable {d : Derivation} {sheets : SheetStack} {p q : Property}

theorem key_of_derive? (h : d.derive? sheets p = some q) : q.key = d.keyFor p := by
  obtain ⟨-, hname, hstate⟩ := derive?_eq_some h
  rw [keyFor, Property.key, Property.key, hname, hstate]

/-- From an undefined source an undefined property is derived. -/
theorem derive?_cleared (sheets : SheetStack) (h : p.name = d.source) :
    ∃ q, d.derive? sheets p.cleared = some q ∧ q.isUndefined = true := by
  have hname : p.cleared.name = d.source := h
  refine ⟨{ p.cleared with name := d.target }, ?_, rfl⟩
  rw [derive?, if_pos hname]
  rfl

end Derivation

namespace Declaration

/-- The entry of a key, unless it is undefined. -/
def shown? (style : Declaration) (key : String) : Option Property :=
  (style.get? key).filter (!·.isUndefined)

/-- What applies now sets under a key: the enabled inline property, or else the last
contribution of the rules. -/
def given? (rules : List MatchedRule) (inline : Declaration) (key : String) : Option Property :=
  ((inline.get? key).filter (!·.disabled)).or (MatchedRule.lastContribution rules key)

/-- The style before holds a source that nothing sets any more, and the property derived from
that source has the given key. -/
def Withdraws (before : Declaration) (rules : List MatchedRule) (inline : Declaration)
    (key : String) : Prop :=
  ∃ d ∈ Derivation.all, ∃ p ∈ before.properties,
    p.name = d.source ∧ (given? rules inline p.key).isNone = true ∧ d.keyFor p = key

instance (before : Declaration) (rules : List MatchedRule) (inline : Declaration)
    (key : String) : Decidable (before.Withdraws rules inline key) :=
  inferInstanceAs (Decidable (∃ d ∈ Derivation.all, ∃ p ∈ before.properties, _ ∧ _ ∧ _))

variable {before : Declaration} {rules : List MatchedRule} {inline : Declaration}
  {sheets : SheetStack} {key : String}

theorem get?_overlay_eq_or (before : Declaration) (rules : List MatchedRule)
    (inline : Declaration) (key : String) :
    (before.overlay rules inline).get? key =
      (given? rules inline key).or ((before.get? key).map Property.cleared) := by
  rw [get?_overlay, given?, Option.or_assoc]

/-- Before derived properties are added, what shows is what applies now. -/
theorem shown?_overlay (before : Declaration) (rules : List MatchedRule) (inline : Declaration)
    (key : String) : (before.overlay rules inline).shown? key =
      (given? rules inline key).filter (!·.isUndefined) := by
  rw [shown?, get?_overlay_eq_or]
  cases given? rules inline key with
  | some p => rfl
  | none => cases before.get? key <;> rfl

/-- A property that the style before does not withdraw is derived from what applies now. -/
theorem exists_given_of_derive? {d : Derivation} (hd : d ∈ Derivation.all) {p q : Property}
    (hnot : ¬before.Withdraws rules inline key)
    (hp : (before.overlay rules inline).get? p.key = some p)
    (hq : d.derive? sheets p = some q) (hkey : q.key = key) :
    given? rules inline p.key = some p := by
  rw [get?_overlay_eq_or] at hp
  cases hgiven : given? rules inline p.key with
  | some r => rwa [hgiven] at hp
  | none =>
    rw [hgiven, Option.none_or] at hp
    obtain ⟨r, hr, rfl⟩ := Option.map_eq_some_iff.mp hp
    obtain ⟨hmem, -⟩ := Keyed.mem_of_lookup Property.key hr
    have hname : r.name = d.source := (Derivation.derive?_eq_some hq).1
    have hnone : (given? rules inline r.key).isNone = true := Option.isNone_iff_eq_none.mpr hgiven
    exact absurd ⟨d, hd, r, hmem, hname, hnone, (Derivation.key_of_derive? hq).symm.trans hkey⟩
      hnot

/-- So the same is derived over every style before that does not withdraw it. -/
theorem derivedUnder_overlay_eq {d : Derivation} (hd : d ∈ Derivation.all)
    {before' : Declaration} (h : ¬before.Withdraws rules inline key)
    (h' : ¬before'.Withdraws rules inline key) :
    d.derivedUnder sheets (before.overlay rules inline) key =
      d.derivedUnder sheets (before'.overlay rules inline) key := by
  have hkept : ∀ (style : Declaration) {p : Property}, given? rules inline p.key = some p →
      (style.overlay rules inline).get? p.key = some p := by
    intro style p hp
    rw [get?_overlay_eq_or, hp, Option.some_or]
  refine Option.ext fun q => ?_
  rw [Derivation.derivedUnder_eq_some_iff hd, Derivation.derivedUnder_eq_some_iff hd]
  constructor
  · rintro ⟨p, hp, hq, hkey⟩
    exact ⟨p, hkept before' (exists_given_of_derive? hd h hp hq hkey), hq, hkey⟩
  · rintro ⟨p, hp, hq, hkey⟩
    exact ⟨p, hkept before (exists_given_of_derive? hd h' hp hq hkey), hq, hkey⟩

/-- **A withdrawn property is not shown**, whatever sets it now. -/
theorem shown?_cascade_of_withdraws (h : before.Withdraws rules inline key) :
    (before.cascade rules inline sheets).shown? key = none := by
  obtain ⟨d, hd, p, hp, hname, hgiven, rfl⟩ := h
  obtain ⟨q, hq, hundefined⟩ := Derivation.derive?_cleared sheets hname
  have hsource : (before.overlay rules inline).get? p.cleared.key = some p.cleared := by
    have hsame : p.cleared.key = p.key := rfl
    rw [get?_overlay_eq_or, hsame, Option.isNone_iff_eq_none.mp hgiven, get?_of_mem hp]
    rfl
  have hkey : q.key = d.keyFor p := (Derivation.key_of_derive? hq : q.key = d.keyFor p.cleared)
  have hwritten : d.derivedUnder sheets (before.overlay rules inline) (d.keyFor p) = some q :=
    (Derivation.derivedUnder_eq_some_iff hd).mpr ⟨p.cleared, hsource, hq, hkey⟩
  have htarget : (Property.splitKey (d.keyFor p)).1 = d.target := by
    rw [← hkey, Derivation.splitKey_key_of_derive? hd hq]
  have hget : (before.cascade rules inline sheets).get? (d.keyFor p) = some q :=
    calc (before.cascade rules inline sheets).get? (d.keyFor p)
        = (d.derivedUnder sheets (before.overlay rules inline) (d.keyFor p)).or
            ((before.overlay rules inline).get? (d.keyFor p)) :=
          get?_expand_of_mem hd (before.overlay rules inline) htarget
      _ = some q := by rw [hwritten, Option.some_or]
  rw [shown?, hget, Option.filter_some_neg (by simp [hundefined])]

/-- **What a cascade shows is settled by what applies now**, as far as the style before does
not withdraw it. -/
theorem shown?_cascade_of_not_withdraws {before' : Declaration}
    (h : ¬before.Withdraws rules inline key) (h' : ¬before'.Withdraws rules inline key) :
    (before.cascade rules inline sheets).shown? key =
      (before'.cascade rules inline sheets).shown? key := by
  have hoverlay := (shown?_overlay before rules inline key).trans
    (shown?_overlay before' rules inline key).symm
  by_cases hkey : (Property.splitKey key).1 ∈ Derivation.targets
  · obtain ⟨d, hd, htarget⟩ := List.mem_map.mp hkey
    have hget : ∀ style : Declaration, (style.cascade rules inline sheets).get? key =
        (d.derivedUnder sheets (style.overlay rules inline) key).or
          ((style.overlay rules inline).get? key) :=
      fun style => get?_expand_of_mem hd (style.overlay rules inline) htarget.symm
    rw [shown?, shown?, hget, hget, derivedUnder_overlay_eq hd h h']
    cases d.derivedUnder sheets (before'.overlay rules inline) key with
    | some q => rfl
    | none => exact hoverlay
  · have hget : ∀ style : Declaration, (style.cascade rules inline sheets).get? key =
        (style.overlay rules inline).get? key :=
      fun style => get?_expand_of_ne (style.overlay rules inline) hkey
    rw [shown?, shown?, hget, hget]
    exact hoverlay

/-- **What a cascade shows does not depend on the style before**, but for derived properties
whose source the style before has and nothing sets any more: these are not shown. -/
theorem shown?_cascade_congr (before before' : Declaration) (rules : List MatchedRule)
    (inline : Declaration) (sheets : SheetStack) (key : String) :
    (¬before.Withdraws rules inline key → ¬before'.Withdraws rules inline key →
      (before.cascade rules inline sheets).shown? key =
        (before'.cascade rules inline sheets).shown? key) ∧
    (before.Withdraws rules inline key →
      (before.cascade rules inline sheets).shown? key = none) :=
  ⟨shown?_cascade_of_not_withdraws, shown?_cascade_of_withdraws⟩

/-- A style that shows a font. -/
def serifStyle : Declaration :=
  .ofList [{ name := "fontFamily", value := some (.string "serif") },
    { name := "color", value := some (.string "red") }]

/-- A rule that matches at once and sets one property. -/
def settingRule (name value : String) : MatchedRule where
  rule :=
    { selectors := [⟨⟨.element, "text", none⟩, []⟩]
      declaration := .ofList [{ name, value := some (.string value) }]
      text := "text"
      order := 0 }
  specificity := 1

/-- Under a rule that sets another font, the description shown is the same as from scratch. -/
theorem shown?_cascade_congr_serifStyle :
    ¬serifStyle.Withdraws [settingRule "fontFamily" "mono"] .empty "fontFamilyDesc" ∧
      ¬empty.Withdraws [settingRule "fontFamily" "mono"] .empty "fontFamilyDesc" ∧
      (serifStyle.cascade [settingRule "fontFamily" "mono"] .empty {}).shown? "fontFamilyDesc" =
        (empty.cascade [settingRule "fontFamily" "mono"] .empty {}).shown? "fontFamilyDesc" := by
  have hserif : ¬serifStyle.Withdraws [settingRule "fontFamily" "mono"] .empty
      "fontFamilyDesc" := by decide
  have hempty : ¬empty.Withdraws [settingRule "fontFamily" "mono"] .empty
      "fontFamilyDesc" := by decide
  exact ⟨hserif, hempty, (shown?_cascade_congr _ _ _ _ _ _).1 hserif hempty⟩

/-- Under a rule that sets the description itself, the font shown before hides it. -/
theorem shown?_cascade_ne_serifStyle :
    (serifStyle.cascade [settingRule "fontFamilyDesc" "plain"] .empty {}).shown?
        "fontFamilyDesc" = none ∧
      (empty.cascade [settingRule "fontFamilyDesc" "plain"] .empty {}).shown?
        "fontFamilyDesc" = some { name := "fontFamilyDesc", value := some (.string "plain") } := by
  constructor
  · exact shown?_cascade_of_withdraws (by decide)
  · rfl

end Declaration
end StyleCascade
