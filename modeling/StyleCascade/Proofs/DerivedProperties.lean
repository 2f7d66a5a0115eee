import Mathlib.Data.List.Perm.Subperm
import StyleCascade.Derived
import StyleCascade.Proofs.LastWrite
import StyleCascade.Proofs.Pieces

/-!
# What derivations change

A derivation reads the entries of one property name and writes entries of another.
No name that is written is ever read (`Derivation.source_notMem_targets`), so expanding a
declaration leaves every other entry alone (`Declaration.get?_expand_of_ne`), and what
it writes is settled by the entries that it reads (`Declaration.get?_expand_congr`).  A
derived key has one derivation that writes it (`Declaration.get?_expand_of_mem`).
-/
namespace StyleCascade

/-! ## Keys and names -/

namespace Property

/-- The key of a property whose name holds no colon gives its name and state back. -/
theorem splitKey_key {p : Property} (h : ':' ∉ p.name.toList) :
    splitKey p.key = (p.name, p.state) := by
  cases hs : p.state with
  | none => rw [key, hs, splitKey, Text.cutAt_of_notMem h]
  | some state =>
    have htext : (p.name ++ ":" ++ state).toList = p.name.toList ++ ':' :: state.toList := by
      rw [String.toList_append, String.toList_append, List.append_assoc]
      rfl
    rw [key, hs]
    simp only [splitKey, htext]
    rw [Text.cutAt_append_cons h]
    simp

/-- A key without a state is not the key of a property that has one. -/
theorem splitKey_key_snd_ne_none {p : Property} (h : p.state ≠ none) :
    (splitKey p.key).2 ≠ none := by
  obtain ⟨state, hs⟩ := Option.ne_none_iff_exists'.mp h
  have hmem : ':' ∈ p.key.toList := by
    rw [key, hs, String.toList_append, String.toList_append]
    simp
  rw [splitKey, Text.cutAt, if_pos hmem]
  exact Option.some_ne_none _

end Property

namespace Derivation

/-- The names of derived properties. -/
def targets : List String := all.map target

theorem colon_notMem_source {d : Derivation} (h : d ∈ all) : ':' ∉ d.source.toList := by
  simp only [all, List.mem_cons, List.not_mem_nil, or_false] at h
  rcases h with rfl | rfl | rfl <;> decide

theorem colon_notMem_target {d : Derivation} (h : d ∈ all) : ':' ∉ d.target.toList := by
  simp only [all, List.mem_cons, List.not_mem_nil, or_false] at h
  rcases h with rfl | rfl | rfl <;> decide

/-- No derivation reads what one of them writes. -/
theorem source_notMem_targets {d : Derivation} (h : d ∈ all) : d.source ∉ targets := by
  simp only [all, List.mem_cons, List.not_mem_nil, or_false] at h
  rcases h with rfl | rfl | rfl <;> decide

/-! ## One derivation -/

variable {d : Derivation} {sheets : SheetStack}

theorem derive?_eq_some {p q : Property} (h : d.derive? sheets p = some q) :
    p.name = d.source ∧ q.name = d.target ∧ q.state = p.state := by
  rw [derive?] at h
  split at h
  · rename_i hname
    split at h
    · exact ⟨hname, by rw [← Option.some.inj h], by rw [← Option.some.inj h]⟩
    · exact ⟨hname, by rw [← Option.some.inj h], by rw [← Option.some.inj h]⟩
    · cases h
  · cases h

theorem splitKey_key_of_derive? (hd : d ∈ all) {p q : Property}
    (h : d.derive? sheets p = some q) : Property.splitKey q.key = (d.target, p.state) := by
  obtain ⟨-, htarget, hstate⟩ := derive?_eq_some h
  rw [Property.splitKey_key (by rw [htarget]; exact colon_notMem_target hd), htarget, hstate]

theorem splitKey_key_of_source (hd : d ∈ all) {p : Property} (h : p.name = d.source) :
    Property.splitKey p.key = (d.source, p.state) := by
  rw [Property.splitKey_key (by rw [h]; exact colon_notMem_source hd), h]

/-- The entry that a derivation writes under a key. -/
def derivedUnder (d : Derivation) (sheets : SheetStack) (style : Declaration) (key : String) :
    Option Property :=
  Keyed.lastUnder Property.key key (style.properties.filterMap (d.derive? sheets))

theorem get?_apply (d : Derivation) (sheets : SheetStack) (style : Declaration) (key : String) :
    (d.apply sheets style).get? key = (d.derivedUnder sheets style key).or (style.get? key) :=
  Declaration.get?_insertAll style _ key

theorem derivedUnder_eq_none (hd : d ∈ all) {style : Declaration} {key : String}
    (h : (Property.splitKey key).1 ≠ d.target) : d.derivedUnder sheets style key = none := by
  refine Keyed.lastUnder_eq_none Property.key ?_
  intro q hq he
  obtain ⟨p, -, hp⟩ := List.mem_filterMap.mp hq
  rw [← he, splitKey_key_of_derive? hd hp] at h
  exact h rfl

/-- The entry written under a key comes from the one source entry of the same state. -/
theorem derivedUnder_eq_some_iff (hd : d ∈ all) {style : Declaration} {key : String}
    {q : Property} : d.derivedUnder sheets style key = some q ↔
      ∃ p, style.get? p.key = some p ∧ d.derive? sheets p = some q ∧ q.key = key := by
  constructor
  · intro h
    obtain ⟨hmem, hkey⟩ := Keyed.mem_of_lastUnder Property.key h
    obtain ⟨p, hp, hq⟩ := List.mem_filterMap.mp hmem
    exact ⟨p, Declaration.get?_of_mem hp, hq, hkey⟩
  · rintro ⟨p, hp, hq, rfl⟩
    have hmem : p ∈ style.properties := (Keyed.mem_of_lookup Property.key hp).1
    refine Keyed.lastUnder_eq_of_mem Property.key (List.mem_filterMap.mpr ⟨p, hmem, hq⟩) ?_
    intro r hr hkey
    obtain ⟨p', hp', hr'⟩ := List.mem_filterMap.mp hr
    -- Equal target keys mean equal states, hence equal source keys and one source entry.
    have hstate : p'.state = p.state := by
      have h := splitKey_key_of_derive? hd hr'
      rw [hkey, splitKey_key_of_derive? hd hq] at h
      exact (congrArg Prod.snd h).symm
    have hname : p'.name = p.name :=
      (derive?_eq_some hr').1.trans (derive?_eq_some hq).1.symm
    have hpp : p'.key = p.key := by rw [Property.key, Property.key, hname, hstate]
    have h := Declaration.get?_of_mem hp'
    rw [hpp, hp] at h
    cases h
    exact Option.some.inj (hr'.symm.trans hq)

/-- A derivation only looks at the entries of its source. -/
theorem derivedUnder_congr (hd : d ∈ all) {style style' : Declaration}
    (h : ∀ key, (Property.splitKey key).1 ∉ targets → style.get? key = style'.get? key)
    (key : String) : d.derivedUnder sheets style key = d.derivedUnder sheets style' key := by
  have hread : ∀ {p q : Property}, d.derive? sheets p = some q →
      style.get? p.key = style'.get? p.key := by
    intro p q hq
    refine h p.key ?_
    rw [splitKey_key_of_source hd (derive?_eq_some hq).1]
    exact source_notMem_targets hd
  refine Option.ext fun q => ?_
  rw [derivedUnder_eq_some_iff hd, derivedUnder_eq_some_iff hd]
  constructor
  · rintro ⟨p, hp, hq, hkey⟩
    exact ⟨p, (hread hq).symm.trans hp, hq, hkey⟩
  · rintro ⟨p, hp, hq, hkey⟩
    exact ⟨p, (hread hq).trans hp, hq, hkey⟩

end Derivation

/-! ## All derivations -/

namespace Declaration
open StyleCascade.Derivation

variable {sheets : SheetStack}

/-- Applying derivations leaves every key alone that is none of their targets. -/
theorem get?_foldl_apply_of_ne {ds : List Derivation} (hds : ∀ d ∈ ds, d ∈ Derivation.all)
    (style : Declaration) {key : String} (h : ∀ d ∈ ds, (Property.splitKey key).1 ≠ d.target) :
    (ds.foldl (fun style d => d.apply sheets style) style).get? key = style.get? key := by
  induction ds generalizing style with
  | nil => rfl
  | cons d rest ih =>
    have hd : d ∈ Derivation.all := hds d List.mem_cons_self
    have hne : (Property.splitKey key).1 ≠ d.target := h d List.mem_cons_self
    rw [List.foldl_cons, ih (fun d' hd' => hds d' (List.mem_cons_of_mem _ hd'))
      _ fun d' hd' => h d' (List.mem_cons_of_mem _ hd'), get?_apply,
      derivedUnder_eq_none hd hne, Option.none_or]

/-- A name that is no target is not the target of any derivation. -/
theorem ne_target_of_notMem {name : String} (h : name ∉ targets) {d : Derivation}
    (hd : d ∈ Derivation.all) : name ≠ d.target := by
  rintro rfl
  exact h (List.mem_map_of_mem hd)

/-- Expanding a declaration leaves every entry alone that is not derived. -/
theorem get?_expand_of_ne (style : Declaration) {key : String}
    (h : (Property.splitKey key).1 ∉ targets) :
    (style.expand sheets).get? key = style.get? key :=
  get?_foldl_apply_of_ne (fun _ hd => hd) style fun _ hd => ne_target_of_notMem h hd

/-- A derived key is written by the one derivation that has it as its target. -/
theorem get?_foldl_apply_of_mem {ds : List Derivation} (hds : ∀ d ∈ ds, d ∈ Derivation.all)
    (hone : (ds.map target).Nodup) {d : Derivation} (hd : d ∈ ds) (style : Declaration)
    {key : String} (h : (Property.splitKey key).1 = d.target) :
    (ds.foldl (fun style d => d.apply sheets style) style).get? key =
      (d.derivedUnder sheets style key).or (style.get? key) := by
  induction ds generalizing style with
  | nil => cases hd
  | cons e rest ih =>
    obtain ⟨hnew, hone⟩ := List.nodup_cons.mp hone
    have he : e ∈ Derivation.all := hds e List.mem_cons_self
    have hrest : ∀ d' ∈ rest, d' ∈ Derivation.all := by
      intro d' hd'
      exact hds d' (List.mem_cons_of_mem _ hd')
    rw [List.foldl_cons]
    rcases List.mem_cons.mp hd with rfl | hd
    · rw [get?_foldl_apply_of_ne hrest, get?_apply]
      intro d' hd' heq
      exact hnew (List.mem_map.mpr ⟨d', hd', heq.symm.trans h⟩)
    · -- The first derivation writes neither the key nor anything that `d` reads.
      have hne : (Property.splitKey key).1 ≠ e.target := by
        intro heq
        exact hnew (List.mem_map.mpr ⟨d, hd, h.symm.trans heq⟩)
      have hread : ∀ k, (Property.splitKey k).1 ∉ targets →
          (e.apply sheets style).get? k = style.get? k := by
        intro k hk
        rw [get?_apply, derivedUnder_eq_none he (ne_target_of_notMem hk he), Option.none_or]
      rw [ih hrest hone hd, derivedUnder_congr (hrest d hd) hread, get?_apply,
        derivedUnder_eq_none he hne, Option.none_or]

/-- **The entry of a derived key** is what its derivation writes there, or else what was there
before. -/
theorem get?_expand_of_mem {d : Derivation} (hd : d ∈ Derivation.all) (style : Declaration)
    {key : String} (h : (Property.splitKey key).1 = d.target) :
    (style.expand sheets).get? key = (d.derivedUnder sheets style key).or (style.get? key) :=
  get?_foldl_apply_of_mem (fun _ hd => hd) (by decide) hd style h

theorem keys_prefix_foldl_apply (ds : List Derivation) (style : Declaration) :
    style.keys <+: (ds.foldl (fun style d => d.apply sheets style) style).keys := by
  induction ds generalizing style with
  | nil => exact List.prefix_refl _
  | cons d rest ih =>
    exact (keys_prefix_insertAll style _).trans (ih (d.apply sheets style))

theorem keys_prefix_expand (style : Declaration) :
    style.keys <+: (style.expand sheets).keys :=
  keys_prefix_foldl_apply Derivation.all style

theorem get?_foldl_apply_congr {ds : List Derivation} (hds : ∀ d ∈ ds, d ∈ Derivation.all)
    {style style' : Declaration}
    (h : ∀ key, (Property.splitKey key).1 ∉ targets → style.get? key = style'.get? key)
    (key : String) :
    let expanded := ds.foldl (fun style d => d.apply sheets style) style
    let expanded' := ds.foldl (fun style d => d.apply sheets style) style'
    expanded.get? key = expanded'.get? key ∨
      (expanded.get? key = style.get? key ∧ expanded'.get? key = style'.get? key) := by
  induction ds generalizing style style' with
  | nil => exact Or.inr ⟨rfl, rfl⟩
  | cons d rest ih =>
    have hd : d ∈ Derivation.all := hds d List.mem_cons_self
    have hrest : ∀ d' ∈ rest, d' ∈ Derivation.all :=
      fun d' hd' => hds d' (List.mem_cons_of_mem _ hd')
    have hkeep : ∀ (s : Declaration) (k : String), (Property.splitKey k).1 ∉ targets →
        (d.apply sheets s).get? k = s.get? k := by
      intro s k hk
      rw [get?_apply, derivedUnder_eq_none hd (ne_target_of_notMem hk hd), Option.none_or]
    have happly : ∀ k, (Property.splitKey k).1 ∉ targets →
        (d.apply sheets style).get? k = (d.apply sheets style').get? k :=
      fun k hk => by rw [hkeep style k hk, hkeep style' k hk, h k hk]
    rcases ih hrest happly with heq | ⟨hleft, hright⟩
    · exact Or.inl heq
    · rw [get?_apply] at hleft hright
      rw [← derivedUnder_congr hd h key] at hright
      cases hnew : d.derivedUnder sheets style key with
      | none =>
        rw [hnew, Option.none_or] at hleft hright
        exact Or.inr ⟨hleft, hright⟩
      | some q =>
        rw [hnew] at hleft hright
        exact Or.inl (hleft.trans hright.symm)

/-- Two declarations that agree on everything that is not derived are expanded alike: an
entry either is derived, and then the same in both, or is left as it was in both. -/
theorem get?_expand_congr (sheets : SheetStack) {style style' : Declaration}
    (h : ∀ key, (Property.splitKey key).1 ∉ targets → style.get? key = style'.get? key)
    (key : String) :
    (style.expand sheets).get? key = (style'.expand sheets).get? key ∨
      ((style.expand sheets).get? key = style.get? key ∧
        (style'.expand sheets).get? key = style'.get? key) :=
  get?_foldl_apply_congr (fun _ hd => hd) h key

end Declaration
end StyleCascade
