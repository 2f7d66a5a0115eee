import Mathlib.Data.List.Nodup
import StyleCascade.Proofs.Descriptions
import StyleCascade.Proofs.PreviousStyle

/-!
# What expanding a declaration leaves behind

Expanding goes through the declaration once for each derivation, and each time edits what it reads.
No pass writes what another one reads, so all of them together write what the derivations give for
the declaration as it was at the start (`Declaration.expand_eq_insertAll`).  No two of these
properties share a key (`Declaration.nodup_derivedKeys`).  So the keys that were there keep their
places and the new ones follow them, and expanding again changes nothing
(`Declaration.entries_expand`).
-/
namespace StyleCascade

/-! ## Writes under different keys -/

namespace Keyed

variable {α κ : Type} [DecidableEq κ] (key : α → κ)

/-- Entries of pairwise different keys leave the old keys in front, and put the new ones behind
them in the order in which they are written. -/
theorem map_key_upsertAll_of_nodup {entries added : List α} (h : (added.map key).Nodup) :
    (upsertAll key entries added).map key =
      entries.map key ++ (added.map key).filter (· ∉ entries.map key) := by
  induction added generalizing entries with
  | nil => exact (List.append_nil _).symm
  | cons a rest ih =>
    obtain ⟨hnew, hrest⟩ := List.nodup_cons.mp h
    rw [upsertAll_cons, ih hrest, map_key_upsert, List.map_cons]
    split
    · rename_i hmem
      rw [List.filter_cons_of_neg (by simpa using hmem)]
    · rename_i hnot
      have hsame : (rest.map key).filter (· ∉ entries.map key ++ [key a]) =
          (rest.map key).filter (· ∉ entries.map key) := by
        refine List.filter_congr fun k hk => ?_
        have hne : k ≠ key a := fun heq => hnew (heq ▸ hk)
        simp [hne]
      rw [List.filter_cons_of_pos (by simpa using hnot), hsame, List.append_assoc]
      rfl

end Keyed

namespace Declaration

theorem keys_insertAll_of_nodup (style : Declaration) {ps : List Property}
    (h : (ps.map Property.key).Nodup) :
    (style.insertAll ps).keys =
      style.keys ++ (ps.map Property.key).filter (· ∉ style.keys) := by
  rw [keys, properties_insertAll]
  exact Keyed.map_key_upsertAll_of_nodup Property.key h

/-- The same writes once more change nothing. -/
theorem insertAll_insertAll (style : Declaration) {ps : List Property}
    (h : (ps.map Property.key).Nodup) : (style.insertAll ps).insertAll ps = style.insertAll ps := by
  have hthere : (ps.map Property.key).filter (· ∉ (style.insertAll ps).keys) = [] := by
    refine List.filter_eq_nil_iff.mpr fun key hkey => ?_
    have hmem : key ∈ (style.insertAll ps).keys := by
      rw [keys, properties_insertAll]
      exact (Keyed.mem_map_key_upsertAll Property.key).mpr (.inr hkey)
    simpa using hmem
  refine eq_of_get? ?_ fun key => ?_
  · rw [keys_insertAll_of_nodup _ h, hthere, List.append_nil]
  · rw [get?_insertAll, get?_insertAll]
    cases Keyed.lastUnder Property.key key ps <;> rfl

end Declaration

/-! ## Derived keys -/

/-- Whether the value is a text, or there is none. -/
def Property.isNaming (p : Property) : Bool :=
  match p.value with
  | none | some (.string _) => true
  | _ => false

namespace Derivation

variable {d d' : Derivation} {sheets : SheetStack} {p p' : Property} {style : Declaration}

theorem splitKey_keyFor (hd : d ∈ all) (p : Property) :
    Property.splitKey (d.keyFor p) = (d.target, p.state) :=
  Property.splitKey_key (colon_notMem_target hd)

theorem eq_of_target_eq (hd : d ∈ all) (hd' : d' ∈ all) (h : d.target = d'.target) : d = d' :=
  List.inj_on_of_nodup_map (by decide : (all.map target).Nodup) hd hd' h

/-- What is derived under one key comes from one derivation of one property. -/
theorem eq_of_keyFor_eq (hd : d ∈ all) (hd' : d' ∈ all) (hp : p ∈ style.properties)
    (hp' : p' ∈ style.properties) (hname : p.name = d.source) (hname' : p'.name = d'.source)
    (h : d.keyFor p = d'.keyFor p') : d = d' ∧ p = p' := by
  have hsplit := congrArg Property.splitKey h
  rw [splitKey_keyFor hd, splitKey_keyFor hd', Prod.mk.injEq] at hsplit
  obtain rfl := eq_of_target_eq hd hd' hsplit.1
  have hkey : p.key = p'.key := by
    rw [Property.key, Property.key, hname, hname', hsplit.2]
  exact ⟨rfl, List.inj_on_of_nodup_map style.distinct hp hp' hkey⟩

theorem isSome_derive? (d : Derivation) (sheets : SheetStack) (p : Property) :
    (d.derive? sheets p).isSome = (decide (p.name = d.source) && p.isNaming) := by
  rw [derive?, Property.isNaming]
  by_cases hname : p.name = d.source
  · rw [if_pos hname, decide_eq_true hname]
    split <;> simp_all
  · rw [if_neg hname, decide_eq_false hname]
    rfl

/-- What is derived from a source, or else what stands there. -/
theorem derive?_or (hname : p.name = d.source) (before : Option Property) :
    (d.derive? sheets p).or before =
      match p.value with
      | some (.string names) => some { p with
          name := d.target, value := some (.array (sheets.describeAll d.kind names)) }
      | none => some { p with name := d.target, value := none }
      | some _ => before := by
  obtain ⟨name, state, value, disabled⟩ := p
  rw [derive?, if_pos hname]
  cases value with
  | none => rfl
  | some value => cases value <;> rfl

/-- The keys that one derivation writes, in the order of their sources. -/
theorem map_key_filterMap_derive? (d : Derivation) (sheets : SheetStack) (ps : List Property) :
    (ps.filterMap (d.derive? sheets)).map Property.key =
      (ps.filter fun p => p.name = d.source && p.isNaming).map d.keyFor := by
  induction ps with
  | nil => rfl
  | cons p rest ih =>
    have hsome := d.isSome_derive? sheets p
    cases hq : d.derive? sheets p with
    | none =>
      rw [hq] at hsome
      rw [List.filterMap_cons_none hq, ih, List.filter_cons_of_neg (by simp [← hsome])]
    | some q =>
      rw [hq] at hsome
      rw [List.filterMap_cons_some hq, List.map_cons, ih,
        List.filter_cons_of_pos (by simp [← hsome]), List.map_cons, key_of_derive? hq]

end Derivation

namespace Declaration
open StyleCascade.Derivation

variable {style : Declaration} {sheets : SheetStack}

/-- The properties that the derivations give for a declaration, one derivation after the other. -/
def derived (style : Declaration) (sheets : SheetStack) : List Property :=
  Derivation.all.flatMap fun d => style.properties.filterMap (d.derive? sheets)

/-- The keys of derived properties: for each derivation, those of the same states as the properties
that have the name of its source and a text as their value, or none. -/
def derivedKeys (style : Declaration) : List String :=
  Derivation.all.flatMap fun d =>
    (style.properties.filter fun p => p.name = d.source && p.isNaming).map d.keyFor

theorem map_key_derived (style : Declaration) (sheets : SheetStack) :
    (style.derived sheets).map Property.key = style.derivedKeys := by
  rw [derived, derivedKeys, List.map_flatMap]
  exact List.flatMap_congr fun d _ => d.map_key_filterMap_derive? sheets style.properties

/-- No two derived properties share a key. -/
theorem nodup_derivedKeys (style : Declaration) : style.derivedKeys.Nodup := by
  have hsource : ∀ {d : Derivation} {p : Property},
      p ∈ style.properties.filter (fun p => p.name = d.source && p.isNaming) →
        p ∈ style.properties ∧ p.name = d.source := by
    intro d p hp
    obtain ⟨hmem, htest⟩ := List.mem_filter.mp hp
    exact ⟨hmem, of_decide_eq_true (Bool.and_eq_true_iff.mp htest).1⟩
  refine List.nodup_flatMap.mpr ⟨fun d hd => ?_, ?_⟩
  · have hdistinct : (style.properties.filter fun p => p.name = d.source && p.isNaming).Nodup :=
      (List.Nodup.of_map Property.key style.distinct).filter _
    refine hdistinct.map_on fun p hp q hq heq => ?_
    exact (eq_of_keyFor_eq hd hd (hsource hp).1 (hsource hq).1 (hsource hp).2 (hsource hq).2 heq).2
  · have hall : Derivation.all.Nodup := by decide
    refine hall.pairwise_of_forall_ne fun d hd d' hd' hne key hkey hkey' => ?_
    obtain ⟨p, hp, rfl⟩ := List.mem_map.mp hkey
    obtain ⟨p', hp', heq⟩ := List.mem_map.mp hkey'
    exact hne (eq_of_keyFor_eq hd hd' (hsource hp).1 (hsource hp').1 (hsource hp).2 (hsource hp').2
      heq.symm).1

/-! ## All passes at once -/

/-- A derivation reads the same before and after derived properties have been written. -/
theorem filterMap_derive?_insertAll {d : Derivation} (hd : d ∈ Derivation.all)
    (style : Declaration) {ps : List Property}
    (hps : ∀ q ∈ ps, (Property.splitKey q.key).1 ∈ targets) :
    (style.insertAll ps).properties.filterMap (d.derive? sheets) =
      style.properties.filterMap (d.derive? sheets) := by
  have hread : ∀ l : List Property, l.filterMap (d.derive? sheets) =
      (l.filter (·.name = d.source)).filterMap (d.derive? sheets) := by
    intro l
    rw [List.filterMap_filter]
    refine List.filterMap_congr fun p _ => ?_
    split
    · rfl
    · rename_i hname
      rw [derive?, if_neg (by simpa using hname)]
  rw [hread, hread style.properties, properties_insertAll,
    Keyed.filter_upsertAll_of_false Property.key]
  intro q hq p hkey
  refine decide_eq_false fun hname => source_notMem_targets hd ?_
  have htarget := hps q hq
  rwa [← hkey, splitKey_key_of_source hd hname] at htarget

theorem splitKey_mem_targets {d : Derivation} (hd : d ∈ Derivation.all) {q : Property}
    (hq : q ∈ style.properties.filterMap (d.derive? sheets)) :
    (Property.splitKey q.key).1 ∈ targets := by
  obtain ⟨p, -, hp⟩ := List.mem_filterMap.mp hq
  rw [splitKey_key_of_derive? hd hp]
  exact List.mem_map_of_mem hd

theorem foldl_apply_eq_insertAll {ds : List Derivation} (hds : ∀ d ∈ ds, d ∈ Derivation.all)
    (style : Declaration) :
    ds.foldl (fun style d => d.apply sheets style) style =
      style.insertAll (ds.flatMap fun d => style.properties.filterMap (d.derive? sheets)) := by
  induction ds generalizing style with
  | nil => rfl
  | cons d rest ih =>
    have hd : d ∈ Derivation.all := hds d List.mem_cons_self
    have hrest : ∀ d' ∈ rest, d' ∈ Derivation.all :=
      fun d' hd' => hds d' (List.mem_cons_of_mem _ hd')
    have hsame : (rest.flatMap fun d' => (d.apply sheets style).properties.filterMap
          (d'.derive? sheets)) =
        rest.flatMap fun d' => style.properties.filterMap (d'.derive? sheets) :=
      List.flatMap_congr fun d' hd' =>
        filterMap_derive?_insertAll (hrest d' hd') style fun _ => splitKey_mem_targets hd
    rw [List.foldl_cons, ih hrest, hsame, List.flatMap_cons]
    exact List.foldl_append.symm

/-- **Expanding writes what the derivations give at the start.** -/
theorem expand_eq_insertAll (style : Declaration) (sheets : SheetStack) :
    style.expand sheets = style.insertAll (style.derived sheets) :=
  foldl_apply_eq_insertAll (fun _ hd => hd) style

theorem derived_expand (style : Declaration) (sheets : SheetStack) :
    (style.expand sheets).derived sheets = style.derived sheets := by
  rw [expand_eq_insertAll]
  refine List.flatMap_congr fun d hd => filterMap_derive?_insertAll hd style fun q hq => ?_
  obtain ⟨d', hd', hq⟩ := List.mem_flatMap.mp hq
  exact splitKey_mem_targets hd' hq

/-- Expanding a declaration leaves an entry alone that no property of it derives. -/
theorem get?_expand_of_not_derived {key : String}
    (h : ∀ p ∈ style.properties, ∀ d ∈ Derivation.all, ∀ q, d.derive? sheets p = some q →
      q.key ≠ key) : (style.expand sheets).get? key = style.get? key := by
  have hnone : Keyed.lastUnder Property.key key (style.derived sheets) = none := by
    refine Keyed.lastUnder_eq_none Property.key fun q hq => ?_
    obtain ⟨d, hd, hq⟩ := List.mem_flatMap.mp hq
    obtain ⟨p, hp, hq⟩ := List.mem_filterMap.mp hq
    exact h p hp d hd q hq
  rw [expand_eq_insertAll, get?_insertAll, hnone, Option.none_or]

/-- Expanding a declaration without sources leaves it alone. -/
theorem expand_eq_self (h : ∀ p ∈ style.properties, ∀ d ∈ Derivation.all, p.name ≠ d.source) :
    style.expand sheets = style := by
  have hnone : style.derived sheets = [] := by
    refine List.flatMap_eq_nil_iff.mpr fun d hd => List.filterMap_eq_nil_iff.mpr fun p hp => ?_
    rw [derive?, if_neg (h p hp d hd)]
  rw [expand_eq_insertAll, hnone]
  rfl

/-- The entry that is derived from a property, or else what was there before. -/
theorem get?_expand_keyFor {d : Derivation} (hd : d ∈ Derivation.all) {p : Property}
    (hp : p ∈ style.properties) (hname : p.name = d.source) :
    (style.expand sheets).get? (d.keyFor p) =
      (d.derive? sheets p).or (style.get? (d.keyFor p)) := by
  have hunder : d.derivedUnder sheets style (d.keyFor p) = d.derive? sheets p := by
    refine Option.ext fun q => ?_
    rw [derivedUnder_eq_some_iff hd]
    constructor
    · rintro ⟨p', hp', hq, hkey⟩
      have hmem : p' ∈ style.properties := (Keyed.mem_of_lookup Property.key hp').1
      rw [key_of_derive? hq] at hkey
      obtain ⟨-, rfl⟩ := eq_of_keyFor_eq hd hd hmem hp (derive?_eq_some hq).1 hname hkey
      exact hq
    · exact fun hq => ⟨p, get?_of_mem hp, hq, key_of_derive? hq⟩
  rw [get?_expand_of_mem hd style (by rw [splitKey_keyFor hd]), hunder]

/-- From a text a list is derived, which holds what the names in the text stand for. -/
theorem exists_described_expand {d : Derivation} (hd : d ∈ Derivation.all) {p : Property}
    (hp : p ∈ style.properties) (hname : p.name = d.source) {text : String}
    (hvalue : p.value = some (.string text)) {names : List String}
    (hnames : Text.nameList text.toList = names.map String.toList) (sheets : SheetStack) :
    ∃ described, List.Forall₂ (sheets.DescribedBy d.kind) names described ∧
      (style.expand sheets).get? (d.keyFor p) =
        some { p with name := d.target, value := some (.array described.flatten) } := by
  obtain ⟨described, hall, heq⟩ := sheets.exists_describeAll_eq d.kind hnames
  refine ⟨described, hall, ?_⟩
  rw [get?_expand_keyFor hd hp hname, derive?_or hname, hvalue, ← heq]

/-- **What expanding a declaration leaves behind.**  Beside each source property there stands, under
its state and with its mark of being disabled, a property that holds what all its names stand for
if its value is a text, and is undefined if it is; for any other value there stands what stood
there before.  All other entries are as before.  The keys that were there keep their places, and
new derived keys follow them.  Expanding again changes nothing. -/
theorem entries_expand (style : Declaration) (sheets : SheetStack) :
    (∀ d ∈ Derivation.all, ∀ p ∈ style.properties, p.name = d.source →
      match p.value with
      | some (.string text) =>
        ∃ described, List.Forall₂ (sheets.DescribedBy d.kind)
            ((Text.nameList text.toList).map String.ofList) described ∧
          (style.expand sheets).get? (d.keyFor p) =
            some { p with name := d.target, value := some (.array described.flatten) }
      | none => (style.expand sheets).get? (d.keyFor p) =
          some { p with name := d.target, value := none }
      | some _ => (style.expand sheets).get? (d.keyFor p) = style.get? (d.keyFor p)) ∧
      (∀ key, (∀ d ∈ Derivation.all, ∀ p ∈ style.properties, p.name = d.source →
          p.isNaming = true → d.keyFor p ≠ key) →
        (style.expand sheets).get? key = style.get? key) ∧
      (style.expand sheets).keys = style.keys ++ style.derivedKeys.filter (· ∉ style.keys) ∧
      (style.expand sheets).expand sheets = style.expand sheets := by
  have hdistinct : ((style.derived sheets).map Property.key).Nodup := by
    rw [map_key_derived]
    exact style.nodup_derivedKeys
  refine ⟨fun d hd p hp hname => ?_, fun key hkey => ?_, ?_, ?_⟩
  · split
    · rename_i text hvalue
      exact exists_described_expand hd hp hname hvalue (by simp) sheets
    · rename_i hvalue
      rw [get?_expand_keyFor hd hp hname, derive?_or hname, hvalue]
    · rename_i value hnot hvalue
      rw [get?_expand_keyFor hd hp hname, derive?_or hname, hvalue]
      cases value with
      | string text => exact (hnot text rfl).elim
      | _ => rfl
  · refine get?_expand_of_not_derived fun p hp d hd q hq => ?_
    have hsome := d.isSome_derive? sheets p
    rw [hq, Option.isSome_some, eq_comm, Bool.and_eq_true_iff] at hsome
    rw [key_of_derive? hq]
    exact hkey d hd p hp (of_decide_eq_true hsome.1) hsome.2
  · rw [expand_eq_insertAll, keys_insertAll_of_nodup style hdistinct, map_key_derived]
  · rw [expand_eq_insertAll (style.expand sheets), derived_expand, expand_eq_insertAll,
      insertAll_insertAll style hdistinct]

/-- An animation that both sheets describe, the higher one as `new`, and a font that only the lower
one does. -/
def describingSheets : SheetStack where
  document := [
    { rules := [
        .keyframes [("fade", .array [.string "old"])],
        .fontFace [("serif", .object [("src", .string "serif.ttf")])]] },
    { rules := [.keyframes [("fade", .array [.string "new"])]] }]

/-- A list of fonts that is described already, one that is undefined in a state, a list of
animations, and an animation whose name is no text. -/
def fontSample : Declaration :=
  .ofList [
    { name := "fontFamilyDesc", value := some (.string "old") },
    { name := "fontFamily", value := some (.string "serif, cursive"), disabled := true },
    { name := "fontFamily", state := some "active" },
    { name := "animationName", value := some (.string "fade, gone") },
    { name := "animationName", state := some "hover", value := some (.bool true) }]

theorem entries_expand_fontSample :
    (fontSample.expand describingSheets).get? "fontFamilyDesc" = some {
        name := "fontFamilyDesc"
        value := some (.array
          [.object [("src", .string "serif.ttf")], .object [("fontName", .string "cursive")]])
        disabled := true } ∧
      (fontSample.expand describingSheets).get? "fontFamilyDesc:active" =
        some { name := "fontFamilyDesc", state := some "active" } ∧
      (fontSample.expand describingSheets).get? "animationKeyframes" = some {
        name := "animationKeyframes"
        value := some (.array [.string "new", .object [("animationName", .string "fade")]]) } ∧
      (fontSample.expand describingSheets).get? "animationKeyframes:hover" = none ∧
      (fontSample.expand describingSheets).keys = ["fontFamilyDesc", "fontFamily",
        "fontFamily:active", "animationName", "animationName:hover", "animationKeyframes",
        "fontFamilyDesc:active"] := by
  obtain ⟨hderived, -, hkeys, -⟩ := entries_expand fontSample describingSheets
  have hfonts := hderived ⟨"fontFamily", "fontFamilyDesc", .fontFace⟩ (by decide)
  have hanimations := hderived ⟨"animationName", "animationKeyframes", .keyframes⟩ (by decide)
  refine ⟨?_, ?_, ?_, ?_, hkeys⟩
  · obtain ⟨described, hall, heq⟩ := hfonts
      { name := "fontFamily", value := some (.string "serif, cursive"), disabled := true }
      (.tail _ (.head _)) rfl
    obtain rfl := SheetStack.forall₂_describedBy_iff.mp hall
    exact heq
  · exact hfonts { name := "fontFamily", state := some "active" }
      (.tail _ (.tail _ (.head _))) rfl
  · obtain ⟨described, hall, heq⟩ := hanimations
      { name := "animationName", value := some (.string "fade, gone") }
      (.tail _ (.tail _ (.tail _ (.head _)))) rfl
    obtain rfl := SheetStack.forall₂_describedBy_iff.mp hall
    exact heq
  · exact hanimations { name := "animationName", state := some "hover", value := some (.bool true) }
      (.tail _ (.tail _ (.tail _ (.tail _ (.head _))))) rfl

end Declaration
end StyleCascade
