import Mathlib.Data.List.Forall2
import StyleCascade.Derived

/-!
# What names stand for

Key frames and fonts are looked up by name, in the highest sheet that has an entry for the name.
`SheetStack.DescribedBy` says what a name stands for without the look-up: it speaks of the sheets
below and above the one with the entry.  A name stands for one thing only, which is what the
look-up gives (`SheetStack.forall₂_describedBy_iff`).
-/
namespace StyleCascade

/-- What a sheet has for a name in one of its tables. -/
def StyleSheet.entry? (s : StyleSheet) (table? : StyleSheet → Option Table) (name : String) :
    Option Json := do
  let (_, value) ← Keyed.lookup Prod.fst name (← table? s)
  some value

namespace SheetStack

variable {sheets : SheetStack} {name : String}

/-- The highest sheet that has an entry for the name has this one. -/
def HasHighest (sheets : SheetStack) (table? : StyleSheet → Option Table) (name : String)
    (value : Json) : Prop :=
  ∃ lower sheet higher, sheets.sheets = lower ++ sheet :: higher ∧
    sheet.entry? table? name = some value ∧ ∀ s ∈ higher, s.entry? table? name = none

theorem entry?_eq_some_iff {table? : StyleSheet → Option Table} {value : Json} :
    sheets.entry? table? name = some value ↔ sheets.HasHighest table? name value := by
  have hfind : sheets.entry? table? name =
      sheets.sheets.reverse.findSome? fun s => s.entry? table? name := rfl
  rw [hfind, List.findSome?_eq_some_iff]
  constructor
  · rintro ⟨higher, sheet, lower, hsheets, hentry, hnone⟩
    refine ⟨lower.reverse, sheet, higher.reverse, ?_, hentry, fun s hs => ?_⟩
    · rw [← List.reverse_reverse sheets.sheets, hsheets]
      simp
    · exact hnone s (List.mem_reverse.mp hs)
  · rintro ⟨lower, sheet, higher, hsheets, hentry, hnone⟩
    refine ⟨higher.reverse, sheet, lower.reverse, ?_, hentry, fun s hs => ?_⟩
    · rw [hsheets]
      simp
    · exact hnone s (List.mem_reverse.mp hs)

/-- What a name stands for: an animation for the frames that the highest sheet gives it and a
closing entry with its name, or for nothing; a font for its descriptor in the highest sheet that
has one, or else for its name. -/
inductive DescribedBy (sheets : SheetStack) : NameKind → String → List Json → Prop
  | frames {name : String} {frames : List Json}
      (h : sheets.HasHighest StyleSheet.keyframesTable? name (.array frames)) :
      DescribedBy sheets .keyframes name (frames ++ [.object [("animationName", .string name)]])
  | noFrames {name : String}
      (h : ∀ frames, ¬sheets.HasHighest StyleSheet.keyframesTable? name (.array frames)) :
      DescribedBy sheets .keyframes name []
  | font {name : String} {face : Json}
      (h : sheets.HasHighest StyleSheet.fontFaceTable? name face) :
      DescribedBy sheets .fontFace name [face]
  | noFont {name : String} (h : ∀ face, ¬sheets.HasHighest StyleSheet.fontFaceTable? name face) :
      DescribedBy sheets .fontFace name [.object [("fontName", .string name)]]

/-- Every name stands for something. -/
theorem exists_describedBy (sheets : SheetStack) (kind : NameKind) (name : String) :
    ∃ described, sheets.DescribedBy kind name described := by
  cases kind with
  | keyframes =>
    by_cases h : ∃ frames, sheets.HasHighest StyleSheet.keyframesTable? name (.array frames)
    · obtain ⟨frames, hframes⟩ := h
      exact ⟨_, .frames hframes⟩
    · exact ⟨_, .noFrames (not_exists.mp h)⟩
  | fontFace =>
    by_cases h : ∃ face, sheets.HasHighest StyleSheet.fontFaceTable? name face
    · obtain ⟨face, hface⟩ := h
      exact ⟨_, .font hface⟩
    · exact ⟨_, .noFont (not_exists.mp h)⟩

/-- A name stands for what is looked up, and for nothing else. -/
theorem DescribedBy.eq_describe {kind : NameKind} {described : List Json}
    (h : sheets.DescribedBy kind name described) : described = sheets.describe kind name := by
  cases h with
  | frames h =>
    have hentry : sheets.keyframes? name = some _ := entry?_eq_some_iff.mpr h
    rw [describe, hentry]
  | noFrames h =>
    rw [describe]
    split
    · rename_i frames hframes
      exact absurd (entry?_eq_some_iff.mp hframes) (h frames)
    · rfl
  | font h =>
    rw [describe, fontFace, entry?_eq_some_iff.mpr h]
    rfl
  | noFont h =>
    have hnone : sheets.entry? StyleSheet.fontFaceTable? name = none :=
      Option.eq_none_iff_forall_ne_some.mpr fun face hface => h face (entry?_eq_some_iff.mp hface)
    rw [describe, fontFace, hnone]
    rfl

theorem describedBy_describe (sheets : SheetStack) (kind : NameKind) (name : String) :
    sheets.DescribedBy kind name (sheets.describe kind name) := by
  obtain ⟨described, h⟩ := sheets.exists_describedBy kind name
  rwa [h.eq_describe] at h

/-- One by one, names stand for what is looked up for each. -/
theorem forall₂_describedBy_iff {kind : NameKind} {names : List String}
    {described : List (List Json)} :
    List.Forall₂ (sheets.DescribedBy kind) names described ↔
      described = names.map (sheets.describe kind) := by
  constructor
  · intro h
    induction h with
    | nil => rfl
    | cons h _ ih => rw [List.map_cons, h.eq_describe, ih]
  · rintro rfl
    rw [List.forall₂_map_right_iff, List.forall₂_same]
    exact fun name _ => sheets.describedBy_describe kind name

/-- The names of a text stand for what they stand for one by one, in their order. -/
theorem exists_describeAll_eq (sheets : SheetStack) (kind : NameKind) {text : String}
    {names : List String} (h : Text.nameList text.toList = names.map String.toList) :
    ∃ described, List.Forall₂ (sheets.DescribedBy kind) names described ∧
      sheets.describeAll kind text = described.flatten := by
  refine ⟨names.map (sheets.describe kind), forall₂_describedBy_iff.mpr rfl, ?_⟩
  rw [describeAll, h, List.flatMap_map, List.flatMap_def]
  simp

end SheetStack
end StyleCascade
