import StyleCascade.Inspector
import StyleCascade.Proofs.Expansion
import StyleCascade.Proofs.KebabNames
import StyleCascade.Proofs.Pieces
import StyleCascade.Proofs.Restyling
import StyleCascade.Proofs.Runs

/-!
# Shown styles as texts

What an inspector shows of a style can be written out as a style text, with one line for each
property (`InspectedRule.styleText`).  A name is read back from its kebab case
(`Text.CamelWord.camelChars_kebabChars`), a line gives the property that it was written for
(`Property.FitsLine.propertiesOfLine_line`), and so the text gives the style
(`StyleText.parse_styleText`).  Writing it back into the document computes what is derived from
other properties anew, and changes nothing else (`Document.setStyleText_styleText`).
-/
namespace StyleCascade

/-! ## Words in camel case -/

namespace Text

variable {c : Char}

theorem isAlphanum_iff :
    c.isAlphanum = true ↔ (c.isUpper = true ∨ c.isLower = true) ∨ c.isDigit = true :=
  (Bool.or_eq_true _ _).to_iff.trans (or_congr_left (Bool.or_eq_true _ _).to_iff)

theorem isBlank_of_isAlphanum (h : c.isAlphanum = true) : isBlank c = false := by
  rw [isAlphanum_iff, isUpper_iff, isLower_iff, Char.isDigit_iff_toNat] at h
  have hdigits : '0'.toNat = 48 ∧ '9'.toNat = 57 := ⟨rfl, rfl⟩
  simp [isBlank]
  omega

/-- A word in camel case: a small letter, and ASCII letters and digits after it. -/
structure CamelWord (word : List Char) : Prop where
  starts : ∃ c rest, word = c :: rest ∧ c.isLower = true
  alphanum : ∀ c ∈ word, c.isAlphanum = true

namespace CamelWord

variable {word : List Char} (h : CamelWord word)
include h

theorem isAlphanum_or_eq_dash {c : Char} (hc : c ∈ Property.kebabChars word) :
    c.isAlphanum = true ∨ c = '-' := by
  rcases Property.of_mem_kebabChars hc with ⟨hmem, -⟩ | hlower | hdash
  · exact Or.inl (h.alphanum c hmem)
  · exact Or.inl (isAlphanum_iff.mpr (Or.inl (Or.inr hlower)))
  · exact Or.inr hdash

/-- A character that no word has is not in its kebab case. -/
theorem notMem_kebabChars {c : Char} (hc : c.isAlphanum = false) (hdash : c ≠ '-') :
    c ∉ Property.kebabChars word := by
  intro hmem
  rcases h.isAlphanum_or_eq_dash hmem with hyes | heq
  · rw [hc] at hyes
    cases hyes
  · exact hdash heq

theorem kebabChars_ne_nil : Property.kebabChars word ≠ [] := by
  obtain ⟨c, rest, rfl, -⟩ := h.starts
  rw [Property.kebabChars, List.flatMap_cons]
  split <;> simp

theorem trimmed_kebabChars : Trimmed (Property.kebabChars word) := by
  refine .of_forall h.kebabChars_ne_nil fun c hc => ?_
  rcases h.isAlphanum_or_eq_dash hc with hyes | rfl
  · exact isBlank_of_isAlphanum hyes
  · rfl

theorem camelCased : Property.CamelCased word := by
  refine ⟨?_, fun hdash => ?_⟩
  · obtain ⟨c, rest, rfl, hlower⟩ := h.starts
    exact isUpper_eq_false_of_isLower hlower
  · have hno := h.alphanum '-' hdash
    cases hno

theorem camelChars_kebabChars : Property.camelChars (Property.kebabChars word) = word :=
  h.camelCased.camelChars_kebabChars

end CamelWord
end Text

/-! ## Lines -/

/-- The line for a shown property; it stands between comment marks if the property is disabled. -/
def InspectedProperty.line (p : InspectedProperty) : List Char :=
  let pair := p.name.toList ++ ':' :: ' ' :: (p.value.toList ++ [';'])
  if p.disabled then ['/', '*', ' '] ++ (pair ++ [' ', '*', '/']) else pair

/-- The style text for a shown rule, with one line for each property. -/
def InspectedRule.styleText (r : InspectedRule) : String :=
  String.ofList (['\n'].intercalate (r.style.map (·.line)))

/-- A property that a line can hold: its name is a word in camel case without a state, and its
value a text without semicolons, line feeds and blanks around it. -/
structure Property.FitsLine (p : Property) : Prop where
  state : p.state = none
  name : Text.CamelWord p.name.toList
  value : ∃ text, p.value = some (.string text) ∧ Text.Trimmed text.toList ∧
    ';' ∉ text.toList ∧ '\n' ∉ text.toList

namespace StyleText

open Text

/-- **A pair is read back**, with blanks around it or without. -/
theorem filterMap_propertyOfFragment? {name value before after : List Char}
    (hname : Trimmed name) (hcolon : ':' ∉ name) (hvalue : Trimmed value)
    (hsemicolon : ';' ∉ name ∧ ';' ∉ value) (hbefore : ∀ c ∈ before, c = ' ')
    (hafter : ∀ c ∈ after, c = ' ') (disabled : Bool) :
    ((before ++ (name ++ ':' :: ' ' :: (value ++ ';' :: after))).splitOn ';').filterMap
      (propertyOfFragment? disabled) = [Declaration.edited name value disabled] := by
  have hblank : ∀ {blanks : List Char}, (∀ c ∈ blanks, c = ' ') → ∀ c ∈ blanks, isBlank c := by
    rintro blanks h c hc
    rw [h c hc]
    rfl
  have hnone : ∀ {blanks : List Char}, (∀ c ∈ blanks, c = ' ') → ';' ∉ blanks := by
    intro blanks h hmem
    have hspace := h ';' hmem
    cases hspace
  -- The semicolon cuts the pair off, and what is behind it is blank.
  have hpieces : (before ++ (name ++ ':' :: ' ' :: (value ++ ';' :: after))).splitOn ';' =
      [before ++ (name ++ ([':', ' '] ++ value)), after] := by
    have hfront : ';' ∉ before ++ (name ++ ([':', ' '] ++ value)) := by
      simp [hnone hbefore, hsemicolon]
    have htext : before ++ (name ++ ':' :: ' ' :: (value ++ ';' :: after)) =
        (before ++ (name ++ ([':', ' '] ++ value))) ++ ';' :: after := by
      simp
    rw [htext, List.splitOn_append_cons_self, List.splitOn_eq_singleton hfront,
      List.splitOn_eq_singleton (hnone hafter)]
    rfl
  have hpair : propertyOfFragment? disabled (before ++ (name ++ ([':', ' '] ++ value))) =
      some (Declaration.edited name value disabled) := by
    have htrim : trim (before ++ (name ++ ([':', ' '] ++ value))) =
        name ++ ':' :: ([' '] ++ value) := by
      rw [trim_blanks_append (hblank hbefore), (hname.append [':', ' '] hvalue).trim_eq]
      rfl
    have hvalue' : trim ([' '] ++ value) = value := by
      rw [trim_blanks_append (by simp [isBlank]), hvalue.trim_eq]
    obtain ⟨c, rest, rfl, -⟩ := hname.starts
    obtain ⟨v, more, rfl, -⟩ := hvalue.starts
    rw [propertyOfFragment?, htrim, cutAt_append_cons hcolon]
    simp only [Option.bind_eq_bind, Option.bind_some, hname.trim_eq, hvalue']
    rfl
  have hrest : propertyOfFragment? disabled after = none := by
    rw [propertyOfFragment?, trim_of_forall_blank (hblank hafter)]
    rfl
  rw [hpieces, List.filterMap_cons_some hpair, List.filterMap_cons_none hrest, List.filterMap_nil]

/-- Between comment marks stands what the line is about. -/
theorem body_commented (content : List Char) :
    body ('/' :: '*' :: (content ++ ['*', '/'])) = (content, true) := by
  have henclosed : enclosed ['/', '*'] ['*', '/'] ('/' :: '*' :: (content ++ ['*', '/'])) =
      some content := enclosed_eq_some_iff.mpr rfl
  simp only [body, henclosed]

theorem body_of_head {c : Char} (h : c ≠ '/') (rest : List Char) :
    body (c :: rest) = (c :: rest, false) := by
  simp [body, enclosed, List.isPrefixOf?, h.symm]

/-- A line between comment marks gives disabled properties. -/
theorem propertiesOfLine_commented (content : List Char) :
    propertiesOfLine ('/' :: '*' :: (content ++ ['*', '/'])) =
      (content.splitOn ';').filterMap (propertyOfFragment? true) := by
  have htrimmed : Trimmed ('/' :: '*' :: (content ++ ['*', '/'])) :=
    ⟨⟨'/', _, rfl, rfl⟩, ⟨'/' :: '*' :: (content ++ ['*']), '/', by simp, rfl⟩⟩
  rw [propertiesOfLine, htrimmed.trim_eq, body_commented]

theorem propertiesOfLine_of_trimmed {line : List Char} (h : Trimmed line)
    (hhead : line.head? ≠ some '/') :
    propertiesOfLine line = (line.splitOn ';').filterMap (propertyOfFragment? false) := by
  obtain ⟨c, rest, rfl, -⟩ := h.starts
  rw [propertiesOfLine, h.trim_eq, body_of_head (by simpa using hhead)]

end StyleText

namespace Property.FitsLine

open Text StyleText

variable {p : Property} (h : p.FitsLine)
include h

/-- What is read of a line is the property as it was. -/
theorem edited_eq {text : String} (hvalue : p.value = some (.string text)) :
    Declaration.edited (Property.kebabChars p.name.toList) text.toList p.disabled = p := by
  have hcolon : ':' ∉ p.name.toList := fun hmem => by
    have hno := h.name.alphanum ':' hmem
    cases hno
  have hkey : Property.splitKey p.name = (p.name, none) := by
    rw [Property.splitKey, cutAt_of_notMem hcolon]
  rw [Declaration.edited, h.name.camelChars_kebabChars, String.ofList_toList, String.ofList_toList,
    Property.ofKey, hkey]
  obtain ⟨name, state, value, disabled⟩ := p
  obtain rfl : state = none := h.state
  obtain rfl : value = some (.string text) := hvalue
  rfl

/-- The line of a property, spelled out. -/
theorem line_ofProperty {text : String} (hvalue : p.value = some (.string text)) :
    (InspectedProperty.ofProperty p).line =
      if p.disabled then
        '/' :: '*' :: ([' '] ++ (Property.kebabChars p.name.toList ++
          ':' :: ' ' :: (text.toList ++ ';' :: [' '])) ++ ['*', '/'])
      else Property.kebabChars p.name.toList ++ ':' :: ' ' :: (text.toList ++ [';']) := by
  have hname : (InspectedProperty.ofProperty p).name.toList =
      Property.kebabChars p.name.toList := by
    simp [InspectedProperty.ofProperty, Property.inspectorName, h.state]
  have htext : (InspectedProperty.ofProperty p).value.toList = text.toList := by
    rw [InspectedProperty.ofProperty, Property.valueText, hvalue]
    rfl
  have hdisabled : (InspectedProperty.ofProperty p).disabled = p.disabled := rfl
  rw [InspectedProperty.line, hname, htext, hdisabled]
  simp

theorem newline_notMem_line : '\n' ∉ (InspectedProperty.ofProperty p).line := by
  obtain ⟨text, hvalue, -, -, hbreak⟩ := h.value
  have hname : '\n' ∉ Property.kebabChars p.name.toList :=
    h.name.notMem_kebabChars rfl (by decide)
  rw [h.line_ofProperty hvalue]
  split <;> simp [hname, hbreak]

/-- **A line is read back.** -/
theorem propertiesOfLine_line : propertiesOfLine (InspectedProperty.ofProperty p).line = [p] := by
  obtain ⟨text, hvalue, htrimmed, hsemicolon, -⟩ := h.value
  have hname := h.name.trimmed_kebabChars
  have hpair : ∀ before after : List Char, (∀ c ∈ before, c = ' ') → (∀ c ∈ after, c = ' ') →
      ((before ++ (Property.kebabChars p.name.toList ++
        ':' :: ' ' :: (text.toList ++ ';' :: after))).splitOn ';').filterMap
          (propertyOfFragment? p.disabled) = [p] := by
    intro before after hbefore hafter
    rw [filterMap_propertyOfFragment? hname (h.name.notMem_kebabChars rfl (by decide)) htrimmed
      ⟨h.name.notMem_kebabChars rfl (by decide), hsemicolon⟩ hbefore hafter, h.edited_eq hvalue]
  rw [h.line_ofProperty hvalue]
  cases hdisabled : p.disabled with
  | true =>
    have hline := hpair [' '] [' '] (by simp) (by simp)
    rw [hdisabled] at hline
    exact (propertiesOfLine_commented _).trans hline
  | false =>
    have hline := hpair [] [] (by simp) (by simp)
    rw [hdisabled] at hline
    have hend : Trimmed [';'] := .of_all (by simp) rfl
    refine (propertiesOfLine_of_trimmed (hname.append (':' :: ' ' :: text.toList) hend) ?_).trans
      hline
    -- The line starts with its name, and so is not taken for a comment.
    obtain ⟨c, rest, hstart, -⟩ := hname.starts
    have hslash : '/' ∉ Property.kebabChars p.name.toList :=
      h.name.notMem_kebabChars rfl (by decide)
    rw [hstart] at hslash ⊢
    simpa [eq_comm] using fun heq : c = '/' => hslash (heq ▸ List.mem_cons_self)

end Property.FitsLine

/-! ## Styles -/

namespace Declaration

theorem eq_of_properties {d e : Declaration} (h : d.properties = e.properties) : d = e := by
  cases d
  cases e
  cases h
  rfl

/-- A declaration is what writing its properties gives. -/
theorem ofList_properties (style : Declaration) : ofList style.properties = style :=
  eq_of_properties <| (properties_insertAll empty style.properties).trans
    (Keyed.upsertAll_nil_of_nodup Property.key style.distinct)

end Declaration

namespace StyleText

theorem properties_intercalate {lines : List (List Char)} (h : ∀ line ∈ lines, '\n' ∉ line) :
    properties (['\n'].intercalate lines) = lines.flatMap propertiesOfLine := by
  cases lines with
  | nil => rfl
  | cons line rest => rw [properties, List.splitOn_intercalate '\n' h (List.cons_ne_nil _ _)]

/-- **A shown style is read back** from its text. -/
theorem parse_styleText {style : Declaration} (h : ∀ p ∈ style.properties, p.FitsLine) :
    parse (InspectedRule.ofInline style).styleText = style := by
  have hlines : (InspectedRule.ofInline style).style.map (·.line) =
      style.properties.map fun p => (InspectedProperty.ofProperty p).line := by
    rw [InspectedRule.ofInline, List.map_map]
    rfl
  have hbreaks : ∀ line ∈ style.properties.map fun p => (InspectedProperty.ofProperty p).line,
      '\n' ∉ line := by
    intro line hline
    obtain ⟨p, hp, rfl⟩ := List.mem_map.mp hline
    exact (h p hp).newline_notMem_line
  have hproperties : (style.properties.map fun p =>
      (InspectedProperty.ofProperty p).line).flatMap propertiesOfLine = style.properties := by
    rw [List.flatMap_map]
    exact (List.flatMap_congr fun p hp => (h p hp).propertiesOfLine_line).trans
      (List.flatMap_singleton' _)
  rw [parse, InspectedRule.styleText, String.toList_ofList, hlines,
    properties_intercalate hbreaks, hproperties, Declaration.ofList_properties]

end StyleText

/-! ## Writing back -/

namespace Document

variable {d : Document} {id : NodeId}

theorem inlineStyle_replaceInline (hc : d.contains id = true) (style : Declaration) :
    ((d.replaceInline id style).node? id).map (·.inlineStyle) =
      some (style.expand (d.sheetStack id)) := by
  obtain ⟨node, hn⟩ := Option.isSome_iff_exists.mp hc
  refine (((keeps_restyle _ id).map Node.inlineStyle).nodes id).trans ?_
  rw [node?_modify, if_pos rfl, hn]
  rfl

/-- **A style that is written back unedited** parses as the inline style that was shown.  The node
then has that style with its derived properties computed anew: every key stays in its place, every
entry that no property of the style derives stays as it was, and the style stays as a whole if it
has no property that another one is derived from. -/
theorem setStyleText_styleText {node : Node} (hn : d.node? id = some node)
    (h : ∀ p ∈ node.inlineStyle.properties, p.FitsLine) {shown : InspectedStyles}
    (hshown : d.inspect? id = some shown) :
    StyleText.parse shown.inlineStyle.styleText = node.inlineStyle ∧
      (d.setStyleText id shown.inlineStyle.styleText).2 = true ∧
      ∃ after, ((d.setStyleText id shown.inlineStyle.styleText).1.node? id).map
          (·.inlineStyle) = some after ∧
        node.inlineStyle.keys <+: after.keys ∧
        (∀ key, (∀ p ∈ node.inlineStyle.properties, ∀ derivation ∈ Derivation.all, ∀ q,
          derivation.derive? (d.sheetStack id) p = some q → q.key ≠ key) →
          after.get? key = node.inlineStyle.get? key) ∧
        ((∀ p ∈ node.inlineStyle.properties, ∀ derivation ∈ Derivation.all,
          p.name ≠ derivation.source) → after = node.inlineStyle) := by
  have hrule : shown.inlineStyle = .ofInline node.inlineStyle := by
    rw [inspect?, hn] at hshown
    rw [← Option.some.inj hshown]
  have hparse := StyleText.parse_styleText h
  have hc : d.contains id = true := contains_of_node? hn
  rw [hrule, setStyleText, if_pos hc, hparse]
  exact ⟨rfl, rfl, _, inlineStyle_replaceInline hc _, Declaration.keys_prefix_expand _,
    fun key hkey => Declaration.get?_expand_of_not_derived hkey, Declaration.expand_eq_self⟩

/-- An image and a disabled size. -/
def imageStyle : Declaration where
  properties := [{ name := "backgroundImage", value := some (.string "url(http://host/a.png)") },
    { name := "fontSize", value := some (.string "12px"), disabled := true }]
  distinct := by decide

theorem fitsLine_of_mem_imageStyle : ∀ p ∈ imageStyle.properties, p.FitsLine := by
  have himage : Text.CamelWord "backgroundImage".toList :=
    ⟨⟨'b', "ackgroundImage".toList, by decide +kernel, rfl⟩,
      List.all_eq_true.mp (by decide +kernel)⟩
  have hsize : Text.CamelWord "fontSize".toList :=
    ⟨⟨'f', "ontSize".toList, by decide +kernel, rfl⟩, List.all_eq_true.mp (by decide +kernel)⟩
  intro p hp
  rcases List.mem_pair.mp hp with rfl | rfl
  · exact ⟨rfl, himage, _, rfl, .of_all (by decide +kernel) (by decide +kernel),
      by decide +kernel, by decide +kernel⟩
  · exact ⟨rfl, hsize, _, rfl, .of_all (by decide +kernel) (by decide +kernel),
      by decide +kernel, by decide +kernel⟩

/-- A text under the root. -/
def textSample : Document :=
  Document.new.performAll [.create "text", .append .root ⟨1⟩]

/-- A text with that inline style. -/
def imageSample : Document :=
  textSample.replaceInline ⟨1⟩ imageStyle

theorem inlineStyle_imageSample :
    (imageSample.node? ⟨1⟩).map (·.inlineStyle) = some imageStyle := by
  have hc : textSample.contains ⟨1⟩ = true := by decide +kernel
  have hsources : ∀ p ∈ imageStyle.properties, ∀ d ∈ Derivation.all, p.name ≠ d.source := by
    decide +kernel
  exact (inlineStyle_replaceInline hc imageStyle).trans
    (congrArg some (Declaration.expand_eq_self hsources))

/-- The image, with its colons, and the disabled size are written back. -/
theorem setStyleText_styleText_imageSample :
    (∀ p ∈ imageStyle.properties, p.FitsLine) ∧
    ∃ shown, imageSample.inspect? ⟨1⟩ = some shown ∧
      shown.inlineStyle = .ofInline imageStyle ∧
      StyleText.parse shown.inlineStyle.styleText = imageStyle ∧
      ((imageSample.setStyleText ⟨1⟩ shown.inlineStyle.styleText).1.node? ⟨1⟩).map
        (·.inlineStyle) = some imageStyle := by
  obtain ⟨node, hn, hstyle⟩ := Option.map_eq_some_iff.mp inlineStyle_imageSample
  have hshown : imageSample.inspect? ⟨1⟩ =
      some ⟨.ofInline node.inlineStyle, (node.matched.getD []).reverse.map .ofMatched⟩ := by
    rw [inspect?, hn]
    rfl
  have hfits : ∀ p ∈ node.inlineStyle.properties, p.FitsLine := by
    rw [hstyle]
    exact fitsLine_of_mem_imageStyle
  obtain ⟨hparse, -, after, hafter, -, -, hsame⟩ := setStyleText_styleText hn hfits hshown
  have hsources : ∀ p ∈ node.inlineStyle.properties, ∀ d ∈ Derivation.all, p.name ≠ d.source := by
    rw [hstyle]
    decide +kernel
  have hafter' := hafter.trans (congrArg some ((hsame hsources).trans hstyle))
  exact ⟨fitsLine_of_mem_imageStyle, _, hshown, congrArg InspectedRule.ofInline hstyle,
    hparse.trans hstyle, hafter'⟩

/-- A text whose font description is not the one of its font. -/
def describedSample : Document :=
  Document.new.performAll [.create "text", .append .root ⟨1⟩,
    .replaceInline ⟨1⟩ (.ofList [{ name := "fontFamily", value := some (.string "serif") }]),
    .updateInline ⟨1⟩ (.ofList [{ name := "fontFamilyDesc", value := some (.string "plain") }])]

/-- The text of an inline style, for an inspector that edits nothing. -/
def shownText (d : Document) (id : NodeId) : String :=
  ((d.inspect? id).map (·.inlineStyle.styleText)).getD ""

/-- A style that only applies in a state. -/
def statefulStyle : Declaration :=
  .ofList [{ name := "width", state := some "active", value := some (.string "10px") }]

/-- Writing a style back unedited can change it: what is derived from a font is computed anew.
And a line with a state is read as one whose value starts with the state. -/
theorem setStyleText_shownText_describedSample :
    ((describedSample.inspect? ⟨1⟩).map (·.inlineStyle.style) =
        some [⟨"font-family", "serif", false⟩, ⟨"font-family-desc", "plain", false⟩] ∧
      ((describedSample.setStyleText ⟨1⟩ (describedSample.shownText ⟨1⟩)).1.inspect? ⟨1⟩).map
          (·.inlineStyle.style) ≠
        (describedSample.inspect? ⟨1⟩).map (·.inlineStyle.style)) ∧
      statefulStyle.keys = ["width:active"] ∧
      (StyleText.parse (InspectedRule.ofInline statefulStyle).styleText).keys = ["width"] := by
  decide +kernel

end Document

end StyleCascade
