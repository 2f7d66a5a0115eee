import Mathlib.Data.List.Induction
import StyleCascade.Proofs.InspectorText

/-!
# Style texts in parts

Merging declarations is associative and has the empty declaration as its identity, key order
included (`Declaration.merge_assoc`), and writing properties one by one is merging what they make
(`Declaration.insertAll_eq_merge`).  So a style text gives the merge of what its lines give, and of
what the fragments in them give (`StyleText.parse_eq_merge`).

Whether a line is disabled depends on how it starts and ends, so a fragment can be read on its own
only together with that mark (`StyleText.Fragment`).  Neither comment mark reaches over a semicolon,
and therefore nothing between two semicolons can change it (`StyleText.exists_body_around`).
-/
namespace StyleCascade

/-! ## The algebra of merging -/

namespace Declaration

/-- The keys of the first declaration, and behind them the new ones of the second. -/
theorem keys_merge (d source : Declaration) :
    (d.merge source).keys = d.keys ++ source.keys.filter (· ∉ d.keys) :=
  keys_insertAll_of_nodup d source.distinct

theorem merge_empty (d : Declaration) : d.merge empty = d := rfl

theorem empty_merge (d : Declaration) : empty.merge d = d :=
  d.ofList_properties

theorem merge_ofList_singleton (d : Declaration) (p : Property) :
    d.merge (ofList [p]) = d.insert p := rfl

/-- **Merging is associative**, and keeps the order of keys. -/
theorem merge_assoc (a b c : Declaration) : (a.merge b).merge c = a.merge (b.merge c) := by
  refine eq_of_get? ?_ fun key => ?_
  · -- Of the keys of `c`, both sides add those that neither `a` nor `b` has.
    have hnew : (b.keys.filter (· ∉ a.keys)) ++
        c.keys.filter (· ∉ a.keys ++ b.keys.filter (· ∉ a.keys)) =
          (b.keys ++ c.keys.filter (· ∉ b.keys)).filter (· ∉ a.keys) := by
      rw [List.filter_append, List.filter_filter]
      refine congrArg (b.keys.filter (· ∉ a.keys) ++ ·) (List.filter_congr fun key _ => ?_)
      by_cases ha : key ∈ a.keys
      · simp [ha]
      · by_cases hb : key ∈ b.keys <;> simp [ha, hb]
    rw [keys_merge, keys_merge, keys_merge, keys_merge, List.append_assoc, hnew]
  · rw [get?_merge, get?_merge, get?_merge, get?_merge, Option.or_assoc]

/-- Writing properties one by one is merging the declaration that they make. -/
theorem insertAll_eq_merge (d : Declaration) (ps : List Property) :
    d.insertAll ps = d.merge (ofList ps) := by
  induction ps using List.reverseRecOn with
  | nil => rfl
  | append_singleton ps p ih =>
    have hlast : ∀ e : Declaration, e.insertAll (ps ++ [p]) = (e.insertAll ps).insert p :=
      fun _ => List.foldl_concat ..
    calc d.insertAll (ps ++ [p])
        = (d.merge (ofList ps)).merge (ofList [p]) := by rw [hlast, ih, merge_ofList_singleton]
      _ = d.merge ((ofList ps).merge (ofList [p])) := merge_assoc ..
      _ = d.merge (ofList (ps ++ [p])) := by rw [merge_ofList_singleton, ofList, ofList, hlast]

theorem ofList_append (ps qs : List Property) :
    ofList (ps ++ qs) = (ofList ps).merge (ofList qs) := by
  rw [← insertAll_eq_merge]
  exact List.foldl_append

/-- Several declarations, each merged into what the ones before it give. -/
def mergeAll (ds : List Declaration) : Declaration :=
  ds.foldl merge empty

theorem mergeAll_map_ofList {α : Type} (properties : α → List Property) (l : List α) :
    mergeAll (l.map fun a => ofList (properties a)) = ofList (l.flatMap properties) := by
  induction l using List.reverseRecOn with
  | nil => rfl
  | append_singleton l a ih =>
    have hlast : ∀ d, mergeAll (l.map (fun a => ofList (properties a)) ++ [d]) =
        (mergeAll (l.map fun a => ofList (properties a))).merge d := fun _ => List.foldl_concat ..
    rw [List.map_append, List.flatMap_append, ofList_append, List.map_singleton, hlast, ih,
      List.flatMap_singleton]

end Declaration

/-! ## Lines -/

namespace Text

/-- The lines of a text. A line feed ends a line, and a carriage return before it is not part of the
line either; there is no line behind the last line feed if nothing follows it. -/
def lines (text : List Char) : List (List Char) :=
  let pieces := text.splitOn '\n'
  pieces.dropLast.map (fun piece => (['\r'].isSuffixOf? piece).getD piece) ++
    pieces.getLast?.toList.filter (!·.isEmpty)

theorem newline_notMem_of_mem_lines {text line : List Char} (h : line ∈ lines text) :
    '\n' ∉ line := by
  rcases List.mem_append.mp h with h | h
  · obtain ⟨piece, hpiece, rfl⟩ := List.mem_map.mp h
    have hnone := (of_mem_splitOn (List.dropLast_subset _ hpiece)).1
    cases hreturn : ['\r'].isSuffixOf? piece with
    | none => exact hnone
    | some rest =>
      intro hmem
      rw [← List.isSuffixOf?_eq_some_iff_append_eq.mp hreturn] at hnone
      exact hnone (List.mem_append_left _ hmem)
  · have hlast := List.mem_of_getLast? (Option.mem_toList.mp (List.mem_filter.mp h).1)
    exact (of_mem_splitOn hlast).1

end Text

namespace StyleText

open Text

/-- A carriage return at its end does not change what a line says. -/
theorem propertiesOfLine_dropReturn (line : List Char) :
    propertiesOfLine ((['\r'].isSuffixOf? line).getD line) = propertiesOfLine line := by
  cases h : ['\r'].isSuffixOf? line with
  | none => rfl
  | some rest =>
    rw [Option.getD_some, ← List.isSuffixOf?_eq_some_iff_append_eq.mp h, propertiesOfLine,
      propertiesOfLine, trim_append_blanks (List.forall_mem_singleton.mpr rfl)]

theorem properties_eq_flatMap_lines (text : List Char) :
    properties text = (lines text).flatMap propertiesOfLine := by
  obtain ⟨front, last, hpieces⟩ :=
    (List.eq_nil_or_concat' (text.splitOn '\n')).resolve_left (List.splitOn_ne_nil _ _)
  have hlast : ([last].filter (!·.isEmpty)).flatMap propertiesOfLine = propertiesOfLine last := by
    cases last with
    | nil => rfl
    | cons c rest => exact List.flatMap_singleton ..
  rw [properties, lines, hpieces, List.dropLast_concat, List.getLast?_concat, Option.toList_some,
    List.flatMap_append, List.flatMap_append, hlast, List.flatMap_map]
  refine congrArg₂ (· ++ ·) (List.flatMap_congr fun line _ => ?_) (List.flatMap_singleton ..)
  exact (propertiesOfLine_dropReturn line).symm

theorem properties_of_notMem {line : List Char} (h : '\n' ∉ line) :
    properties line = propertiesOfLine line := by
  rw [properties, List.splitOn_eq_singleton h, List.flatMap_singleton]

theorem properties_append_newline (front back : List Char) :
    properties (front ++ '\n' :: back) = properties front ++ properties back := by
  rw [properties, List.splitOn_append_cons_self, List.flatMap_append]
  rfl

/-- **Two texts with a line feed between them** say what they say one after the other. -/
theorem parse_append_newline (first second : String) :
    parse (first ++ "\n" ++ second) = (parse first).merge (parse second) := by
  have htext : (first ++ "\n" ++ second).toList = first.toList ++ '\n' :: second.toList := by
    simp
  rw [parse, htext, properties_append_newline, Declaration.ofList_append]
  rfl

/-- A text says what its lines say one after the other. -/
theorem parse_eq_mergeAll_lines (text : String) :
    parse text =
      .mergeAll ((lines text.toList).map fun line => parse (String.ofList line)) := by
  have hlines : (lines text.toList).map (fun line => parse (String.ofList line)) =
      (lines text.toList).map fun line => Declaration.ofList (propertiesOfLine line) := by
    refine List.map_congr_left fun line hline => ?_
    rw [parse, String.toList_ofList, properties_of_notMem (newline_notMem_of_mem_lines hline)]
  rw [hlines, Declaration.mergeAll_map_ofList, parse, properties_eq_flatMap_lines]

/-! ## Fragments -/

/-- A fragment is made of a name and a value, neither of them blank, around its first colon. -/
structure IsPair (fragment name value : List Char) : Prop where
  eq : fragment = name ++ ':' :: value
  first : ':' ∉ name
  name_ne : ∃ c ∈ name, isBlank c = false
  value_ne : ∃ c ∈ value, isBlank c = false

/-- A fragment that is no pair. -/
def Malformed (fragment : List Char) : Prop :=
  ∀ name value, ¬IsPair fragment name value

/-- **What a fragment gives**: a property if it is a pair, and nothing otherwise. -/
theorem propertyOfFragment?_eq_some_iff {disabled : Bool} {fragment : List Char} {p : Property} :
    propertyOfFragment? disabled fragment = some p ↔
      ∃ name value, IsPair fragment name value ∧
        p = Declaration.edited (trim name) (trim value) disabled := by
  have hblank : ∀ {text : List Char}, (∃ c ∈ text, isBlank c = false) ↔ trim text ≠ [] := by
    intro text
    rw [Ne, trim_eq_nil_iff]
    simp
  obtain ⟨before, after, htext, hb, ha⟩ := exists_eq_append_trim fragment
  have hread : propertyOfFragment? disabled fragment = (cutAt ':' (trim fragment)).bind fun pair =>
      if (trim pair.1).isEmpty || (trim pair.2).isEmpty then none
      else some (Declaration.edited (trim pair.1) (trim pair.2) disabled) := rfl
  constructor
  · intro h
    obtain ⟨⟨name, value⟩, hcut, hpair⟩ := Option.bind_eq_some_iff.mp (hread.symm.trans h)
    obtain ⟨hparts, hfirst⟩ := eq_of_cutAt hcut
    split at hpair
    · cases hpair
    · rename_i hne
      simp only [Bool.or_eq_true, List.isEmpty_iff, not_or] at hne
      -- The blanks around the fragment count as part of the name and of the value.
      have hname : trim (before ++ name) = trim name := trim_blanks_append hb name
      have hvalue : trim (value ++ after) = trim value := trim_append_blanks ha value
      refine ⟨before ++ name, value ++ after, ⟨?_, ?_, ?_, ?_⟩, ?_⟩
      · rw [htext, hparts]
        simp
      · intro hmem
        rcases List.mem_append.mp hmem with hmem | hmem
        · exact absurd (hb ':' hmem) (by decide)
        · exact hfirst hmem
      · exact hblank.mpr (hname ▸ hne.1)
      · exact hblank.mpr (hvalue ▸ hne.2)
      · rw [hname, hvalue]
        exact (Option.some.inj hpair).symm
  · rintro ⟨name, value, hpair, rfl⟩
    have hcolon : Trimmed [':'] := .of_all (by simp) rfl
    have htrim : trim fragment = trimStart name ++ ':' :: trimEnd value :=
      hpair.eq ▸ hcolon.trim_around name value
    have hfirst : ':' ∉ trimStart name := fun hmem =>
      hpair.first ((List.dropWhile_sublist _).subset hmem)
    have hname := hblank.mp hpair.name_ne
    have hvalue := hblank.mp hpair.value_ne
    rw [hread, htrim, cutAt_append_cons hfirst]
    simp [trim_trimStart, trim_trimEnd, hname, hvalue]

theorem propertyOfFragment?_eq_none_iff {disabled : Bool} {fragment : List Char} :
    propertyOfFragment? disabled fragment = none ↔ Malformed fragment := by
  rw [Option.eq_none_iff_forall_ne_some]
  constructor
  · intro h name value hpair
    exact h _ (propertyOfFragment?_eq_some_iff.mpr ⟨name, value, hpair, rfl⟩)
  · intro h p hp
    obtain ⟨name, value, hpair, -⟩ := propertyOfFragment?_eq_some_iff.mp hp
    exact h name value hpair

instance (fragment : List Char) : Decidable (Malformed fragment) :=
  decidable_of_iff (propertyOfFragment? false fragment = none) propertyOfFragment?_eq_none_iff

/-- A fragment, with the mark of standing in a disabled line. -/
structure Fragment where
  disabled : Bool
  chars : List Char

/-- The fragments of a text, in order. -/
def fragments (text : List Char) : List Fragment :=
  (lines text).flatMap fun line =>
    ((body (trim line)).1.splitOn ';').map (⟨(body (trim line)).2, ·⟩)

namespace Fragment

def property? (f : Fragment) : Option Property :=
  propertyOfFragment? f.disabled f.chars

/-- What a fragment says, read on its own. -/
def declaration (f : Fragment) : Declaration :=
  .ofList f.property?.toList

end Fragment

theorem properties_eq_flatMap_fragments (text : List Char) :
    properties text = (fragments text).flatMap (·.property?.toList) := by
  rw [properties_eq_flatMap_lines, fragments, List.flatMap_assoc]
  refine List.flatMap_congr fun line _ => ?_
  have hline : propertiesOfLine line = ((body (trim line)).1.splitOn ';').filterMap
      (propertyOfFragment? (body (trim line)).2) := rfl
  rw [hline, List.filterMap_eq_flatMap_toList, List.flatMap_map]
  rfl

/-- **A malformed fragment says nothing**: a text says what its other fragments say, each on its
own, one after the other. -/
theorem parse_eq_mergeAll_fragments (text : String) :
    parse text =
      .mergeAll (((fragments text.toList).filter (¬Malformed ·.chars)).map (·.declaration)) := by
  have hread : ∀ fs : List Fragment, (fs.filter (¬Malformed ·.chars)).flatMap (·.property?.toList) =
      fs.flatMap (·.property?.toList) := by
    intro fs
    induction fs with
    | nil => rfl
    | cons f rest ih =>
      by_cases hf : Malformed f.chars
      · have hnone : f.property? = none := propertyOfFragment?_eq_none_iff.mpr hf
        rw [List.filter_cons_of_neg (by simpa using hf), ih, List.flatMap_cons, hnone]
        rfl
      · rw [List.filter_cons_of_pos (by simpa using hf), List.flatMap_cons, List.flatMap_cons, ih]
  rw [parse, properties_eq_flatMap_fragments, ← hread]
  exact (Declaration.mergeAll_map_ofList (fun f : Fragment => f.property?.toList) _).symm

/-! ## What stands between two semicolons -/

/-- What a line starts and ends with decides whether it stands between comment marks: neither mark
reaches over a semicolon. -/
theorem exists_body_around (left right : List Char) : ∃ front back disabled, ∀ middle inner inner',
    middle = ';' :: inner → middle = inner' ++ [';'] →
      body (trim (left ++ (middle ++ right))) = (front ++ (middle ++ back), disabled) := by
  have htrim : ∀ {middle inner inner' : List Char}, middle = ';' :: inner →
      middle = inner' ++ [';'] →
        trim (left ++ (middle ++ right)) = trimStart left ++ (middle ++ trimEnd right) :=
    fun hstart hend => Trimmed.trim_around
      ⟨⟨';', _, hstart, by decide⟩, ⟨_, ';', hend, by decide⟩⟩ left right
  have hopen : ∀ {middle inner : List Char} (rest : List Char), middle = ';' :: inner →
      ['/', '*'].isPrefixOf? (trimStart left ++ (middle ++ rest)) =
        (['/', '*'].isPrefixOf? (trimStart left)).map (· ++ (middle ++ rest)) := by
    rintro middle inner rest rfl
    exact isPrefixOf?_append_cons (by decide) _ _
  have hclose : ∀ {middle inner : List Char} (front : List Char), middle = inner ++ [';'] →
      ['*', '/'].isSuffixOf? (front ++ (middle ++ trimEnd right)) =
        (['*', '/'].isSuffixOf? (trimEnd right)).map fun back => front ++ (middle ++ back) := by
    rintro middle inner front rfl
    have hnone : ';' ∉ ['*', '/'] := by decide
    simpa using isSuffixOf?_append_cons hnone (front ++ inner) (trimEnd right)
  cases hleft : ['/', '*'].isPrefixOf? (trimStart left) with
  | none =>
    refine ⟨trimStart left, trimEnd right, false, fun middle inner inner' hstart hend => ?_⟩
    rw [htrim hstart hend, body, enclosed, hopen _ hstart, hleft]
    rfl
  | some front =>
    cases hright : ['*', '/'].isSuffixOf? (trimEnd right) with
    | none =>
      refine ⟨trimStart left, trimEnd right, false, fun middle inner inner' hstart hend => ?_⟩
      rw [htrim hstart hend, body, enclosed, hopen _ hstart, hleft, Option.map_some,
        Option.bind_eq_bind, Option.bind_some, hclose _ hend, hright]
      rfl
    | some back =>
      refine ⟨front, back, true, fun middle inner inner' hstart hend => ?_⟩
      rw [htrim hstart hend, body, enclosed, hopen _ hstart, hleft, Option.map_some,
        Option.bind_eq_bind, Option.bind_some, hclose _ hend, hright]
      rfl

theorem propertiesOfLine_malformed {fragment : List Char} (h : Malformed fragment)
    (hsemicolon : ';' ∉ fragment) (left right : List Char) :
    propertiesOfLine (left ++ (';' :: (fragment ++ [';']) ++ right)) =
      propertiesOfLine (left ++ ([';'] ++ right)) := by
  obtain ⟨front, back, disabled, hbody⟩ := exists_body_around left right
  rw [propertiesOfLine, propertiesOfLine, hbody _ (fragment ++ [';']) (';' :: fragment) rfl rfl,
    hbody _ [] [] rfl rfl]
  simp only [List.cons_append, List.append_assoc, List.nil_append]
  rw [List.splitOn_append_cons_self, List.splitOn_append_cons_self,
    List.splitOn_append_cons_self, List.splitOn_eq_singleton hsemicolon, List.filterMap_append,
    List.filterMap_append, List.filterMap_append,
    List.filterMap_cons_none (propertyOfFragment?_eq_none_iff.mpr h), List.filterMap_nil,
    List.nil_append]

/-- The end of a text that belongs to the line which more text would go on with. -/
theorem exists_properties_append (text : List Char) : ∃ before line,
    '\n' ∉ line ∧ ∀ rest, properties (text ++ rest) = before ++ properties (line ++ rest) := by
  induction text using List.reverseRecOn with
  | nil => exact ⟨[], [], List.not_mem_nil, fun _ => rfl⟩
  | append_singleton text c ih =>
    by_cases hc : c = '\n'
    · refine ⟨properties text, [], List.not_mem_nil, fun rest => ?_⟩
      rw [hc, List.append_assoc]
      exact properties_append_newline text rest
    · obtain ⟨before, line, hline, hread⟩ := ih
      refine ⟨before, line ++ [c], ?_, fun rest => ?_⟩
      · intro hmem
        rcases List.mem_append.mp hmem with hmem | hmem
        · exact hline hmem
        · exact hc (List.mem_singleton.mp hmem).symm
      · rw [List.append_assoc, hread, List.append_assoc]

theorem exists_properties_prepend (text : List Char) : ∃ line after,
    '\n' ∉ line ∧ ∀ front, properties (front ++ text) = properties (front ++ line) ++ after := by
  by_cases hbreak : '\n' ∈ text
  · obtain ⟨line, rest, rfl, hline⟩ := List.eq_append_cons_of_mem hbreak
    refine ⟨line, properties rest, hline, fun front => ?_⟩
    rw [← List.append_assoc, properties_append_newline]
  · exact ⟨text, [], hbreak, fun front => (List.append_nil _).symm⟩

/-- **What stands between two semicolons is of no account** if it is malformed. -/
theorem parse_malformed {fragment : String} (h : Malformed fragment.toList)
    (hsemicolon : ';' ∉ fragment.toList) (hnewline : '\n' ∉ fragment.toList)
    (first second : String) :
    parse (first ++ ";" ++ fragment ++ ";" ++ second) = parse (first ++ ";" ++ second) := by
  obtain ⟨before, left, hleft, hbefore⟩ := exists_properties_append first.toList
  obtain ⟨right, after, hright, hafter⟩ := exists_properties_prepend second.toList
  -- Both texts differ in one line only.
  have hread : ∀ middle, '\n' ∉ middle → properties (first.toList ++ (middle ++ second.toList)) =
      before ++ (propertiesOfLine (left ++ (middle ++ right)) ++ after) := by
    intro middle hmiddle
    have hline : '\n' ∉ left ++ (middle ++ right) := by simp [hleft, hmiddle, hright]
    rw [hbefore, ← List.append_assoc left, hafter, List.append_assoc, properties_of_notMem hline]
  have hlong : (first ++ ";" ++ fragment ++ ";" ++ second).toList =
      first.toList ++ (';' :: (fragment.toList ++ [';']) ++ second.toList) := by simp
  have hshort : (first ++ ";" ++ second).toList = first.toList ++ ([';'] ++ second.toList) := by
    simp
  rw [parse, parse, hlong, hshort, hread _ (by simp [hnewline]), hread _ (by simp),
    propertiesOfLine_malformed h hsemicolon]

/-- **A style text is the merge of its parts.**  Two texts with a line feed between them give what
the first gives with what the second gives merged into it; merging is associative, with the empty
declaration as its identity, key order included; so a text gives the merge of its lines, and of the
fragments in them that are not malformed, each read on its own.  A malformed fragment between two
semicolons might as well not be there. -/
theorem parse_eq_merge :
    (∀ first second : String,
      parse (first ++ "\n" ++ second) = (parse first).merge (parse second)) ∧
    (∀ a b c : Declaration, (a.merge b).merge c = a.merge (b.merge c)) ∧
    (∀ d : Declaration, Declaration.empty.merge d = d ∧ d.merge .empty = d) ∧
    (∀ text : String, parse text =
      .mergeAll ((lines text.toList).map fun line => parse (String.ofList line))) ∧
    (∀ text : String, parse text =
      .mergeAll (((fragments text.toList).filter (¬Malformed ·.chars)).map (·.declaration))) ∧
    ∀ first fragment second : String, Malformed fragment.toList → ';' ∉ fragment.toList →
      '\n' ∉ fragment.toList →
        parse (first ++ ";" ++ fragment ++ ";" ++ second) = parse (first ++ ";" ++ second) :=
  ⟨parse_append_newline, Declaration.merge_assoc, fun d => ⟨d.empty_merge, d.merge_empty⟩,
    parse_eq_mergeAll_lines, parse_eq_mergeAll_fragments,
    fun first _ second h hsemicolon hnewline => parse_malformed h hsemicolon hnewline first second⟩

/-- A malformed fragment in a disabled line.  The second colour overwrites the first. -/
theorem parse_eq_merge_disabledLine :
    Malformed "broken".toList ∧ ';' ∉ "broken".toList ∧ '\n' ∉ "broken".toList ∧
      parse ("/* color: red" ++ ";" ++ "broken" ++ ";" ++ "height: 2px; color: blue */") =
        parse ("/* color: red" ++ ";" ++ "height: 2px; color: blue */") ∧
      (parse ("/* color: red" ++ ";" ++ "height: 2px; color: blue */")).properties.map
        (fun p => (p.key, p.valueText, p.disabled)) =
          [("color", "blue", true), ("height", "2px", true)] := by
  have hmalformed : Malformed "broken".toList := by decide
  have hsemicolon : ';' ∉ "broken".toList := by decide
  have hnewline : '\n' ∉ "broken".toList := by decide
  obtain ⟨-, -, -, -, -, hskip⟩ := parse_eq_merge
  exact ⟨hmalformed, hsemicolon, hnewline, hskip _ _ _ hmalformed hsemicolon hnewline,
    by decide +kernel⟩

end StyleText
end StyleCascade
