import Mathlib.Data.List.Basic
import StyleCascade.Proofs.Keywords
import StyleCascade.Proofs.MediaConditions

/-!
# Written media lists

A `ListForm` is a media list as it is written: queries with a comma or the word `or` between each
two, every query perhaps with `not` or `only` in front, perhaps starting with `screen` or `all`, and
made of conditions on lengths joined by `and`.

**Reading a written list gives its queries one by one, and the list matches an environment exactly
if one of the queries does** (`ListForm.ofString_text`).  What a query asks for is said on what is
written (`QueryForm.Matches`): every comparison holds as it stands, the value in front or behind,
and `not` asks for the opposite of all of them together.

Only a comma, or a keyword between two blanks, cuts.  A query holds no comma and no `or`
(`Fragment`), and its parts hold no `and`; so the cuts are where the text was put together
(`map_trim_queryPieces`, `map_trim_conditionTexts`).
-/

namespace StyleCascade.Media
open Text

/-! ## Syntax -/

/-- What may stand in front of a query. -/
inductive Modifier
  | not
  | only
deriving DecidableEq, Repr

def Modifier.chars : Modifier → List Char
  | not => "not".toList
  | only => "only".toList

/-- The media types, of which every environment is one. -/
inductive MediaType
  | screen
  | all
deriving DecidableEq, Repr

def MediaType.chars : MediaType → List Char
  | screen => "screen".toList
  | all => "all".toList

/-- A query as it is written.  It says something. -/
structure QueryForm where
  modifier : Option Modifier
  mediaType : Option MediaType
  conditions : List ConditionForm
  nonempty : mediaType ≠ none ∨ conditions ≠ []

/-- What stands between two queries. -/
inductive Separator
  | comma (after : Gap)
  | or

def Separator.chars : Separator → List Char
  | comma after => ',' :: after
  | or => ' ' :: ("or".toList ++ [' '])

/-- A media list as it is written. -/
structure ListForm where
  first : QueryForm
  rest : List (Separator × QueryForm)

/-- What stands between two parts of a query. -/
def conjunction : List Char := ' ' :: ("and".toList ++ [' '])

namespace QueryForm

/-- The parts that are joined by `and`. -/
def parts (q : QueryForm) : List (List Char) :=
  q.mediaType.toList.map MediaType.chars ++ q.conditions.map ConditionForm.chars

/-- A query without what may stand in front. -/
def body (q : QueryForm) : List Char :=
  conjunction.intercalate q.parts

def chars (q : QueryForm) : List Char :=
  match q.modifier with
  | none => q.body
  | some modifier => modifier.chars ++ ' ' :: q.body

/-- The query that is written. -/
def query (q : QueryForm) : MediaQuery where
  negated := q.modifier = some .not
  conditions := q.conditions.map ConditionForm.condition
  valid := true

end QueryForm

namespace ListForm

def queries (l : ListForm) : List QueryForm :=
  l.first :: l.rest.map Prod.snd

/-- The queries after the first, each behind its separator. -/
def restChars (rest : List (Separator × QueryForm)) : List Char :=
  rest.flatMap fun (separator, q) => separator.chars ++ q.chars

def chars (l : ListForm) : List Char :=
  l.first.chars ++ restChars l.rest

/-- The text of a media list. -/
def text (l : ListForm) : String :=
  String.ofList l.chars

end ListForm

/-! ## Meaning -/

namespace LengthFeature

/-- The length in an environment. -/
def value (env : MediaEnvironment) : LengthFeature → Int
  | width => env.viewportWidth.toInt
  | height => env.viewportHeight.toInt
  | deviceWidth => env.screenWidth.toInt
  | deviceHeight => env.screenHeight.toInt

/-- Whether the length is known: a card may wait for its viewport. -/
def Known (env : MediaEnvironment) : LengthFeature → Prop
  | width => ¬(env.cardMode = true ∧ env.viewportWidth = 0)
  | height => ¬(env.cardMode = true ∧ env.viewportHeight = 0)
  | deviceWidth | deviceHeight => True

end LengthFeature

/-- What a sign says about the operands on its left and right. -/
def Sign.Holds : Sign → Int → Int → Prop
  | colon, left, right | equals, left, right => left = right
  | less, left, right => left < right
  | lessEqual, left, right => left ≤ right
  | more, left, right => left > right
  | moreEqual, left, right => left ≥ right

/-- Whether a condition holds as it is written. -/
def ConditionForm.Matches (env : MediaEnvironment) : ConditionForm → Prop
  | featureFirst feature op value =>
    feature.Known env ∧ op.sign.Holds (feature.value env) value.toInt
  | valueFirst value op feature =>
    feature.Known env ∧ op.sign.Holds value.toInt (feature.value env)
  | range first op₁ feature op₂ second _ =>
    feature.Known env ∧ op₁.sign.Holds first.toInt (feature.value env) ∧
      op₂.sign.Holds (feature.value env) second.toInt

/-- Whether a query holds: all of its conditions, or with `not` in front, not all of them. -/
def QueryForm.Matches (env : MediaEnvironment) (q : QueryForm) : Prop :=
  if q.modifier = some .not then ¬∀ c ∈ q.conditions, c.Matches env
  else ∀ c ∈ q.conditions, c.Matches env

/-! ## Fragments -/

/-- A text that a query is made of. -/
structure Fragment (text : List Char) : Prop where
  trimmed : Trimmed text
  noOr : ¬"or".toList <:+: text
  noComma : ',' ∉ text

theorem Fragment.append {a b : List Char} (ha : Fragment a) (hb : Fragment b) :
    Fragment (a ++ ' ' :: b) where
  trimmed := ha.trimmed.append [' '] hb.trimmed
  noOr := not_infix_append_cons (by decide) ha.noOr hb.noOr
  noComma := by simp [ha.noComma, hb.noComma]

/-- The letters that keywords start with, and the comma. -/
def cuttingMarks : List Char := ['a', 'o', ',']

theorem avoids_sign (sign : Sign) : Avoids cuttingMarks sign.chars := by
  cases sign <;> decide

theorem avoids_between (op : SpacedSign) {left right : List Char} (hl : Avoids cuttingMarks left)
    (hr : Avoids cuttingMarks right) : Avoids cuttingMarks (op.between left right) :=
  (hl.append (avoids_gap (by decide) _)).append
    ((avoids_sign _).append ((avoids_gap (by decide) _).append hr))

theorem avoids_feature (feature : LengthFeature) : Avoids cuttingMarks feature.chars := by
  cases feature <;> decide

theorem avoids_chars (form : ConditionForm) : Avoids cuttingMarks form.chars := by
  have hvalue : ∀ value, Avoids cuttingMarks (valueChars value) := avoids_valueChars (by decide)
  have hinner : Avoids cuttingMarks form.inner := by
    cases form with
    | featureFirst feature op value => exact avoids_between op (avoids_feature _) (hvalue _)
    | valueFirst value op feature => exact avoids_between op (hvalue _) (avoids_feature _)
    | range first op₁ feature op₂ second =>
      exact avoids_between op₁ (hvalue _) (avoids_between op₂ (avoids_feature _) (hvalue _))
  exact Avoids.append (a := ['(']) (by decide) (hinner.append (b := [')']) (by decide))

theorem fragment_condition (form : ConditionForm) : Fragment form.chars where
  trimmed := trimmed_parentheses form.inner
  noOr := not_infix_of_not_mem fun h => avoids_chars form 'o' h (by decide)
  noComma h := avoids_chars form ',' h (by decide)

theorem fragment_mediaType (mediaType : MediaType) : Fragment mediaType.chars where
  trimmed := by apply Trimmed.of_all <;> cases mediaType <;> decide
  noOr := by cases mediaType <;> decide +kernel
  noComma := by cases mediaType <;> decide +kernel

theorem fragment_modifier (modifier : Modifier) : Fragment modifier.chars where
  trimmed := by apply Trimmed.of_all <;> cases modifier <;> decide
  noOr := by cases modifier <;> decide +kernel
  noComma := by cases modifier <;> decide +kernel

theorem not_and_infix_condition (form : ConditionForm) : ¬"and".toList <:+: form.chars :=
  not_infix_of_not_mem fun h => avoids_chars form 'a' h (by decide)

theorem not_and_infix_mediaType (mediaType : MediaType) : ¬"and".toList <:+: mediaType.chars := by
  cases mediaType <;> decide +kernel

namespace QueryForm
variable (q : QueryForm)

theorem forall_mem_parts {p : List Char → Prop} (hm : ∀ mediaType : MediaType, p mediaType.chars)
    (hc : ∀ form : ConditionForm, p form.chars) : ∀ part ∈ q.parts, p part := by
  intro part hpart
  rcases List.mem_append.mp hpart with h | h
  · obtain ⟨mediaType, -, rfl⟩ := List.mem_map.mp h
    exact hm mediaType
  · obtain ⟨form, -, rfl⟩ := List.mem_map.mp h
    exact hc form

theorem parts_ne_nil : q.parts ≠ [] := by
  rcases q.nonempty with h | h
  · obtain ⟨mediaType, hmedia⟩ := Option.ne_none_iff_exists'.mp h
    simp [parts, hmedia]
  · simp [parts, h]

end QueryForm

theorem fragment_intercalate {part : List Char} {parts : List (List Char)}
    (h : ∀ p ∈ part :: parts, Fragment p) :
    Fragment (conjunction.intercalate (part :: parts)) := by
  have hand : Fragment "and".toList := ⟨.of_all (by decide) (by decide), by decide, by decide⟩
  induction parts generalizing part with
  | nil => simpa using h
  | cons next parts ih =>
    have hrest := ih fun p hp => h p (List.mem_cons_of_mem _ hp)
    have htext : conjunction.intercalate (part :: next :: parts) =
        part ++ ' ' :: ("and".toList ++ ' ' :: conjunction.intercalate (next :: parts)) := by
      simp [List.intercalate_cons_cons, conjunction]
    rw [htext]
    exact (h part (List.mem_cons_self ..)).append (hand.append hrest)

theorem fragment_body (q : QueryForm) : Fragment q.body := by
  obtain ⟨part, parts, hparts⟩ := List.exists_cons_of_ne_nil q.parts_ne_nil
  have hall := q.forall_mem_parts fragment_mediaType fragment_condition
  rw [hparts] at hall
  rw [QueryForm.body, hparts]
  exact fragment_intercalate hall

theorem fragment_query (q : QueryForm) : Fragment q.chars := by
  unfold QueryForm.chars
  split
  · exact fragment_body q
  · exact (fragment_modifier _).append (fragment_body q)

/-! ## Reading a query -/

theorem afterWord?_of_ne {c d : Char} (h : c ≠ d) (word rest : List Char) :
    afterWord? (c :: word) (d :: rest) = none := by
  simp [afterWord?, List.isPrefixOf?, h]

/-- A query that has nothing in front starts with its media type or with a parenthesis. -/
theorem exists_body_eq_cons (q : QueryForm) : ∃ c rest, q.body = c :: rest ∧ c ∉ ['n', 'o'] := by
  obtain ⟨part, parts, hparts⟩ := List.exists_cons_of_ne_nil q.parts_ne_nil
  obtain ⟨c, rest, rfl, hc⟩ : ∃ c rest, part = c :: rest ∧ c ∉ ['n', 'o'] := by
    refine q.forall_mem_parts (p := fun part => ∃ c rest, part = c :: rest ∧ c ∉ ['n', 'o'])
      ?_ ?_ part (hparts ▸ List.mem_cons_self ..)
    · rintro (_ | _) <;> exact ⟨_, _, rfl, by decide⟩
    · exact fun form => ⟨'(', _, rfl, by decide⟩
  rw [QueryForm.body, hparts]
  cases parts with
  | nil => exact ⟨c, rest, by simp, hc⟩
  | cons next parts => exact ⟨c, _, by rw [List.intercalate_cons_cons]; rfl, hc⟩

/-- What stands in front of a query is told from the query. -/
theorem exists_splitNegation_chars (q : QueryForm) :
    ∃ rest, splitNegation q.chars = (q.query.negated, rest) ∧ trim rest = q.body := by
  have hbody := (fragment_body q).trimmed
  have hblank : trim (' ' :: q.body) = q.body :=
    (trim_blanks_append (List.forall_mem_singleton.mpr rfl) q.body).trans hbody.trim_eq
  obtain ⟨c, rest, hstart, hc⟩ := exists_body_eq_cons q
  simp only [List.mem_cons, List.not_mem_nil, or_false, not_or] at hc
  unfold QueryForm.chars QueryForm.query
  cases q.modifier with
  | none =>
    -- A media type or a parenthesis is in front, so neither word can be.
    refine ⟨q.body, ?_, hbody.trim_eq⟩
    have hnot : afterWord? "not".toList q.body = none :=
      hstart ▸ afterWord?_of_ne (Ne.symm hc.1) _ rest
    have honly : afterWord? "only".toList q.body = none :=
      hstart ▸ afterWord?_of_ne (Ne.symm hc.2) _ rest
    simp only [splitNegation, hnot, honly, Option.getD_none]
    rfl
  | some modifier =>
    refine ⟨' ' :: q.body, ?_, hblank⟩
    cases modifier <;> rfl

/-- **The parts of a query are found again**, up to the blanks around them. -/
theorem map_trim_splitKeyword_body (q : QueryForm) :
    (splitKeyword "and".toList q.body).map trim = q.parts := by
  obtain ⟨part, parts, hparts⟩ := List.exists_cons_of_ne_nil q.parts_ne_nil
  have hand := q.forall_mem_parts (p := fun part => ¬"and".toList <:+: part)
    not_and_infix_mediaType not_and_infix_condition
  have htrim := q.forall_mem_parts (p := fun part => trim part = id part)
    (fun mediaType => (fragment_mediaType mediaType).trimmed.trim_eq)
    (fun form => (fragment_condition form).trimmed.trim_eq)
  have hsplit : (splitKeyword "and".toList (conjunction.intercalate (part :: parts))).map trim =
      (part :: parts).map trim :=
    map_trim_splitKeyword_intercalate (by decide) (by decide) (by decide) (hparts ▸ hand)
  calc (splitKeyword "and".toList q.body).map trim
    _ = q.parts.map trim := by rw [QueryForm.body, hparts]; exact hsplit
    _ = q.parts := by rw [List.map_congr_left htrim, List.map_id]

theorem chars_ne_mediaType (form : ConditionForm) (mediaType : MediaType) :
    form.chars ≠ mediaType.chars := by
  intro h
  cases mediaType <;> exact absurd (List.cons.inj h).1 (by decide)

/-- The conditions of a query are the parts behind its media type. -/
theorem map_trim_conditionTexts (q : QueryForm) {rest : List Char} (h : trim rest = q.body) :
    (conditionTexts rest).map trim = q.conditions.map ConditionForm.chars := by
  have hparts := map_trim_splitKeyword_body q
  rw [conditionTexts, h]
  generalize splitKeyword "and".toList q.body = pieces at hparts
  cases hmedia : q.mediaType with
  | none =>
    have hconditions : pieces.map trim = q.conditions.map ConditionForm.chars := by
      simpa [QueryForm.parts, hmedia] using hparts
    cases pieces with
    | nil => exact hconditions
    | cons piece pieces =>
      obtain ⟨form, -, hform⟩ : ∃ form ∈ q.conditions, form.chars = trim piece :=
        List.mem_map.mp (hconditions ▸ List.mem_cons_self ..)
      have hneither : ¬(trim piece = "screen".toList ∨ trim piece = "all".toList) :=
        hform ▸ not_or.mpr ⟨chars_ne_mediaType form .screen, chars_ne_mediaType form .all⟩
      rw [if_neg]
      · exact hconditions
      · simpa only [List.head?_cons, Option.any_some, Bool.or_eq_true, decide_eq_true_eq]
          using hneither
  | some mediaType =>
    have hconditions : pieces.map trim =
        mediaType.chars :: q.conditions.map ConditionForm.chars := by
      simpa [QueryForm.parts, hmedia] using hparts
    obtain ⟨piece, pieces, rfl, hpiece, hrest⟩ := List.map_eq_cons_iff.mp hconditions
    have heither : trim piece = "screen".toList ∨ trim piece = "all".toList := by
      rw [hpiece]
      cases mediaType
      · exact .inl rfl
      · exact .inr rfl
    rw [if_pos]
    · exact hrest
    · simpa only [List.head?_cons, Option.any_some, Bool.or_eq_true, decide_eq_true_eq]
        using heither

/-- **Reading a written query gives the query it stands for.** -/
theorem query_chars (q : QueryForm) : query q.chars = q.query := by
  obtain ⟨rest, hnegation, hrest⟩ := exists_splitNegation_chars q
  have hread : (conditionTexts rest).map condition? =
      q.conditions.map fun form => some form.condition := by
    calc (conditionTexts rest).map condition?
      _ = ((conditionTexts rest).map trim).map condition? := by
        rw [List.map_map]
        exact List.map_congr_left fun text _ => (condition?_trim text).symm
      _ = q.conditions.map fun form => some form.condition := by
        rw [map_trim_conditionTexts q hrest, List.map_map]
        exact List.map_congr_left fun form _ => condition?_chars form
  simp only [query, (fragment_query q).trimmed.trim_eq, hnegation, hread]
  simp [QueryForm.query, List.filterMap_map]

/-- Blanks around a query are of no account. -/
theorem query_trim (text : List Char) : query (trim text) = query text := by
  rw [query, trim_trim, query]

/-! ## Reading a list -/

/-- The pieces of a text between commas and the word `or`. -/
def queryPieces (text : List Char) : List (List Char) :=
  (text.splitOn ',').flatMap (splitKeyword "or".toList)

section Pieces

variable {front : List Char} (hcomma : ',' ∉ front) (hor : ¬"or".toList <:+: front)
include hcomma hor

theorem queryPieces_of_notInfix : queryPieces front = [front] := by
  rw [queryPieces, List.splitOn_eq_singleton hcomma, List.flatMap_singleton,
    splitKeyword_of_notInfix hor]

theorem queryPieces_comma (rest : List Char) :
    queryPieces (front ++ ',' :: rest) = front :: queryPieces rest := by
  rw [queryPieces, List.splitOn_append_cons_self_of_not_mem hcomma, List.flatMap_cons,
    splitKeyword_of_notInfix hor]
  rfl

theorem map_trim_queryPieces_or {rest : List Char}
    (hrest : ¬"or".toList <+: rest.takeWhile (· ≠ ',')) :
    (queryPieces (front ++ ' ' :: ("or".toList ++ ' ' :: rest))).map trim =
      trim front :: (queryPieces rest).map trim := by
  obtain ⟨pieces, hpieces⟩ := exists_splitOn_eq_cons ',' rest
  have htext : front ++ ' ' :: ("or".toList ++ ' ' :: rest) =
      (front ++ [' ', 'o', 'r', ' ']) ++ rest := by simp
  have hsplit : (front ++ ' ' :: ("or".toList ++ ' ' :: rest)).splitOn ',' =
      (front ++ ' ' :: ("or".toList ++ ' ' :: rest.takeWhile (· ≠ ','))) :: pieces := by
    rw [htext, splitOn_append_of_not_mem (by simp [hcomma]) hpieces]
    simp
  rw [queryPieces, hsplit, List.flatMap_cons, List.map_append,
    map_trim_splitKeyword_append (by decide) (by decide) (by decide) hor hrest, queryPieces,
    hpieces, List.flatMap_cons, List.map_append]
  rfl

end Pieces

theorem exists_restChars_eq_cons (rest : List (Separator × QueryForm)) :
    ListForm.restChars rest = [] ∨
      ∃ c more, ListForm.restChars rest = c :: more ∧ c ∉ "or".toList := by
  match rest with
  | [] => exact .inl rfl
  | (.comma _, _) :: _ => exact .inr ⟨',', _, rfl, by decide⟩
  | (.or, _) :: _ => exact .inr ⟨' ', _, rfl, by decide⟩

/-- No query starts with the word that joins queries. -/
theorem not_or_prefix_takeWhile (q : QueryForm) (rest : List (Separator × QueryForm)) :
    ¬"or".toList <+: (q.chars ++ ListForm.restChars rest).takeWhile (· ≠ ',') := by
  intro h
  have hstarts := h.trans <| List.takeWhile_prefix _
  refine (fragment_query q).noOr (List.IsPrefix.isInfix ?_)
  rcases exists_restChars_eq_cons rest with hnil | ⟨c, more, hcons, hc⟩
  · simpa [hnil] using hstarts
  · rw [hcons] at hstarts
    exact prefix_of_prefix_append_cons _ hc hstarts

theorem not_mem_and_not_infix_gap_append (gap : Gap) (q : QueryForm) :
    ',' ∉ gap ++ q.chars ∧ ¬"or".toList <:+: gap ++ q.chars := by
  have havoids : Avoids [','] gap.val := avoids_gap (by decide) gap
  have hcomma : ',' ∉ gap.val := fun h => havoids ',' h (by decide)
  exact ⟨by simp [hcomma, (fragment_query q).noComma],
    not_infix_append_of_forall_not_mem (avoids_gap (by decide) gap) (fragment_query q).noOr⟩

/-- **The queries of a list are found again**, up to the blanks around them. -/
theorem map_trim_queryPieces (gap : Gap) (q : QueryForm) (rest : List (Separator × QueryForm)) :
    (queryPieces (gap ++ (q.chars ++ ListForm.restChars rest))).map trim =
      q.chars :: rest.map (·.2.chars) := by
  -- The gap is what a comma leaves in front of the next query.
  induction rest generalizing gap q with
  | nil =>
    obtain ⟨hcomma, hor⟩ := not_mem_and_not_infix_gap_append gap q
    have htext : gap ++ (q.chars ++ ListForm.restChars []) = gap ++ q.chars := by
      simp [ListForm.restChars]
    rw [htext, queryPieces_of_notInfix hcomma hor]
    simp [trim_gap_append gap (fragment_query q).trimmed]
  | cons entry rest ih =>
    obtain ⟨hcomma, hor⟩ := not_mem_and_not_infix_gap_append gap q
    obtain ⟨separator, next⟩ := entry
    cases separator with
    | comma after =>
      have htext : gap ++ (q.chars ++ ListForm.restChars ((.comma after, next) :: rest)) =
          (gap ++ q.chars) ++ ',' :: (after ++ (next.chars ++ ListForm.restChars rest)) := by
        simp [ListForm.restChars, Separator.chars]
      rw [htext, queryPieces_comma hcomma hor, List.map_cons, ih,
        trim_gap_append gap (fragment_query q).trimmed]
      rfl
    | or =>
      have htext : gap ++ (q.chars ++ ListForm.restChars ((.or, next) :: rest)) =
          (gap ++ q.chars) ++ ' ' :: ("or".toList ++ ' ' ::
            (next.chars ++ ListForm.restChars rest)) := by
        simp [ListForm.restChars, Separator.chars]
      rw [htext, map_trim_queryPieces_or hcomma hor (not_or_prefix_takeWhile next rest),
        trim_gap_append gap (fragment_query q).trimmed]
      exact congrArg (q.chars :: ·) (ih ⟨[], by simp⟩ next)

/-! ## What a written list asks for -/

section Meaning

variable (env : MediaEnvironment)

theorem current?_of_known {feature : LengthFeature} (h : feature.Known env) :
    feature.feature.current? env = some (feature.value env) := by
  cases feature with
  | width | height => exact if_neg h
  | deviceWidth | deviceHeight => rfl

theorem current?_of_not_known {feature : LengthFeature} (h : ¬feature.Known env) :
    feature.feature.current? env = none := by
  cases feature with
  | width | height => exact if_pos (not_not.mp h)
  | deviceWidth | deviceHeight => exact absurd trivial h

/-- A sign says of its operands what its comparison does. -/
theorem holds_comparison_iff (sign : Sign) (left right : Int) :
    sign.comparison.holds left right = true ↔ sign.Holds left right := by
  cases sign <;> simp [Sign.comparison, Sign.Holds, Comparison.holds]

/-- A condition holds where its feature is known and passes the comparisons. -/
theorem holds_condition_of_feature (feature : LengthFeature)
    (comparisons : List (Comparison × Int)) :
    MediaCondition.holds ⟨feature.feature, comparisons⟩ env = true ↔
      feature.Known env ∧ ∀ c ∈ comparisons, c.1.holds (feature.value env) c.2 = true := by
  unfold MediaCondition.holds
  by_cases h : feature.Known env
  · simp only [current?_of_known env h, List.all_eq_true, h, true_and]
  · simp [current?_of_not_known env h, h]

/-- **The condition that is read holds where the written one does.** -/
theorem holds_condition_iff (form : ConditionForm) :
    form.condition.holds env = true ↔ form.Matches env := by
  cases form with
  | featureFirst feature op value =>
    rw [ConditionForm.condition, holds_condition_of_feature]
    simp [ConditionForm.Matches, holds_comparison_iff]
  | valueFirst value op feature =>
    rw [ConditionForm.condition, holds_condition_of_feature]
    simp [ConditionForm.Matches, Comparison.holds_flip, holds_comparison_iff]
  | range first op₁ feature op₂ second =>
    rw [ConditionForm.condition, holds_condition_of_feature]
    simp [ConditionForm.Matches, Comparison.holds_flip, holds_comparison_iff]

theorem holds_query_iff (q : QueryForm) : q.query.holds env = true ↔ q.Matches env := by
  have hall : (q.query.conditions.all (·.holds env)) = true ↔
      ∀ form ∈ q.conditions, form.Matches env := by
    simp [QueryForm.query, holds_condition_iff]
  have hquery : q.query.holds env = true ↔
      (q.query.conditions.all (·.holds env)) ≠ q.query.negated := by
    simp [MediaQuery.holds, QueryForm.query]
  rw [hquery, QueryForm.Matches, ← hall]
  split
  · next h => simp [QueryForm.query, h]
  · next h => simp [QueryForm.query, h]

end Meaning

theorem trimmed_restChars {front : List Char} (h : Trimmed front)
    (rest : List (Separator × QueryForm)) : Trimmed (front ++ ListForm.restChars rest) := by
  induction rest generalizing front with
  | nil => simpa [ListForm.restChars] using h
  | cons entry rest ih =>
    obtain ⟨separator, q⟩ := entry
    have hnext := ih (h.append separator.chars (fragment_query q).trimmed)
    simpa [ListForm.restChars] using hnext

/-- **A written list is read query by query.** -/
theorem queries_ofString (l : ListForm) :
    (MediaList.ofString l.text).queries = l.queries.map QueryForm.query := by
  have htrim : trim l.chars = l.chars :=
    (trimmed_restChars (fragment_query l.first).trimmed l.rest).trim_eq
  have htexts : (queryTexts l.chars).map trim = l.queries.map QueryForm.chars := by
    rw [queryTexts, htrim]
    refine (map_trim_queryPieces ⟨[], by simp⟩ l.first l.rest).trans ?_
    simp [ListForm.queries]
  calc (MediaList.ofString l.text).queries
    _ = ((queryTexts l.chars).map trim).map query := by
      rw [List.map_map, MediaList.ofString, ListForm.text, String.toList_ofList]
      exact List.map_congr_left fun text _ => (query_trim text).symm
    _ = l.queries.map QueryForm.query := by
      rw [htexts, List.map_map]
      exact List.map_congr_left fun q _ => query_chars q

/-- **Reading a written list.**  There is one query for each that is written, and it has the
conditions of that query in order; the list matches where one of the queries does. -/
theorem ListForm.ofString_text (l : ListForm) :
    (MediaList.ofString l.text).queries = l.queries.map QueryForm.query ∧
      ∀ env, (MediaList.ofString l.text).holds env = true ↔ ∃ q ∈ l.queries, q.Matches env := by
  refine ⟨queries_ofString l, fun env => ?_⟩
  simp [MediaList.holds, queries_ofString, holds_query_iff]

/-- A list with every kind of part. -/
example :
    let blank : Gap := ⟨[' '], List.forall_mem_singleton.mpr rfl⟩
    let tight : Gap := ⟨[], List.forall_mem_nil _⟩
    ListForm.text
      ⟨⟨some .not, some .screen, [.featureFirst .width ⟨tight, .colon, blank⟩ 300], by simp⟩,
        [(.or, ⟨some .only, none,
          [.valueFirst 5 ⟨blank, .moreEqual, blank⟩ .deviceHeight,
            .range (-1) ⟨blank, .less, blank⟩ .height ⟨tight, .lessEqual, tight⟩ 900 (by decide)],
          by simp⟩),
        (.comma blank, ⟨none, some .all, [], by simp⟩)]⟩ =
      "not screen and (width: 300) or " ++
        "only (5 >= device-height) and (-1 < height<=900), all" := by
  decide +kernel

end StyleCascade.Media
