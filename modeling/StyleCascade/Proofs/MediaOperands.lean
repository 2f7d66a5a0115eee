import StyleCascade.Proofs.MediaConditions

/-!
# The operands of a media condition

A single comparison has the feature on one side and a value on the other.  Whatever the feature
and the text of the value, the comparison is read with the feature on the left
(`condition?_featureFirst`, `condition?_valueFirst`), so the operands of a condition may be swapped
if the sign is turned around.  In front of the name of the feature, `min-` and `max-` make an
inequality of an equality.  That inequality has the feature on its left, but it is turned around
with the operands like one that is written: `(320: min-width)` asks for a width of at most 320,
where `(min-width: 320)` asks for at least that (`condition?_swap`).
-/
namespace StyleCascade

theorem Comparison.flip_flip (c : Comparison) : c.flip.flip = c := by
  cases c <;> rfl

namespace MediaFeature
open Text Media

/-- The name of a feature. -/
def chars : MediaFeature → List Char
  | width => "width".toList
  | height => "height".toList
  | deviceWidth => "device-width".toList
  | deviceHeight => "device-height".toList
  | resolution => "resolution".toList
  | aspectRatio => "aspect-ratio".toList
  | orientation => "orientation".toList
  | colorScheme => "prefers-color-scheme".toList

theorem ofName?_chars (feature : MediaFeature) : ofName? feature.chars = some feature := by
  cases feature <;> rfl

/-- Nothing but the names are read as features. -/
theorem ofName?_eq_none {name : List Char}
    (h : ∀ feature : MediaFeature, trim name ≠ feature.chars) : ofName? name = none := by
  have hne : ∀ feature : MediaFeature, String.ofList (trim name) ≠ String.ofList feature.chars :=
    fun feature heq => h feature (String.ofList_injective heq)
  unfold ofName?
  split
  · next heq => exact absurd heq (hne width)
  · next heq => exact absurd heq (hne height)
  · next heq => exact absurd heq (hne deviceWidth)
  · next heq => exact absurd heq (hne deviceHeight)
  · next heq => exact absurd heq (hne resolution)
  · next heq => exact absurd heq (hne aspectRatio)
  · next heq => exact absurd heq (hne orientation)
  · next heq => exact absurd heq (hne colorScheme)
  · rfl

theorem trimmed_chars (feature : MediaFeature) : Trimmed feature.chars := by
  apply Trimmed.of_all <;> cases feature <;> decide

theorem isOperand_chars (feature : MediaFeature) : IsOperand feature.chars := by
  cases feature <;> decide

theorem bound?_chars (feature : MediaFeature) : bound? feature.chars = none := by
  cases feature <;> rfl

end MediaFeature

namespace Media
open Text

/-! ## Syntax -/

/-- The sign that says the same with the operands swapped. -/
def Sign.mirror : Sign → Sign
  | colon => colon
  | equals => equals
  | less => more
  | lessEqual => moreEqual
  | more => less
  | moreEqual => lessEqual

theorem Sign.comparison_mirror (sign : Sign) : sign.mirror.comparison = sign.comparison.flip := by
  cases sign <;> rfl

/-- What may stand in front of the name of a feature. -/
inductive Bound
  | min
  | max
deriving DecidableEq, Repr

namespace Bound

def chars : Bound → List Char
  | min => "min-".toList
  | max => "max-".toList

/-- What an equality becomes, with the feature on the left. -/
def sign : Bound → Sign
  | min => .moreEqual
  | max => .lessEqual

end Bound

/-- The text of a value: without marks of operators or parentheses, it is not the name of a
feature and has no bound in front. -/
structure ValueText where
  chars : List Char
  plain : Avoids ('(' :: ')' :: operatorMarks) chars
  noName : ∀ feature : MediaFeature, trim chars ≠ feature.chars
  noBound : ∀ bound : Bound, ¬bound.chars <+: trim chars

/-- Blanks around a token. -/
structure Spacing where
  before : Gap
  after : Gap

def Spacing.around (s : Spacing) (token : List Char) : List Char :=
  s.before ++ (token ++ s.after)

/-- The text of a comparison in parentheses. -/
def comparisonText (left : List Char) (sign : Sign) (right : List Char) : List Char :=
  '(' :: (left ++ (sign.chars ++ right) ++ [')'])

/-! ## Operands -/

variable {left right text : List Char}

theorem trim_around (s : Spacing) (h : Trimmed text) : trim (s.around text) = text :=
  h.trim_append_append s.before.property s.after.property

theorem isOperand_around (s : Spacing) (h : IsOperand text) : IsOperand (s.around text) :=
  (isOperand_gap s.before).append (h.append (isOperand_gap s.after))

theorem isOperand_bound (bound : Bound) : IsOperand bound.chars := by
  cases bound <;> decide

theorem trimmed_bound (bound : Bound) (feature : MediaFeature) :
    Trimmed (bound.chars ++ feature.chars) := by
  have hbound : Trimmed bound.chars := by
    apply Trimmed.of_all <;> cases bound <;> decide
  exact hbound.append [] feature.trimmed_chars

theorem bound?_append (bound : Bound) (text : List Char) :
    bound? (bound.chars ++ text) = some (bound.sign.comparison, text) := by
  cases bound <;> rfl

theorem bound?_eq_none (h : ∀ bound : Bound, ¬bound.chars <+: text) : bound? text = none := by
  have hprefix : ∀ bound : Bound, bound.chars.isPrefixOf? text = none := by
    refine fun bound => Option.eq_none_iff_forall_ne_some.mpr fun rest hrest => ?_
    rw [List.isPrefixOf?_eq_some_iff_append_eq] at hrest
    exact h bound ⟨rest, hrest⟩
  have hmin : "min-".toList.isPrefixOf? text = none := hprefix .min
  have hmax : "max-".toList.isPrefixOf? text = none := hprefix .max
  rw [bound?, hmin, hmax]
  rfl

namespace ValueText

theorem isOperand (value : ValueText) : IsOperand value.chars := fun c hc hmark =>
  value.plain c hc (List.mem_cons_of_mem _ (List.mem_cons_of_mem _ hmark))

theorem ofName?_trim_eq_none (value : ValueText) :
    MediaFeature.ofName? (trim value.chars) = none := by
  rw [ofName?_trim]
  exact MediaFeature.ofName?_eq_none value.noName

theorem bound?_trim (value : ValueText) : bound? (trim value.chars) = none :=
  bound?_eq_none value.noBound

end ValueText

/-! ## Reading a comparison -/

/-- What the comparison of a feature with a value is read as.  An orientation is only ever equal
to a value. -/
def compared? (feature : MediaFeature) (op : Comparison) (value : ValueText) :
    Option MediaCondition :=
  (target? feature value.chars).map fun target =>
    ⟨feature, [(if feature = .orientation then .equal else op, target)]⟩

theorem conditionText?_comparisonText (hl : IsOperand left) (hr : IsOperand right) (sign : Sign) :
    conditionText? (comparisonText left sign right) = singleText? left sign.comparison right := by
  have hcut : cutOperators (left ++ (sign.chars ++ right)) =
      (left, [(sign.comparison, right)]) := by
    rw [cutOperators_append hl, cutOperators_sign sign hr.head?_ne, cutOperators_of_isOperand hr]
    simp [consOperator]
  rw [conditionText?, comparisonText, withoutParentheses_parentheses, hcut]

/-- A comparison that has been taken apart gives its condition. -/
theorem condition?_comparisonText {feature : MediaFeature} {op : Comparison} {value : ValueText}
    (hl : IsOperand left) (hr : IsOperand right) (sign : Sign)
    (h : singleText? left sign.comparison right =
      some (feature, [(if feature = .orientation then .equal else op, trim value.chars)])) :
    condition? (comparisonText left sign right) = compared? feature op value := by
  have htarget : target? feature (trim value.chars) = target? feature value.chars := by
    cases feature <;> simp only [target?, trim_trim]
  rw [condition?, conditionText?_comparisonText hl hr, h, compared?, ← htarget]
  simp only [readTargets?, bind, Option.bind]
  cases target? feature (trim value.chars) <;> rfl

variable (s : Spacing) (feature : MediaFeature) (value : ValueText)

/-- The feature stays on the left. -/
theorem condition?_featureFirst (sign : Sign) :
    condition? (comparisonText (s.around feature.chars) sign value.chars) =
      compared? feature sign.comparison value := by
  refine condition?_comparisonText (isOperand_around s feature.isOperand_chars) value.isOperand
    sign ?_
  simp only [singleText?, trim_around s feature.trimmed_chars,
    applyBound_of_bound? feature.bound?_chars value.bound?_trim, MediaFeature.ofName?_chars,
    bind, Option.bind]

/-- The feature moves to the left. -/
theorem condition?_valueFirst (sign : Sign) :
    condition? (comparisonText value.chars sign (s.around feature.chars)) =
      compared? feature sign.comparison.flip value := by
  refine condition?_comparisonText value.isOperand (isOperand_around s feature.isOperand_chars)
    sign ?_
  simp only [singleText?, trim_around s feature.trimmed_chars,
    applyBound_of_bound? value.bound?_trim feature.bound?_chars, value.ofName?_trim_eq_none,
    MediaFeature.ofName?_chars, Option.map_some, bind, Option.bind]

variable (bound : Bound)

/-- A bound in front of a feature on the left. -/
theorem condition?_boundFirst :
    condition? (comparisonText (s.around (bound.chars ++ feature.chars)) .colon value.chars) =
      compared? feature bound.sign.comparison value := by
  refine condition?_comparisonText
    (isOperand_around s ((isOperand_bound bound).append feature.isOperand_chars)) value.isOperand
    .colon ?_
  simp only [singleText?, trim_around s (trimmed_bound bound feature), applyBound,
    Sign.comparison, if_true, bound?_append, MediaFeature.ofName?_chars, bind, Option.bind]

/-- A bound in front of a feature on the right is turned around when the feature moves. -/
theorem condition?_boundLast :
    condition? (comparisonText value.chars .colon (s.around (bound.chars ++ feature.chars))) =
      compared? feature bound.sign.comparison.flip value := by
  refine condition?_comparisonText value.isOperand
    (isOperand_around s ((isOperand_bound bound).append feature.isOperand_chars)) .colon ?_
  -- The bound comes off first, and only then does the feature move to the left.
  simp only [singleText?, trim_around s (trimmed_bound bound feature), applyBound,
    Sign.comparison, if_true, value.bound?_trim, bound?_append, value.ofName?_trim_eq_none,
    MediaFeature.ofName?_chars, Option.map_some, bind, Option.bind]

/-- **The operands of a condition may be swapped** if its sign is turned around: the condition that
is read is the same, whatever the feature and the value, so it holds in the same environments.  A
bound in front of the feature is a sign with the feature on its left; with the feature on the
right, it is that sign turned around. -/
theorem condition?_swap (s' : Spacing) :
    (∀ sign : Sign,
      condition? (comparisonText (s.around feature.chars) sign value.chars) =
        compared? feature sign.comparison value ∧
      condition? (comparisonText value.chars sign.mirror (s'.around feature.chars)) =
        condition? (comparisonText (s.around feature.chars) sign value.chars)) ∧
      (∀ bound : Bound,
        condition? (comparisonText (s'.around (bound.chars ++ feature.chars)) .colon value.chars) =
          condition? (comparisonText (s.around feature.chars) bound.sign value.chars)) ∧
      ∀ bound : Bound,
        condition? (comparisonText value.chars .colon (s'.around (bound.chars ++ feature.chars))) =
          condition? (comparisonText (s.around feature.chars) bound.sign.mirror value.chars) := by
  refine ⟨fun sign => ⟨condition?_featureFirst s feature value sign, ?_⟩, fun bound => ?_,
    fun bound => ?_⟩
  · rw [condition?_valueFirst, condition?_featureFirst, Sign.comparison_mirror,
      Comparison.flip_flip]
  · rw [condition?_boundFirst, condition?_featureFirst]
  · rw [condition?_boundLast, condition?_featureFirst, Sign.comparison_mirror]

/-- The text of the value 320. -/
def narrowText : ValueText where
  chars := "320".toList
  plain := by decide
  noName feature := by cases feature <;> decide
  noBound bound := by cases bound <;> decide

/-- In the default environment the width is 360.  A bound on the left says that it is at least
320; on the right, the same bound asks for at most 320. -/
theorem holds_boundLast_narrowText :
    (condition? (comparisonText (Bound.min.chars ++ MediaFeature.width.chars) .colon
        narrowText.chars)).any (·.holds {}) = true ∧
      (condition? (comparisonText narrowText.chars .colon
        (Bound.min.chars ++ MediaFeature.width.chars))).any (·.holds {}) = false ∧
      (MediaList.ofString "(min-width: 320)").holds {} = true ∧
      (MediaList.ofString "(width >= 320)").holds {} = true ∧
      (MediaList.ofString "(320: min-width)").holds {} = false := by
  decide +kernel

end Media
end StyleCascade
