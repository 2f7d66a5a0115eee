import Mathlib.Data.List.Basic
import StyleCascade.Media.Parser
import StyleCascade.Proofs.JsonTokens
import StyleCascade.Proofs.Pieces

/-!
# Written media conditions

A `ConditionForm` is a condition on a length as it is written between its parentheses: one
comparison with the feature on the left or on the right, or two around the feature that point the
same way.  Values are integers of 64 bits in decimal, and any blanks may stand around an operator.

**Reading a written condition gives the condition it stands for** (`condition?_chars`): the feature
moves to the left, so a comparison with the value in front is turned around
(`ConditionForm.condition`).  The argument follows the text: what an operand is made of is no
operator (`cutOperators_append`), an operator is read as the longest one that stands there
(`cutOperators_sign`), and a number is read back from its digits (`length_integerChars`).
-/

namespace StyleCascade.Media
open Text

/-! ## Syntax -/

/-- Blanks between two tokens. -/
abbrev Gap := { blanks : List Char // ∀ c ∈ blanks, isBlank c }

/-- The features whose values are lengths. -/
inductive LengthFeature
  | width
  | height
  | deviceWidth
  | deviceHeight
deriving DecidableEq, Repr

namespace LengthFeature

def chars : LengthFeature → List Char
  | width => "width".toList
  | height => "height".toList
  | deviceWidth => "device-width".toList
  | deviceHeight => "device-height".toList

def feature : LengthFeature → MediaFeature
  | width => .width
  | height => .height
  | deviceWidth => .deviceWidth
  | deviceHeight => .deviceHeight

end LengthFeature

/-- The signs of a comparison.  Equality has two. -/
inductive Sign
  | colon
  | equals
  | less
  | lessEqual
  | more
  | moreEqual
deriving DecidableEq, Repr

namespace Sign

def chars : Sign → List Char
  | colon => [':']
  | equals => ['=', '=']
  | less => ['<']
  | lessEqual => ['<', '=']
  | more => ['>']
  | moreEqual => ['>', '=']

def comparison : Sign → Comparison
  | colon | equals => .equal
  | less => .less
  | lessEqual => .lessEqual
  | more => .more
  | moreEqual => .moreEqual

/-- Whether two signs both ask for ascending or both for descending operands. -/
def SameWay (a b : Sign) : Prop :=
  (a ∈ [less, lessEqual] ∧ b ∈ [less, lessEqual]) ∨
    (a ∈ [more, moreEqual] ∧ b ∈ [more, moreEqual])

instance (a b : Sign) : Decidable (SameWay a b) :=
  inferInstanceAs (Decidable (_ ∨ _))

end Sign

/-- A sign with the blanks around it. -/
structure SpacedSign where
  before : Gap
  sign : Sign
  after : Gap

/-- A condition as it is written. -/
inductive ConditionForm
  | featureFirst (feature : LengthFeature) (op : SpacedSign) (value : Int64)
  | valueFirst (value : Int64) (op : SpacedSign) (feature : LengthFeature)
  | range (first : Int64) (op₁ : SpacedSign) (feature : LengthFeature) (op₂ : SpacedSign)
      (second : Int64) (sameWay : op₁.sign.SameWay op₂.sign)

/-- The text of a value. -/
def valueChars (value : Int64) : List Char :=
  Json.integerChars value.toInt

namespace SpacedSign

/-- The text of two operands with a sign between them. -/
def between (op : SpacedSign) (left right : List Char) : List Char :=
  (left ++ op.before) ++ (op.sign.chars ++ (op.after ++ right))

end SpacedSign

namespace ConditionForm

/-- The text between the parentheses. -/
def inner : ConditionForm → List Char
  | featureFirst feature op value => op.between feature.chars (valueChars value)
  | valueFirst value op feature => op.between (valueChars value) feature.chars
  | range first op₁ feature op₂ second _ =>
    op₁.between (valueChars first) (op₂.between feature.chars (valueChars second))

/-- The text of a condition. -/
def chars (form : ConditionForm) : List Char :=
  '(' :: (form.inner ++ [')'])

/-- The condition that is written. -/
def condition : ConditionForm → MediaCondition
  | featureFirst feature op value => ⟨feature.feature, [(op.sign.comparison, value.toInt)]⟩
  | valueFirst value op feature => ⟨feature.feature, [(op.sign.comparison.flip, value.toInt)]⟩
  | range first op₁ feature op₂ second _ =>
    ⟨feature.feature,
      [(op₁.sign.comparison.flip, first.toInt), (op₂.sign.comparison, second.toInt)]⟩

end ConditionForm

/-! ## Numbers -/

theorem numberOfDigits_toDigits (n : Nat) : numberOfDigits (Nat.toDigits 10 n) = n :=
  Nat.ofDigitChars_ten_toDigits

theorem splitSign_toDigits (n : Nat) :
    splitSign (Nat.toDigits 10 n) = (false, Nat.toDigits 10 n) := by
  have hdigit := fun c (hc : c ∈ Nat.toDigits 10 n) => Json.isDigit_of_mem_toDigits hc
  unfold splitSign
  split
  · next heq => exact absurd (hdigit '-' (heq ▸ List.mem_cons_self ..)) (by decide)
  · next heq => exact absurd (hdigit '+' (heq ▸ List.mem_cons_self ..)) (by decide)
  · rfl

/-- **An integer of 64 bits is read back from its text.** -/
theorem int64?_integerChars {i : Int} (hlow : Json.leastInt64 ≤ i)
    (hhigh : i ≤ Json.greatestInt64) : int64? (Json.integerChars i) = some i := by
  have hdigits : ((Nat.toDigits 10 i.natAbs).isEmpty ||
      !(Nat.toDigits 10 i.natAbs).all Char.isDigit) = false := by
    have hall : (Nat.toDigits 10 i.natAbs).all Char.isDigit = true :=
      List.all_eq_true.mpr fun c hc => Json.isDigit_of_mem_toDigits hc
    simp [hall, Nat.toDigits_ne_nil]
  unfold Json.integerChars
  split
  · next hneg =>
    have habs : -(i.natAbs : Int) = i := by omega
    simp only [int64?, splitSign, hdigits, numberOfDigits_toDigits, habs]
    simp [hlow, hhigh]
  · next hneg =>
    have habs : (i.natAbs : Int) = i := by omega
    simp only [int64?, splitSign_toDigits, hdigits, numberOfDigits_toDigits, habs]
    simp [hlow, hhigh]

/-- A number consists of digits, perhaps after a minus sign. -/
theorem of_mem_integerChars {i : Int} {c : Char} (h : c ∈ Json.integerChars i) :
    c = '-' ∨ c.isDigit = true := by
  unfold Json.integerChars at h
  split at h
  · rcases List.mem_cons.mp h with rfl | h
    · exact .inl rfl
    · exact .inr (Json.isDigit_of_mem_toDigits h)
  · exact .inr (Json.isDigit_of_mem_toDigits h)

/-- A number ends with a digit. -/
theorem exists_integerChars_eq_concat (i : Int) :
    ∃ front d, Json.integerChars i = front ++ [d] ∧ d.isDigit = true := by
  have hne : Nat.toDigits 10 i.natAbs ≠ [] := Nat.toDigits_ne_nil
  have hlast := Json.isDigit_of_mem_toDigits (List.getLast_mem hne)
  have hconcat := (List.dropLast_concat_getLast hne).symm
  unfold Json.integerChars
  split
  · exact ⟨'-' :: _, _, congrArg (List.cons '-') hconcat, hlast⟩
  · exact ⟨_, _, hconcat, hlast⟩

theorem ne_of_mem_integerChars {i : Int} {c d : Char} (h : c ∈ Json.integerChars i)
    (hminus : d ≠ '-') (hdigit : d.isDigit = false) : c ≠ d := by
  rintro rfl
  rcases of_mem_integerChars h with rfl | hc
  · exact hminus rfl
  · simp [hdigit] at hc

theorem isBlank_of_mem_integerChars {i : Int} {c : Char} (h : c ∈ Json.integerChars i) :
    isBlank c = false := by
  rcases of_mem_integerChars h with rfl | hc
  · decide
  · have := Json.toNat_of_isDigit hc
    simp only [isBlank, Bool.or_eq_false_iff, Bool.and_eq_false_iff, decide_eq_false_iff_not]
    omega

theorem trimmed_integerChars (i : Int) : Trimmed (Json.integerChars i) := by
  obtain ⟨front, d, hi, -⟩ := exists_integerChars_eq_concat i
  exact .of_forall (by simp [hi]) fun c hc => isBlank_of_mem_integerChars hc

theorem trimmed_valueChars (value : Int64) : Trimmed (valueChars value) :=
  trimmed_integerChars value.toInt

/-- A number has no unit behind it. -/
theorem dropRepeated_integerChars (tail : List Char) {unit : Char} (i : Int)
    (hunit : unit.isDigit = false) :
    dropRepeated (tail ++ [unit]) (Json.integerChars i) = Json.integerChars i := by
  have hsuffix : (tail ++ [unit]).isSuffixOf? (Json.integerChars i) = none := by
    refine Option.eq_none_iff_forall_ne_some.mpr fun rest hrest => ?_
    obtain ⟨front, d, hi, hd⟩ := exists_integerChars_eq_concat i
    rw [List.isSuffixOf?_eq_some_iff_append_eq, ← List.append_assoc, hi] at hrest
    obtain ⟨-, rfl⟩ := List.append_singleton_inj.mp hrest
    simp [hunit] at hd
  rw [dropRepeated]
  cases (Json.integerChars i).length with
  | zero => rfl
  | succ count => rw [dropTails, hsuffix]

/-- **A value is read back from its text.** -/
theorem length_valueChars (value : Int64) : length (valueChars value) = value.toInt := by
  have hbare : bareNumber (valueChars value) = valueChars value := by
    have htrim := (trimmed_valueChars value).trim_eq
    have hpx : dropRepeated "px".toList (valueChars value) = valueChars value :=
      dropRepeated_integerChars ['p'] value.toInt rfl
    have hdp : dropRepeated "dp".toList (valueChars value) = valueChars value :=
      dropRepeated_integerChars ['d'] value.toInt rfl
    rw [bareNumber, htrim, hpx, hdp, htrim]
  have hread : int64? (valueChars value) = some value.toInt :=
    int64?_integerChars value.le_toInt (Int.le_of_lt_add_one value.toInt_lt)
  rw [length, length?, hbare, hread]
  rfl

/-! ## Operands and operators -/

/-- A text without the marks. -/
def Avoids (marks text : List Char) : Prop :=
  ∀ c ∈ text, c ∉ marks

instance (marks text : List Char) : Decidable (Avoids marks text) :=
  List.decidableBAll (· ∉ marks) text

theorem Avoids.append {marks a b : List Char} (ha : Avoids marks a) (hb : Avoids marks b) :
    Avoids marks (a ++ b) :=
  List.forall_mem_append.mpr ⟨ha, hb⟩

theorem avoids_gap {marks : List Char} (h : marks.all (!isBlank ·) = true) (gap : Gap) :
    Avoids marks gap := by
  intro c hc hmark
  have hblank : isBlank c = false := by simpa using List.all_eq_true.mp h c hmark
  simpa [hblank] using gap.property c hc

theorem avoids_valueChars {marks : List Char}
    (h : marks.all (fun mark => mark ≠ '-' && !mark.isDigit) = true) (value : Int64) :
    Avoids marks (valueChars value) := by
  intro c hc hmark
  obtain ⟨hminus, hdigit⟩ : c ≠ '-' ∧ c.isDigit = false := by
    simpa using List.all_eq_true.mp h c hmark
  exact ne_of_mem_integerChars hc hminus hdigit rfl

/-- The characters that operators are made of. -/
def operatorMarks : List Char := ['<', '>', '=', ':']

/-- A text in which no operator starts. -/
abbrev IsOperand (text : List Char) : Prop :=
  Avoids operatorMarks text

theorem isOperand_gap (gap : Gap) : IsOperand gap :=
  avoids_gap (by decide) gap

theorem isOperand_valueChars (value : Int64) : IsOperand (valueChars value) :=
  avoids_valueChars (by decide) value

theorem isOperand_chars (feature : LengthFeature) : IsOperand feature.chars := by
  cases feature <;> decide

theorem cutOperators_cons {c : Char} {rest : List Char} (h : c ∉ operatorMarks) :
    cutOperators (c :: rest) = consOperand c (cutOperators rest) := by
  simp only [operatorMarks, List.mem_cons, List.not_mem_nil, or_false, not_or] at h
  rw [cutOperators]
  all_goals simp_all

theorem cutOperators_append {front : List Char} (h : IsOperand front) (rest : List Char) :
    cutOperators (front ++ rest) =
      (front ++ (cutOperators rest).1, (cutOperators rest).2) := by
  induction front with
  | nil => rfl
  | cons c front ih =>
    obtain ⟨hc, hfront⟩ := List.forall_mem_cons.mp h
    rw [List.cons_append, cutOperators_cons hc, ih hfront]
    rfl

theorem cutOperators_of_isOperand {text : List Char} (h : IsOperand text) :
    cutOperators text = (text, []) := by
  simpa [cutOperators] using cutOperators_append h []

/-- **A sign is read whole**, unless an equality sign behind it would make it longer. -/
theorem cutOperators_sign (sign : Sign) {rest : List Char} (h : rest.head? ≠ some '=') :
    cutOperators (sign.chars ++ rest) = consOperator sign.comparison (cutOperators rest) := by
  cases sign with
  | colon | equals | lessEqual | moreEqual => rfl
  | less | more =>
    cases rest with
    | nil => rfl
    | cons c rest =>
      have hc : c ≠ '=' := fun heq => h (heq ▸ rfl)
      simp [Sign.chars, Sign.comparison, cutOperators, hc]

/-- What stands on either side of a sign. -/
theorem cutOperators_between (op : SpacedSign) {left right : List Char} (hl : IsOperand left)
    (hr : right.head? ≠ some '=') :
    cutOperators (op.between left right) =
      (left ++ op.before,
        (op.sign.comparison, op.after ++ (cutOperators right).1) :: (cutOperators right).2) := by
  have hhead : (op.after.val ++ right).head? ≠ some '=' := by
    cases hgap : op.after.val with
    | nil => exact hr
    | cons c gap =>
      intro heq
      have hblank := op.after.property c (hgap ▸ List.mem_cons_self ..)
      obtain rfl : c = '=' := Option.some.inj heq
      exact absurd hblank (by decide)
  rw [SpacedSign.between, cutOperators_append (hl.append (isOperand_gap _)),
    cutOperators_sign _ hhead, cutOperators_append (isOperand_gap _)]
  simp [consOperator]

theorem IsOperand.head?_ne {text : List Char} (h : IsOperand text) : text.head? ≠ some '=' := by
  intro heq
  exact h '=' (List.mem_of_mem_head? heq) (by decide)

/-! ## Reading a condition -/

theorem trim_gap_append (gap : Gap) {text : List Char} (h : Trimmed text) :
    trim (gap ++ text) = text :=
  (trim_blanks_append gap.property text).trans h.trim_eq

theorem trim_append_gap (gap : Gap) {text : List Char} (h : Trimmed text) :
    trim (text ++ gap) = text :=
  (trim_append_blanks gap.property text).trans h.trim_eq

theorem trimmed_chars (feature : LengthFeature) : Trimmed feature.chars := by
  apply Trimmed.of_all <;> cases feature <;> decide

/-- A value is not the name of a feature. -/
theorem ofName?_valueChars (value : Int64) : MediaFeature.ofName? (valueChars value) = none := by
  obtain ⟨front, d, hvalue, hd⟩ := exists_integerChars_eq_concat value.toInt
  have hne : ∀ name : String, name.toList.all (!Char.isDigit ·) = true →
      String.ofList (trim (valueChars value)) ≠ name := by
    rintro name hname rfl
    rw [String.toList_ofList, (trimmed_valueChars value).trim_eq, valueChars, hvalue] at hname
    have hlast := List.all_eq_true.mp hname d (by simp)
    simp [hd] at hlast
  unfold MediaFeature.ofName?
  split
  all_goals first
    | next heq => exact absurd heq (hne _ (by decide))
    | rfl

theorem ofName?_chars (feature : LengthFeature) :
    MediaFeature.ofName? feature.chars = some feature.feature := by
  cases feature <;> rfl

theorem ofName?_trim (name : List Char) :
    MediaFeature.ofName? (trim name) = MediaFeature.ofName? name := by
  rw [MediaFeature.ofName?, trim_trim, MediaFeature.ofName?]

/-- Only a text that starts like `min-` or `max-` holds a bound. -/
theorem bound?_of_head? {text : List Char} (h : text.head? ≠ some 'm') : bound? text = none := by
  cases text with
  | nil => rfl
  | cons c rest =>
    have hc : 'm' ≠ c := fun heq => h (heq ▸ rfl)
    simp [bound?, List.isPrefixOf?, hc]

theorem bound?_valueChars (value : Int64) : bound? (valueChars value) = none :=
  bound?_of_head? fun h =>
    ne_of_mem_integerChars (List.mem_of_mem_head? h) (by decide) (by decide) rfl

theorem bound?_chars (feature : LengthFeature) : bound? feature.chars = none := by
  cases feature <;> rfl

theorem applyBound_of_bound? {left right : List Char} (hl : bound? left = none)
    (hr : bound? right = none) (op : Comparison) :
    applyBound left op right = (left, op, right) := by
  unfold applyBound
  split
  · rw [hl, hr]
  · rfl

theorem target?_feature (feature : LengthFeature) (text : List Char) :
    target? feature.feature text = some (length (trim text)) := by
  cases feature <;> rfl

theorem feature_ne_orientation (feature : LengthFeature) : feature.feature ≠ .orientation := by
  cases feature <;> decide

theorem singleText?_featureFirst (feature : LengthFeature) (op : SpacedSign) (value : Int64) :
    singleText? (feature.chars ++ op.before) op.sign.comparison (op.after ++ valueChars value) =
      some (feature.feature, [(op.sign.comparison, valueChars value)]) := by
  simp only [singleText?, trim_append_gap _ (trimmed_chars feature),
    trim_gap_append _ (trimmed_valueChars value),
    applyBound_of_bound? (bound?_chars feature) (bound?_valueChars value), ofName?_chars,
    bind, Option.bind, feature_ne_orientation, if_false]

theorem singleText?_valueFirst (value : Int64) (op : SpacedSign) (feature : LengthFeature) :
    singleText? (valueChars value ++ op.before) op.sign.comparison (op.after ++ feature.chars) =
      some (feature.feature, [(op.sign.comparison.flip, valueChars value)]) := by
  simp only [singleText?, trim_append_gap _ (trimmed_valueChars value),
    trim_gap_append _ (trimmed_chars feature),
    applyBound_of_bound? (bound?_valueChars value) (bound?_chars feature), ofName?_valueChars,
    ofName?_chars, Option.map_some, bind, Option.bind, feature_ne_orientation, if_false]

theorem Sign.SameWay.comparison {a b : Sign} (h : a.SameWay b) :
    ((a.comparison.isLess && b.comparison.isLess) ||
      (a.comparison.isMore && b.comparison.isMore)) = true := by
  revert h
  cases a <;> cases b <;> decide

theorem rangeText?_range {first second : List Char} {op₁ op₂ : SpacedSign} (feature : LengthFeature)
    (sameWay : op₁.sign.SameWay op₂.sign) :
    rangeText? first op₁.sign.comparison (op₁.after ++ (feature.chars ++ op₂.before))
        op₂.sign.comparison second =
      some (feature.feature,
        [(op₁.sign.comparison.flip, first), (op₂.sign.comparison, second)]) := by
  have hname : MediaFeature.ofName? (op₁.after ++ (feature.chars ++ op₂.before)) =
      some feature.feature := by
    rw [← ofName?_trim, (trimmed_chars feature).trim_append_append op₁.after.property
      op₂.before.property, ofName?_chars]
  rw [rangeText?, if_pos sameWay.comparison, hname]
  rfl

theorem trimmed_parentheses (inner : List Char) : Trimmed ('(' :: (inner ++ [')'])) :=
  ⟨⟨'(', _, rfl, by decide⟩, ⟨'(' :: inner, ')', rfl, by decide⟩⟩

theorem withoutParentheses_parentheses (inner : List Char) :
    withoutParentheses ('(' :: (inner ++ [')'])) = inner := by
  have henclosed : enclosed ['('] [')'] ('(' :: (inner ++ [')'])) = some inner :=
    enclosed_eq_some_iff.mpr rfl
  rw [withoutParentheses, (trimmed_parentheses inner).trim_eq, henclosed]
  rfl

theorem head?_between (feature : LengthFeature) (op : SpacedSign) (right : List Char) :
    (op.between feature.chars right).head? ≠ some '=' := by
  obtain ⟨c, name, hname, -⟩ := (trimmed_chars feature).starts
  have hhead := (isOperand_chars feature).head?_ne
  rw [hname] at hhead
  rw [SpacedSign.between, hname]
  exact hhead

/-- The operands of a written condition, still with the blanks around them. -/
theorem conditionText?_chars (form : ConditionForm) : ∃ comparisons,
    conditionText? form.chars = some (form.condition.feature, comparisons) ∧
      comparisons.map (fun c => (c.1, length (trim c.2))) = form.condition.comparisons := by
  rw [conditionText?, ConditionForm.chars, withoutParentheses_parentheses]
  cases form with
  | featureFirst feature op value =>
    refine ⟨[(op.sign.comparison, valueChars value)], ?_, ?_⟩
    · have hvalue := isOperand_valueChars value
      rw [ConditionForm.inner, cutOperators_between op (isOperand_chars feature) hvalue.head?_ne,
        cutOperators_of_isOperand hvalue]
      exact singleText?_featureFirst feature op value
    · simp [(trimmed_valueChars value).trim_eq, length_valueChars, ConditionForm.condition]
  | valueFirst value op feature =>
    refine ⟨[(op.sign.comparison.flip, valueChars value)], ?_, ?_⟩
    · have hname := isOperand_chars feature
      rw [ConditionForm.inner, cutOperators_between op (isOperand_valueChars value) hname.head?_ne,
        cutOperators_of_isOperand hname]
      exact singleText?_valueFirst value op feature
    · simp [(trimmed_valueChars value).trim_eq, length_valueChars, ConditionForm.condition]
  | range first op₁ feature op₂ second sameWay =>
    -- The operands of a range are not trimmed before they are read.
    refine ⟨[(op₁.sign.comparison.flip, valueChars first ++ op₁.before),
      (op₂.sign.comparison, op₂.after ++ valueChars second)], ?_, ?_⟩
    · have hsecond := isOperand_valueChars second
      rw [ConditionForm.inner,
        cutOperators_between op₁ (isOperand_valueChars first) (head?_between feature op₂ _),
        cutOperators_between op₂ (isOperand_chars feature) hsecond.head?_ne,
        cutOperators_of_isOperand hsecond]
      exact rangeText?_range feature sameWay
    · simp [trim_append_gap _ (trimmed_valueChars first),
        trim_gap_append _ (trimmed_valueChars second), length_valueChars, ConditionForm.condition]

theorem exists_feature_condition (form : ConditionForm) :
    ∃ feature : LengthFeature, form.condition.feature = feature.feature := by
  cases form <;> exact ⟨_, rfl⟩

theorem readTargets?_feature (feature : LengthFeature)
    (comparisons : List (Comparison × List Char)) :
    readTargets? feature.feature comparisons =
      some (comparisons.map fun c => (c.1, length (trim c.2))) := by
  induction comparisons with
  | nil => rfl
  | cons c comparisons ih =>
    simp only [readTargets?, target?_feature, ih, bind, Option.bind, List.map_cons]
    rfl

/-- **Reading a written condition gives the condition it stands for.** -/
theorem condition?_chars (form : ConditionForm) : condition? form.chars = some form.condition := by
  obtain ⟨comparisons, htext, hcomparisons⟩ := conditionText?_chars form
  obtain ⟨feature, hfeature⟩ := exists_feature_condition form
  simp only [condition?, htext, hfeature, readTargets?_feature, hcomparisons, bind, Option.bind]
  rw [← hfeature]
  rfl

/-- Blanks around a condition are of no account. -/
theorem condition?_trim (text : List Char) : condition? (trim text) = condition? text := by
  simp only [condition?, conditionText?, withoutParentheses, trim_trim]

end StyleCascade.Media
