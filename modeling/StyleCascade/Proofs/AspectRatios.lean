import Mathlib.Algebra.Order.Field.Rat
import Mathlib.Algebra.Order.Ring.Basic
import Mathlib.Tactic.FieldSimp
import Mathlib.Tactic.Ring
import StyleCascade.Proofs.MediaGrammar
import StyleCascade.Proofs.MediaOperands

/-!
# Aspect ratios

A condition on the aspect ratio compares two ratios that are scaled and cut to integers apart from
each other.  Both go through the same arithmetic of 64 bits (`scaledRatio?`).  For a viewport it
always succeeds, and for a written ratio it fails only where the scaled width does not fit.

Cutting keeps the order of the ratios (`tdiv_le_tdiv_of_div_le`), whatever the signs.  So a ratio
that is met, or a bound that is kept, is never denied because of the cut
(`holds_ofString_ratioText`).
-/
namespace StyleCascade.Media
open Text MediaFeature

/-! ## Cutting quotients -/

/-- A common factor of any sign cancels. -/
theorem mul_tdiv_mul_of_ne_zero (a b : ℤ) {k : ℤ} (hk : k ≠ 0) :
    (a * k).tdiv (b * k) = a.tdiv b := by
  rcases lt_or_gt_of_ne hk with hneg | hpos
  · rw [← Int.neg_tdiv_neg, ← Int.mul_neg, ← Int.mul_neg,
      Int.mul_tdiv_mul_of_pos_left _ _ (Int.neg_pos_of_neg hneg)]
  · exact Int.mul_tdiv_mul_of_pos_left _ _ hpos

/-- **Cutting toward zero keeps the order of quotients.**  Over a common denominator, which may be
taken as a square, the numerators are in the order of the quotients. -/
theorem tdiv_le_tdiv_of_div_le {a b c d : ℤ} (hb : b ≠ 0) (hd : d ≠ 0)
    (h : (a : ℚ) / b ≤ c / d) : a.tdiv b ≤ c.tdiv d := by
  have hbq : (b : ℚ) ≠ 0 := Int.cast_ne_zero.mpr hb
  have hdq : (d : ℚ) ≠ 0 := Int.cast_ne_zero.mpr hd
  have hnumerators : a * (b * d ^ 2) ≤ c * (d * b ^ 2) := by
    have hscaled := mul_le_mul_of_nonneg_right h (sq_nonneg ((b : ℚ) * d))
    have hleft : (a : ℚ) / b * (b * d) ^ 2 = a * (b * d ^ 2) := by field_simp
    have hright : (c : ℚ) / d * (b * d) ^ 2 = c * (d * b ^ 2) := by field_simp
    rw [hleft, hright] at hscaled
    exact_mod_cast hscaled
  have hcommon : 0 < (b * d) ^ 2 := sq_pos_of_ne_zero (mul_ne_zero hb hd)
  have hleft : (b * d) ^ 2 = b * (b * d ^ 2) := by ring
  have hright : (b * d) ^ 2 = d * (d * b ^ 2) := by ring
  calc a.tdiv b
    _ = (a * (b * d ^ 2)).tdiv ((b * d) ^ 2) := by
      rw [hleft, mul_tdiv_mul_of_ne_zero a b (mul_ne_zero hb (pow_ne_zero 2 hd))]
    _ ≤ (c * (d * b ^ 2)).tdiv ((b * d) ^ 2) := Int.tdiv_le_tdiv hcommon hnumerators
    _ = c.tdiv d := by
      rw [hright, mul_tdiv_mul_of_ne_zero c d (mul_ne_zero hd (pow_ne_zero 2 hb))]

/-! ## Arithmetic of 64 bits -/

/-- Whether a number is an integer of 64 bits. -/
def Fits (i : Int) : Prop :=
  Json.leastInt64 ≤ i ∧ i ≤ Json.greatestInt64

instance (i : Int) : Decidable (Fits i) :=
  inferInstanceAs (Decidable (_ ∧ _))

theorem checked_eq (i : Int) : checked i = if Fits i then some i else none :=
  rfl

/-- A ratio, scaled and cut to an integer; `none` if there is a division by zero, or if the product
or the quotient leaves 64 bits. -/
def scaledRatio? (above below : Int) : Option Int :=
  if below = 0 then none
  else (checked (ratioScale * above)).bind fun product => checked (product.tdiv below)

section ScaledRatio
variable {above below : Int}

/-- The least integer is not a multiple of the scale, so a quotient fits where its product does. -/
theorem fits_tdiv (h : Fits (ratioScale * above)) (below : Int) :
    Fits ((ratioScale * above).tdiv below) := by
  have habs := Int.natAbs_tdiv_le_natAbs (ratioScale * above) below
  simp only [Fits, ratioScale, Json.leastInt64, Json.greatestInt64] at h habs ⊢
  omega

theorem scaledRatio?_of_fits (hbelow : below ≠ 0) (h : Fits (ratioScale * above)) :
    scaledRatio? above below = some ((ratioScale * above).tdiv below) := by
  rw [scaledRatio?, if_neg hbelow, checked_eq, if_pos h, Option.bind_some, checked_eq,
    if_pos (fits_tdiv h below)]

/-- Only the product can leave 64 bits. -/
theorem scaledRatio?_eq (hbelow : below ≠ 0) : scaledRatio? above below =
    if Fits (ratioScale * above) then some ((ratioScale * above).tdiv below) else none := by
  split
  · next h => exact scaledRatio?_of_fits hbelow h
  · next h => rw [scaledRatio?, if_neg hbelow, checked_eq, if_neg h, Option.bind_none]

end ScaledRatio

/-- The scaled width of a viewport fits. -/
theorem fits_viewport (width : Int32) : Fits (ratioScale * width.toInt) := by
  have hlow := width.le_toInt
  have hhigh := width.toInt_lt
  simp only [Fits, ratioScale, Json.leastInt64, Json.greatestInt64]
  omega

theorem toInt_ne_zero {x : Int32} (h : x ≠ 0) : x.toInt ≠ 0 :=
  fun heq => h (Int32.toInt_inj.mp heq)

theorem toInt64_ne_zero {x : Int64} (h : x ≠ 0) : x.toInt ≠ 0 :=
  fun heq => h (Int64.toInt_inj.mp heq)

/-- **The ratio of a viewport** is known unless the height is zero. -/
theorem current?_aspectRatio (env : MediaEnvironment) :
    MediaFeature.aspectRatio.current? env = if env.viewportHeight = 0 then none
      else scaledRatio? env.viewportWidth.toInt env.viewportHeight.toInt := by
  rw [current?]
  split
  · rfl
  · next h => rw [scaledRatio?_of_fits (toInt_ne_zero h) (fits_viewport _)]

/-! ## Written ratios -/

/-- The text of a ratio. -/
def ratioChars (w h : Int64) : List Char :=
  valueChars w ++ '/' :: valueChars h

theorem trimmed_ratioChars (w h : Int64) : Trimmed (ratioChars w h) :=
  (trimmed_valueChars w).append ['/'] (trimmed_valueChars h)

theorem avoids_ratioChars {marks : List Char}
    (hmarks : marks.all (fun mark => mark ≠ '-' && !mark.isDigit) = true) (hstroke : '/' ∉ marks)
    (w h : Int64) : Avoids marks (ratioChars w h) := by
  have hbelow : Avoids marks ('/' :: valueChars h) :=
    List.forall_mem_cons.mpr ⟨hstroke, avoids_valueChars hmarks h⟩
  exact (avoids_valueChars hmarks w).append hbelow

theorem trim_blank_ratioChars (w h : Int64) : trim (' ' :: ratioChars w h) = ratioChars w h :=
  trim_gap_append ⟨[' '], List.forall_mem_singleton.mpr rfl⟩ (trimmed_ratioChars w h)

/-- **The target of a written ratio.**  A ratio with a zero below is zero. -/
theorem target?_ratioChars (w h : Int64) : target? .aspectRatio (ratioChars w h) =
    if h = 0 then some 0 else scaledRatio? w.toInt h.toInt := by
  have hcut : cutAt '/' (ratioChars w h) = some (valueChars w, valueChars h) := by
    refine cutAt_append_cons (fun hmem => ?_) _
    exact @avoids_valueChars ['/'] (by decide) w '/' hmem (by decide)
  have hzero : h.toInt = 0 ↔ h = 0 := ⟨fun heq => Int64.toInt_inj.mp heq, fun heq => heq ▸ rfl⟩
  simp only [target?, (trimmed_ratioChars w h).trim_eq, aspectRatio?, hcut, length_valueChars,
    scaledRatio?, hzero]
  split <;> rfl

/-- A ratio behind a blank, as the value of a condition. -/
def ratioValue (w h : Int64) : ValueText where
  chars := ' ' :: ratioChars w h
  plain := List.forall_mem_cons.mpr ⟨by decide, avoids_ratioChars (by decide) (by decide) w h⟩
  noName feature heq := by
    -- A name has no stroke.
    have hstroke : '/' ∈ feature.chars := by
      rw [← heq, trim_blank_ratioChars]
      exact List.mem_append_right _ List.mem_cons_self
    revert hstroke
    cases feature <;> decide
  noBound bound hbound := by
    have hm : 'm' ∈ ratioChars w h := by
      rw [trim_blank_ratioChars] at hbound
      refine hbound.subset ?_
      cases bound <;> decide
    exact @avoids_ratioChars ['m'] (by decide) (by decide) w h 'm' hm (by decide)

/-- A token may stand without blanks around it. -/
theorem exists_spacing_around_eq : ∃ s : Spacing, ∀ token, s.around token = token :=
  ⟨⟨⟨[], List.forall_mem_nil _⟩, ⟨[], List.forall_mem_nil _⟩⟩, fun token => List.append_nil token⟩

/-- The text of a condition on the aspect ratio, perhaps with a bound. -/
def ratioConditionChars (bound : Option Bound) (w h : Int64) : List Char :=
  comparisonText (bound.elim [] Bound.chars ++ MediaFeature.aspectRatio.chars) .colon
    (ratioValue w h).chars

/-- What a bound makes of the comparison. -/
def boundComparison (bound : Option Bound) : Comparison :=
  bound.elim .equal (·.sign.comparison)

theorem condition?_ratioConditionChars (bound : Option Bound) (w h : Int64) :
    condition? (ratioConditionChars bound w h) =
      (target? .aspectRatio (ratioChars w h)).map fun target =>
        ⟨.aspectRatio, [(boundComparison bound, target)]⟩ := by
  have htarget : target? .aspectRatio (ratioValue w h).chars =
      target? .aspectRatio (ratioChars w h) := by
    simp only [target?, ratioValue, trim_blank_ratioChars, (trimmed_ratioChars w h).trim_eq]
  have hread : condition? (ratioConditionChars bound w h) =
      compared? .aspectRatio (boundComparison bound) (ratioValue w h) := by
    obtain ⟨tight, htight⟩ := exists_spacing_around_eq
    rw [ratioConditionChars, ← htight (bound.elim _ _ ++ _)]
    cases bound with
    | none => exact condition?_featureFirst tight .aspectRatio (ratioValue w h) .colon
    | some bound => exact condition?_boundFirst tight .aspectRatio (ratioValue w h) bound
  rw [hread, compared?, htarget]
  rfl

/-! ## A list of one condition -/

section Parentheses
variable {inner : List Char}

/-- A query that is nothing but a condition in parentheses. -/
theorem query_parentheses (hand : ¬"and".toList <:+: '(' :: (inner ++ [')'])) :
    query ('(' :: (inner ++ [')'])) =
      { negated := false
        conditions := (condition? ('(' :: (inner ++ [')']))).toList
        valid := (condition? ('(' :: (inner ++ [')']))).isSome } := by
  have htrim := (trimmed_parentheses inner).trim_eq
  have hnot : afterWord? "not".toList ('(' :: (inner ++ [')'])) = none :=
    afterWord?_of_ne (by decide) _ _
  have honly : afterWord? "only".toList ('(' :: (inner ++ [')'])) = none :=
    afterWord?_of_ne (by decide) _ _
  have htexts : conditionTexts ('(' :: (inner ++ [')'])) = ['(' :: (inner ++ [')'])] := by
    rw [conditionTexts, htrim, splitKeyword_of_notInfix hand, List.head?_cons, Option.any_some,
      htrim, if_neg]
    simp
  simp only [query, htrim, splitNegation, hnot, honly, Option.getD_none, htexts, List.map_cons,
    List.map_nil]
  cases condition? ('(' :: (inner ++ [')'])) <;> rfl

theorem queries_ofString_parentheses (hcomma : ',' ∉ '(' :: (inner ++ [')']))
    (hor : ¬"or".toList <:+: '(' :: (inner ++ [')'])) :
    (MediaList.ofString (String.ofList ('(' :: (inner ++ [')'])))).queries =
      [query ('(' :: (inner ++ [')']))] := by
  have hpieces := queryPieces_of_notInfix hcomma hor
  rw [queryPieces] at hpieces
  simp only [MediaList.ofString, String.toList_ofList, queryTexts,
    (trimmed_parentheses inner).trim_eq, hpieces, List.map_cons, List.map_nil]

end Parentheses

/-! ## Conditions on the aspect ratio -/

/-- The text of a media list that is one condition on the aspect ratio. -/
def ratioText (bound : Option Bound) (w h : Int64) : String :=
  String.ofList (ratioConditionChars bound w h)

example : ratioText none (-16) 9 = "(aspect-ratio: -16/9)" := by decide +kernel

example : ratioText (some .min) 4 3 = "(min-aspect-ratio: 4/3)" := by decide +kernel

/-- A condition on the aspect ratio with a given target. -/
def ratioCondition (bound : Option Bound) (target : Int) : MediaCondition :=
  ⟨.aspectRatio, [(boundComparison bound, target)]⟩

/-- Neither a comma nor a keyword cuts the text. -/
theorem uncut_ratioConditionChars (bound : Option Bound) (w h : Int64) :
    ',' ∉ ratioConditionChars bound w h ∧ ¬"or".toList <:+: ratioConditionChars bound w h ∧
      ¬"and".toList <:+: ratioConditionChars bound w h := by
  have htext : ratioConditionChars bound w h =
      '(' :: (bound.elim [] Bound.chars ++ MediaFeature.aspectRatio.chars) ++
        ':' :: ([' '] ++ ratioChars w h ++ [')']) := by
    simp [ratioConditionChars, comparisonText, Sign.chars, ratioValue]
  have hback : Avoids cuttingMarks ([' '] ++ ratioChars w h ++ [')']) :=
    Avoids.append (.append (by decide) (avoids_ratioChars (by decide) (by decide) w h)) (by decide)
  rw [htext]
  generalize [' '] ++ ratioChars w h ++ [')'] = back at hback
  refine ⟨fun hcomma => ?_, not_infix_append_cons (by decide) ?_ ?_,
    not_infix_append_cons (by decide) ?_ ?_⟩
  · rcases List.mem_append.mp hcomma with hfront | hrest
    · revert hfront
      rcases bound with - | - | - <;> decide +kernel
    · rcases List.mem_cons.mp hrest with heq | hmem
      · exact absurd heq (by decide)
      · exact hback ',' hmem (by decide)
  · rcases bound with - | - | - <;> decide +kernel
  · exact not_infix_of_not_mem fun hmem => hback 'o' hmem (by decide)
  · rcases bound with - | - | - <;> decide +kernel
  · exact not_infix_of_not_mem fun hmem => hback 'a' hmem (by decide)

/-- **Reading a condition on the aspect ratio**: the query is valid if there is a target. -/
theorem queries_ofString_ratioText (bound : Option Bound) (w h : Int64) :
    (MediaList.ofString (ratioText bound w h)).queries = [
      { negated := false
        conditions := ((target? .aspectRatio (ratioChars w h)).map (ratioCondition bound)).toList
        valid := (target? .aspectRatio (ratioChars w h)).isSome }] := by
  obtain ⟨hcomma, hor, hand⟩ := uncut_ratioConditionChars bound w h
  have hread := condition?_ratioConditionChars bound w h
  have hlist : (MediaList.ofString (ratioText bound w h)).queries =
      [query (ratioConditionChars bound w h)] :=
    queries_ofString_parentheses hcomma hor
  have hquery := query_parentheses hand
  rw [← comparisonText, ← ratioConditionChars, hread] at hquery
  rw [hlist, hquery]
  cases target? .aspectRatio (ratioChars w h) <;> rfl

theorem holds_ratioCondition (bound : Option Bound) (target : Int) (env : MediaEnvironment) :
    (ratioCondition bound target).holds env =
      (MediaFeature.aspectRatio.current? env).any fun value =>
        (boundComparison bound).holds value target := by
  rw [MediaCondition.holds, ratioCondition]
  cases MediaFeature.aspectRatio.current? env with
  | none => rfl
  | some value => exact Bool.and_true _

/-- The list matches where its condition has a target and holds. -/
theorem holds_ofString_eq_any_target (bound : Option Bound) (w h : Int64) (env : MediaEnvironment) :
    (MediaList.ofString (ratioText bound w h)).holds env =
      (target? .aspectRatio (ratioChars w h)).any fun target =>
        (ratioCondition bound target).holds env := by
  rw [MediaList.holds, queries_ofString_ratioText]
  cases target? .aspectRatio (ratioChars w h) with
  | none => rfl
  | some target => simp [MediaQuery.holds]

/-- What a condition asks of the ratio of a viewport. -/
def RatioAsked (bound : Option Bound) (viewport written : ℚ) : Prop :=
  match bound with
  | none => viewport = written
  | some .min => written ≤ viewport
  | some .max => viewport ≤ written

/-- The cut ratios of a viewport that meets what is asked pass the comparison. -/
theorem holds_boundComparison {bound : Option Bound} {vw vh w h : ℤ} (hvh : vh ≠ 0) (hh : h ≠ 0)
    (hasked : RatioAsked bound ((vw : ℚ) / vh) (w / h)) :
    (boundComparison bound).holds ((ratioScale * vw).tdiv vh) ((ratioScale * w).tdiv h) = true := by
  have hscale : ∀ {a b c d : ℤ}, b ≠ 0 → d ≠ 0 → (a : ℚ) / b ≤ c / d →
      (ratioScale * a).tdiv b ≤ (ratioScale * c).tdiv d := by
    intro a b c d hb hd hle
    refine tdiv_le_tdiv_of_div_le hb hd ?_
    rw [Int.cast_mul, Int.cast_mul, mul_div_assoc, mul_div_assoc]
    exact mul_le_mul_of_nonneg_left hle (by decide)
  rcases bound with - | - | -
  · have heq := le_antisymm (hscale hvh hh (le_of_eq hasked)) (hscale hh hvh (ge_of_eq hasked))
    exact decide_eq_true heq
  · exact decide_eq_true (hscale hh hvh hasked)
  · exact decide_eq_true (hscale hvh hh hasked)

/-- **Aspect ratios are safe, and a match is never denied by the cut.**  For a viewport with a
height the arithmetic stays within 64 bits, and for a written ratio it does so if the scaled width
fits; a zero is never divided by.  If the scaled width does not fit, the query is invalid, and
without a height no condition holds.  Otherwise the list matches where the ratio of the viewport is
the one that is written, or keeps the bound. -/
theorem holds_ofString_ratioText (bound : Option Bound) (w h : Int64) (env : MediaEnvironment) :
    let list := MediaList.ofString (ratioText bound w h)
    (env.viewportHeight ≠ 0 →
      ∃ value, scaledRatio? env.viewportWidth.toInt env.viewportHeight.toInt = some value ∧
        MediaFeature.aspectRatio.current? env = some value) ∧
    target? .aspectRatio (ratioChars w h) =
      (if h = 0 then some 0 else scaledRatio? w.toInt h.toInt) ∧
    (h ≠ 0 → ((scaledRatio? w.toInt h.toInt).isSome ↔ Fits (ratioScale * w.toInt))) ∧
    ∃ q, list.queries = [q] ∧
      (h ≠ 0 → ¬Fits (ratioScale * w.toInt) → q.valid = false ∧ list.holds env = false) ∧
      (env.viewportHeight = 0 →
        (∀ c ∈ q.conditions, c.holds env = false) ∧ list.holds env = false) ∧
      (h ≠ 0 → env.viewportHeight ≠ 0 → Fits (ratioScale * w.toInt) →
        RatioAsked bound ((env.viewportWidth.toInt : ℚ) / env.viewportHeight.toInt)
          ((w.toInt : ℚ) / h.toInt) →
        list.holds env = true) := by
  intro list
  have htarget := target?_ratioChars w h
  have hlist := holds_ofString_eq_any_target bound w h env
  have hcurrent := current?_aspectRatio env
  refine ⟨fun hvh => ?_, htarget, fun hh => ?_, _, queries_ofString_ratioText bound w h,
    fun hh hfits => ?_, fun hvh => ?_, fun hh hvh hfits hasked => ?_⟩
  · rw [if_neg hvh, scaledRatio?_of_fits (toInt_ne_zero hvh) (fits_viewport _)] at hcurrent
    exact ⟨_, scaledRatio?_of_fits (toInt_ne_zero hvh) (fits_viewport _), hcurrent⟩
  · rw [scaledRatio?_eq (toInt64_ne_zero hh)]
    split
    · next hfits => exact iff_of_true rfl hfits
    · next hfits => exact iff_of_false Bool.false_ne_true hfits
  · rw [if_neg hh, scaledRatio?_eq (toInt64_ne_zero hh), if_neg hfits] at htarget
    rw [htarget] at hlist ⊢
    exact ⟨rfl, hlist⟩
  · rw [if_pos hvh] at hcurrent
    have hfalse : ∀ target, (ratioCondition bound target).holds env = false := by
      intro target
      rw [holds_ratioCondition, hcurrent]
      rfl
    refine ⟨fun c hc => ?_, ?_⟩
    · obtain ⟨target, -, rfl⟩ := Option.map_eq_some_iff.mp (Option.mem_toList.mp hc)
      exact hfalse target
    · simpa only [hfalse, Option.any_false] using hlist
  · rw [if_neg hh, scaledRatio?_of_fits (toInt64_ne_zero hh) hfits] at htarget
    rw [if_neg hvh, scaledRatio?_of_fits (toInt_ne_zero hvh) (fits_viewport _)] at hcurrent
    rw [htarget, Option.any_some, holds_ratioCondition, hcurrent, Option.any_some] at hlist
    exact hlist.trans
      (holds_boundComparison (toInt_ne_zero hvh) (toInt64_ne_zero hh) hasked)

/-- A viewport that is mirrored, and an equal ratio with the sign below. -/
theorem holds_ofString_ratioText_mirrored :
    let env : MediaEnvironment := { viewportWidth := -1366, viewportHeight := 768 }
    let flat : MediaEnvironment := { viewportWidth := -1366, viewportHeight := 0 }
    (∀ bound, (MediaList.ofString (ratioText bound 683 (-384))).holds env = true ∧
      (MediaList.ofString (ratioText bound 683 (-384))).holds flat = false) ∧
      (MediaList.ofString (ratioText (some .max) 92233720368548 (-384))).holds env = false := by
  intro env flat
  refine ⟨fun bound => ?_, ?_⟩
  · obtain ⟨-, -, -, q, -, -, -, hasked⟩ := holds_ofString_ratioText bound 683 (-384) env
    obtain ⟨-, -, -, q, -, -, hflat, -⟩ := holds_ofString_ratioText bound 683 (-384) flat
    have hratio : ((env.viewportWidth.toInt : ℚ) / env.viewportHeight.toInt) =
        ((683 : Int64).toInt : ℚ) / (-384 : Int64).toInt := by decide +kernel
    have hbound : RatioAsked bound ((env.viewportWidth.toInt : ℚ) / env.viewportHeight.toInt)
        (((683 : Int64).toInt : ℚ) / (-384 : Int64).toInt) := by
      rcases bound with - | - | -
      · exact hratio
      · exact hratio.ge
      · exact hratio.le
    exact ⟨hasked (by decide) (by decide) (by decide) hbound, (hflat rfl).2⟩
  · obtain ⟨-, -, -, q, -, hinvalid, -⟩ :=
      holds_ofString_ratioText (some .max) 92233720368548 (-384) env
    exact (hinvalid (by decide) (by decide)).2

end StyleCascade.Media
