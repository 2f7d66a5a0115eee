import Mathlib.Data.Prod.Lex
import StyleCascade.Selector

/-!
# Specificity

The specificity of a selector is the sum of the weights of its parts, and a part weighs by its kind
alone.  So only the numbers of ids, classes and elements count (`Selector.specificity_eq`), whatever
the combinators, the names and the states are and in whatever order the parts stand.

The weights are powers of a thousand, so the three numbers are the digits of the specificity as long
as the lower two have no more than three decimal places (`Selector.FitsDigits`).  Selectors then
compare like their digits, the ids first (`Selector.specificity_lexicographic`).  One class more,
and a carry makes a thousand of them equal to an id.
-/
namespace StyleCascade
namespace Selector

variable {s t : Selector}

/-- The kinds of the parts, from the subject outwards.  A part with a state has the kind of what
carries the state. -/
def kinds (s : Selector) : List SelectorKind :=
  s.parts.map (·.kind)

/-- How many parts are of a kind. -/
def count (s : Selector) (kind : SelectorKind) : ℕ :=
  s.kinds.count kind

/-- The numbers of ids, classes and elements, to be compared in this order. -/
def tally (s : Selector) : ℕ ×ₗ ℕ ×ₗ ℕ :=
  toLex (s.count .id, toLex (s.count .className, s.count .element))

/-- Neither the elements nor the classes reach the next weight. -/
structure FitsDigits (s : Selector) : Prop where
  classes : s.count .className ≤ 999
  elements : s.count .element ≤ 999

/-- **The specificity in closed form.** -/
theorem specificity_eq (s : Selector) : s.specificity =
    1000000 * s.count .id + 1000 * s.count .className + s.count .element := by
  rw [specificity, count, count, count, kinds]
  induction s.parts with
  | nil => rfl
  | cons part rest ih =>
    rw [List.foldr_cons, ih, List.map_cons, SimpleSelector.specificity]
    -- The part adds its weight and one to the count of its kind.
    cases part.kind <;> simp only [List.count_cons, beq_iff_eq, reduceCtorEq, if_true, if_false] <;>
      omega

/-- A selector of nothing but classes, one below the other. -/
def classChain (links : ℕ) : Selector where
  subject := { kind := .className, name := "item" }
  links := List.replicate links ⟨.descendant, { kind := .className, name := "item" }⟩

/-- An id with a state. -/
def activeId : Selector where
  subject := { kind := .id, name := "main", state := some "active" }

-- A thousand classes carry into the ids.
example : (classChain 999).specificity = activeId.specificity := by decide +kernel

theorem tally_lt_iff : s.tally < t.tally ↔ s.count .id < t.count .id ∨
    s.count .id = t.count .id ∧ (s.count .className < t.count .className ∨
      s.count .className = t.count .className ∧ s.count .element < t.count .element) := by
  rw [tally, tally, Prod.Lex.toLex_lt_toLex, Prod.Lex.toLex_lt_toLex]

theorem tally_eq_iff : s.tally = t.tally ↔ s.count .id = t.count .id ∧
    s.count .className = t.count .className ∧ s.count .element = t.count .element := by
  rw [tally, tally, toLex_inj, Prod.mk.injEq, toLex_inj, Prod.mk.injEq]

theorem specificity_eq_of_tally (h : s.tally = t.tally) : s.specificity = t.specificity := by
  obtain ⟨hids, hclasses, helements⟩ := tally_eq_iff.mp h
  rw [specificity_eq, specificity_eq, hids, hclasses, helements]

theorem tally_eq_of_perm (h : s.kinds.Perm t.kinds) : s.tally = t.tally :=
  tally_eq_iff.mpr ⟨h.count_eq .id, h.count_eq .className, h.count_eq .element⟩

/-- Without carries a lower digit never makes up for a higher one. -/
theorem specificity_lt_of_tally (hs : s.FitsDigits) (h : s.tally < t.tally) :
    s.specificity < t.specificity := by
  have hclasses := hs.classes
  have helements := hs.elements
  rw [specificity_eq, specificity_eq]
  rcases tally_lt_iff.mp h with hid | ⟨hid, hclass | ⟨hclass, helement⟩⟩ <;> omega

/-- **Specificity is lexicographic.**  Of two selectors without carries the one with fewer ids is
the less specific; with as many ids, the one with fewer classes; with as many of these, too, the one
with fewer elements.  They are equally specific if and only if the three numbers agree.  With or
without carries, the numbers settle the specificity, so the order of the parts, their combinators,
their names and their states do not count.  The sums are natural numbers, which no machine word cuts
off. -/
theorem specificity_lexicographic (s t : Selector) :
    (s.FitsDigits → t.FitsDigits →
      (s.specificity < t.specificity ↔ s.tally < t.tally) ∧
      (s.specificity = t.specificity ↔ s.tally = t.tally)) ∧
    (s.tally = t.tally → s.specificity = t.specificity) ∧
    (s.kinds.Perm t.kinds → s.specificity = t.specificity) := by
  refine ⟨fun hs ht => ?_, specificity_eq_of_tally, fun h => ?_⟩
  · rcases lt_trichotomy s.tally t.tally with h | h | h
    · have hlt := specificity_lt_of_tally hs h
      exact ⟨iff_of_true hlt h, iff_of_false hlt.ne h.ne⟩
    · have heq := specificity_eq_of_tally h
      exact ⟨iff_of_false heq.not_lt h.not_lt, iff_of_true heq h⟩
    · have hgt := specificity_lt_of_tally ht h
      exact ⟨iff_of_false hgt.not_gt h.not_gt, iff_of_false hgt.ne' h.ne'⟩
  · exact specificity_eq_of_tally (tally_eq_of_perm h)

/-- The longest chain of classes without carries is less specific than an id. -/
theorem specificity_lexicographic_classChain :
    (classChain 998).FitsDigits ∧ activeId.FitsDigits ∧
      (classChain 998).tally < activeId.tally ∧
      (classChain 998).specificity < activeId.specificity := by
  have hchain : (classChain 998).FitsDigits := ⟨by decide +kernel, by decide +kernel⟩
  have hid : activeId.FitsDigits := ⟨by decide, by decide⟩
  have htally : (classChain 998).tally < activeId.tally := tally_lt_iff.mpr (by decide +kernel)
  obtain ⟨hcompare, -, -⟩ := specificity_lexicographic (classChain 998) activeId
  exact ⟨hchain, hid, htally, (hcompare hchain hid).1.mpr htally⟩

end Selector
end StyleCascade
