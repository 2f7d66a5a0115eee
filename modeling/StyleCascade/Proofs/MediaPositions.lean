import StyleCascade.Proofs.SignSearch

/-!
# Reading a media list by positions

A media list can be read with nothing but byte positions: its keywords and signs are searched by
loops over bytes, and each part is the slice between two positions.  `MediaList.ofSlices?` reads it
this way and checks every use of a position.  It fails at a slice that is out of range, out of order
or does not start and end between characters, at a byte that is not there, and at a round of a loop
that does not move forward within the text.

**It fails for no text** (`MediaList.ofSlices?_eq`), and the list it reads is that of
`MediaList.ofString`.  What characters stand around the keywords, signs and parentheses is of no
account, for these are ASCII and a position beside them is between characters.
-/

namespace StyleCascade.Media
open Text

/-! ## Conditions by positions -/

/-- A condition without blanks around it and without its parentheses. -/
def slicedInner? (text : List Char) : Option (List Char) :=
  let text := trim text
  if text.head? = some '(' ∧ text.getLast? = some ')' ∧ 2 ≤ size text then
    slice? text 1 (size text - 1)
  else some text

/-- The text of a condition, taken apart.  The operands of a range are cut off only if its signs
point the same way. -/
def slicedConditionText? (text : List Char) : Option (Option ConditionText) := do
  let text ← slicedInner? text
  match ← signs? text with
  | [(place, sign)] =>
    let left ← slice? text 0 place
    let right ← slice? text (place + size sign.chars) (size text)
    return singleText? left sign.comparison right
  | [(place₁, sign₁), (place₂, sign₂)] =>
    let op₁ := sign₁.comparison
    let op₂ := sign₂.comparison
    if (op₁.isLess && op₂.isLess) || (op₁.isMore && op₂.isMore) then
      let first ← slice? text 0 place₁
      let name ← slice? text (place₁ + size sign₁.chars) place₂
      let second ← slice? text (place₂ + size sign₂.chars) (size text)
      return rangeText? first op₁ name op₂ second
    else return none
  | _ => return none

/-- A text in parentheses has them at different places. -/
theorem parentheses_iff {text : List Char} :
    (text.head? = some '(' ∧ text.getLast? = some ')' ∧ 2 ≤ size text) ↔
      ∃ inner, text = '(' :: (inner ++ [')']) := by
  constructor
  · rintro ⟨hhead, hlast, -⟩
    obtain ⟨rest, rfl⟩ := List.head?_eq_some_iff.mp hhead
    obtain ⟨front, hfront⟩ := List.getLast?_eq_some_iff.mp hlast
    cases front with
    | nil => simp at hfront
    | cons c inner =>
      obtain ⟨rfl, rfl⟩ := List.cons_eq_cons.mp hfront
      exact ⟨inner, rfl⟩
  · rintro ⟨inner, rfl⟩
    have hone : size [')'] = 1 := rfl
    refine ⟨rfl, ?_, ?_⟩
    · rw [← List.cons_append, List.getLast?_concat]
    · rw [← List.cons_append, size_append, hone]
      exact Nat.succ_le_succ (size_pos (List.cons_ne_nil '(' inner))

/-- Between its parentheses a text can be sliced. -/
theorem slice?_parentheses (inner : List Char) :
    slice? ('(' :: (inner ++ [')'])) 1 (size ('(' :: (inner ++ [')'])) - 1) = some inner := by
  have hsize : size ('(' :: (inner ++ [')'])) - 1 = size ['('] + size inner := by
    rw [← List.cons_append, size_append, ← List.singleton_append, size_append]
    rfl
  rw [hsize]
  exact slice?_append ['('] inner [')']

theorem slicedInner?_eq (text : List Char) :
    slicedInner? text = some (withoutParentheses text) := by
  rw [slicedInner?, withoutParentheses]
  cases henclosed : enclosed ['('] [')'] (trim text) with
  | some inner =>
    have htext : trim text = '(' :: (inner ++ [')']) := enclosed_eq_some_iff.mp henclosed
    rw [if_pos (parentheses_iff.mpr ⟨inner, htext⟩), htext]
    exact slice?_parentheses inner
  | none =>
    rw [if_neg]
    · rfl
    · intro hcond
      obtain ⟨inner, htext⟩ := parentheses_iff.mp hcond
      have hsome : enclosed ['('] [')'] (trim text) = some inner :=
        enclosed_eq_some_iff.mpr htext
      cases henclosed.symm.trans hsome

theorem slicedConditionText?_eq (text : List Char) :
    slicedConditionText? text = some (conditionText? text) := by
  rw [slicedConditionText?, slicedInner?_eq, conditionText?]
  obtain ⟨signs, hsigns, hlaid⟩ := exists_signs? (withoutParentheses text)
  have hlength := hlaid.length_signs
  simp only [bind, Option.bind, hsigns]
  generalize cutOperators (withoutParentheses text) = cut at hlaid hlength ⊢
  obtain ⟨first, cuts⟩ := cut
  -- There are as many operands behind the first as signs were found.
  rcases signs with _ | ⟨⟨place₁, sign₁⟩, _ | ⟨⟨place₂, sign₂⟩, _ | ⟨found₃, signs⟩⟩⟩
  · obtain rfl := List.length_eq_zero_iff.mp hlength.symm
    rfl
  · obtain ⟨left, right, heq, hleft, hright, -⟩ := hlaid.slices_of_one
    cases heq
    simp only [hleft, hright]
    rfl
  · obtain ⟨first, name, second, heq, hfirst, hname, hsecond, -⟩ := hlaid.slices_of_two
    cases heq
    simp only [hfirst, hname, hsecond]
    split
    · rfl
    · next hway =>
      rw [rangeText?, if_neg hway]
      rfl
  · rcases cuts with _ | ⟨cut₁, _ | ⟨cut₂, _ | ⟨cut₃, cuts⟩⟩⟩
    · cases hlength
    · cases hlength
    · cases hlength
    · rfl

/-- Reads a condition. -/
def slicedCondition? (text : List Char) : Option (Option MediaCondition) := do
  match ← slicedConditionText? text with
  | none => return none
  | some (feature, comparisons) =>
    return (readTargets? feature comparisons).map (MediaCondition.mk feature)

theorem slicedCondition?_eq (text : List Char) :
    slicedCondition? text = some (condition? text) := by
  rw [slicedCondition?, slicedConditionText?_eq, condition?]
  cases conditionText? text with
  | none => rfl
  | some text =>
    obtain ⟨feature, comparisons⟩ := text
    simp only [bind, Option.bind]
    cases readTargets? feature comparisons <;> rfl

/-! ## Queries by positions -/

/-- The parts of a query without its media type. -/
def withoutMediaType (parts : List (List Char)) : List (List Char) :=
  let isMediaType (part : List Char) : Bool :=
    trim part = "screen".toList || trim part = "all".toList
  if parts.head?.any isMediaType then parts.drop 1 else parts

/-- Reads a query. -/
def slicedQuery? (text : List Char) : Option MediaQuery := do
  let (negated, rest) := splitNegation (trim text)
  let parts ← splitKeyword? "and".toList (trim rest)
  let conditions ← (withoutMediaType parts).mapM slicedCondition?
  return {
    negated
    conditions := conditions.filterMap id
    valid := conditions.all Option.isSome }

theorem slicedQuery?_eq (text : List Char) : slicedQuery? text = some (query text) := by
  have hconditions (parts : List (List Char)) :
      parts.mapM slicedCondition? = some (parts.map condition?) := by
    rw [funext slicedCondition?_eq]
    exact List.mapM_pure
  have hkeyword : StartsOnce "and".toList := by decide
  rw [slicedQuery?]
  simp only [splitKeyword?_eq hkeyword, hconditions, bind, Option.bind]
  rfl

end StyleCascade.Media

namespace StyleCascade
open Media Text

/-- Reads a media list, with every use of a position checked. -/
def MediaList.ofSlices? (text : String) : Option MediaList := do
  let groups ← ((trim text.toList).splitOn ',').mapM (splitKeyword? "or".toList)
  let queries ← groups.flatten.mapM slicedQuery?
  return ⟨trimString text, queries⟩

/-- **No use of a position fails**, and the list is the one that is read without positions. -/
theorem MediaList.ofSlices?_eq (text : String) :
    MediaList.ofSlices? text = some (MediaList.ofString text) := by
  have hgroups (groups : List (List Char)) : groups.mapM (splitKeyword? "or".toList) =
      some (groups.map (splitKeyword "or".toList)) := by
    rw [funext (splitKeyword?_eq (by decide))]
    exact List.mapM_pure
  have hqueries (texts : List (List Char)) : texts.mapM slicedQuery? = some (texts.map query) := by
    rw [funext slicedQuery?_eq]
    exact List.mapM_pure
  simp only [MediaList.ofSlices?, hgroups, hqueries, bind, Option.bind]
  rfl

/-- **Reading a media list by positions is safe.**  A slice is there exactly if its ends are in
order, in range and between characters.  The searches for keywords and signs move forward and end; a
sign is the slice that it was found at, and where there are one or two, the slices before, between
and behind them are there and make up the text with them.  A condition in parentheses is there
without them.  And so every text is read to its end, with no use of a position that fails. -/
theorem MediaList.ofSlices?_safe :
    (∀ text start stop, (slice? text start stop).isSome = true ↔
      start ≤ stop ∧ IsBoundary text start ∧ IsBoundary text stop) ∧
    (∀ text,
      Runs (size text) Cutting.next (cuttingRound "and".toList text) ⟨[], 0, 0⟩
        (splitKeyword "and".toList text) ∧
      Runs (size text) Cutting.next (cuttingRound "or".toList text) ⟨[], 0, 0⟩
        (splitKeyword "or".toList text)) ∧
    (∀ text, ∃ signs, Runs (size text) Finding.place (findingRound text) ⟨[], 0⟩ signs ∧
      (∀ found ∈ signs,
        slice? text found.1 (found.1 + size found.2.chars) = some found.2.chars) ∧
      match signs with
      | [(place, sign)] => ∃ left right,
        slice? text 0 place = some left ∧
        slice? text (place + size sign.chars) (size text) = some right ∧
        text = left ++ (sign.chars ++ right)
      | [(place₁, sign₁), (place₂, sign₂)] => ∃ first name second,
        slice? text 0 place₁ = some first ∧
        slice? text (place₁ + size sign₁.chars) place₂ = some name ∧
        slice? text (place₂ + size sign₂.chars) (size text) = some second ∧
        text = first ++ (sign₁.chars ++ (name ++ (sign₂.chars ++ second)))
      | _ => True) ∧
    (∀ text, text.head? = some '(' → text.getLast? = some ')' → 2 ≤ size text →
      ∃ inner, slice? text 1 (size text - 1) = some inner ∧ text = '(' :: (inner ++ [')'])) ∧
    ∀ text, MediaList.ofSlices? text = some (MediaList.ofString text) := by
  refine ⟨fun _ _ _ => isSome_slice?_iff, fun text => ⟨?_, ?_⟩, fun text => ?_,
    fun text hhead hlast hsize => ?_, MediaList.ofSlices?_eq⟩
  · exact scan_eq_some_iff.mp (splitKeyword?_eq (by decide) text)
  · exact scan_eq_some_iff.mp (splitKeyword?_eq (by decide) text)
  · obtain ⟨signs, hsigns, hlaid⟩ := exists_signs? text
    refine ⟨signs, scan_eq_some_iff.mp hsigns, fun found hfound =>
      hlaid.slice?_sign size_nil.symm hfound, ?_⟩
    split
    · obtain ⟨left, right, -, hslices⟩ := hlaid.slices_of_one
      exact ⟨left, right, hslices⟩
    · obtain ⟨first, name, second, -, hslices⟩ := hlaid.slices_of_two
      exact ⟨first, name, second, hslices⟩
    · trivial
  · obtain ⟨inner, rfl⟩ := parentheses_iff.mp ⟨hhead, hlast, hsize⟩
    exact ⟨inner, slice?_parentheses inner, rfl⟩

/-- Characters of two bytes stand before and behind the signs of a range. -/
theorem MediaList.ofSlices?_safe_accented :
    signs? "é<=width<ü".toList = some [(2, .lessEqual), (9, .less)] ∧
      slice? "é<=width<ü".toList 2 4 = some ['<', '='] ∧
      slice? "é<=width<ü".toList 9 10 = some ['<'] ∧
      (∃ first name second, slice? "é<=width<ü".toList 0 2 = some first ∧
        slice? "é<=width<ü".toList 4 9 = some name ∧
        slice? "é<=width<ü".toList 10 12 = some second ∧
        "é<=width<ü".toList = first ++ ("<=".toList ++ (name ++ ("<".toList ++ second)))) ∧
      (∃ inner, slice? "(é<=width<ü)".toList 1 13 = some inner ∧
        "(é<=width<ü)".toList = '(' :: (inner ++ [')'])) ∧
      MediaList.ofSlices? "not (é<=width<ü)" = some (MediaList.ofString "not (é<=width<ü)") := by
  have hsigns : signs? "é<=width<ü".toList = some [(2, .lessEqual), (9, .less)] := by cbv
  obtain ⟨-, -, hstands, hinner, hread⟩ := MediaList.ofSlices?_safe
  obtain ⟨signs, hruns, hslices, hparts⟩ := hstands "é<=width<ü".toList
  obtain rfl : signs = [(2, .lessEqual), (9, .less)] :=
    Option.some.inj ((scan_eq_some_iff.mpr hruns).symm.trans hsigns)
  exact ⟨hsigns, hslices (2, .lessEqual) (by simp), hslices (9, .less) (by simp), hparts,
    hinner "(é<=width<ü)".toList rfl rfl (by decide), hread _⟩

end StyleCascade
