import StyleCascade.Proofs.KeywordCuts

/-!
# Searching a keyword by positions

A loop over a text goes from one byte position to a later one.  `scan` runs such a loop with every
round checked: a round that uses a position at which the text cannot be addressed, that stays where
it is or that goes past the end makes the whole loop fail.  A loop has a result exactly if its rounds
lead to it (`scan_eq_some_iff`), and it has one if every round proceeds (`exists_scan`).

Here the loop searches a keyword.  It holds the parts cut off so far, the byte at which the next part
starts and the byte from which it searches.  Together with what the scan over the rest of the text
makes, the parts so far are always the parts of the text (`Cutting.Follows`); so the search never
fails, and ends with these (`splitKeyword?_eq`).
-/

namespace StyleCascade.Media
open Text
open Json (bytesOf)

/-! ## Loops that move forward -/

section Scan

variable {σ β : Type} {size : Nat} {position : σ → Nat} {round : σ → Option (σ ⊕ β)} {s : σ}

/-- Runs rounds until one has a result.  A round that fails makes the loop fail, and so does one
that stays where it is or goes past the end. -/
def scan (size : Nat) (position : σ → Nat) (round : σ → Option (σ ⊕ β)) (s : σ) : Option β :=
  match round s with
  | none => none
  | some (.inr result) => some result
  | some (.inl s') =>
    if position s < position s' ∧ position s' ≤ size then scan size position round s' else none
termination_by size - position s

/-- The rounds from a state on lead to a result, each of them forward and none past the end. -/
inductive Runs (size : Nat) (position : σ → Nat) (round : σ → Option (σ ⊕ β)) : σ → β → Prop
  | finish {s : σ} {result : β} (hround : round s = some (.inr result)) :
    Runs size position round s result
  | step {s s' : σ} {result : β} (hround : round s = some (.inl s'))
    (hforward : position s < position s') (hend : position s' ≤ size)
    (hrest : Runs size position round s' result) : Runs size position round s result

theorem Runs.of_scan {result : β} (h : scan size position round s = some result) :
    Runs size position round s result := by
  fun_induction scan size position round s with
  | case1 s hround => cases h
  | case2 s result' hround =>
    cases h
    exact .finish hround
  | case3 s s' hround hmoves ih => exact .step hround hmoves.1 hmoves.2 (ih h)
  | case4 s s' hround hstays => cases h

theorem Runs.scan_eq {result : β} (h : Runs size position round s result) :
    scan size position round s = some result := by
  induction h with
  | finish hround => rw [scan, hround]
  | step hround hforward hend hrest ih =>
    rw [scan, hround]
    simp only [if_pos (And.intro hforward hend), ih]

/-- **A loop has a result** exactly if its rounds lead to it. -/
theorem scan_eq_some_iff {result : β} :
    scan size position round s = some result ↔ Runs size position round s result :=
  ⟨.of_scan, Runs.scan_eq⟩

/-- What a round comes to: a result that satisfies `Post`, or a step forward to a state at which
`Inv` holds. -/
inductive Proceeds (size : Nat) (position : σ → Nat) (round : σ → Option (σ ⊕ β)) (Inv : σ → Prop)
    (Post : β → Prop) (s : σ) : Prop
  | finish (result : β) (hround : round s = some (.inr result)) (hpost : Post result)
  | step (s' : σ) (hround : round s = some (.inl s')) (hforward : position s < position s')
    (hend : position s' ≤ size) (hinv : Inv s')

/-- **A loop whose rounds all proceed has a result.** -/
theorem exists_scan {Inv : σ → Prop} {Post : β → Prop}
    (hproceeds : ∀ s, Inv s → Proceeds size position round Inv Post s) (h : Inv s) :
    ∃ result, scan size position round s = some result ∧ Post result := by
  induction hleft : size - position s using Nat.strongRecOn generalizing s with
  | _ left ih =>
    subst hleft
    cases hproceeds s h with
    | finish result hround hpost => exact ⟨result, scan_eq_some_iff.mpr (.finish hround), hpost⟩
    | step s' hround hforward hend hinv =>
      obtain ⟨result, hscan, hpost⟩ := ih _ (by omega) hinv rfl
      exact ⟨result, scan_eq_some_iff.mpr (.step hround hforward hend (.of_scan hscan)), hpost⟩

end Scan

/-! ## Cutting at a keyword -/

/-- Whether there is an ASCII blank before a position. -/
def blankBefore? (text : List Char) (place : Nat) : Option Bool :=
  if 0 < place then ((bytesOf text)[place - 1]?).map isBlankByte else some false

/-- Whether there is an ASCII blank at a position. -/
def blankAt? (text : List Char) (place : Nat) : Option Bool :=
  if place < size text then ((bytesOf text)[place]?).map isBlankByte else some false

/-- The parts cut off so far, where the next one starts and from where the keyword is searched. -/
structure Cutting where
  parts : List (List Char)
  start : Nat
  next : Nat

/-- Searches the keyword once. -/
def cuttingRound (keyword text : List Char) (s : Cutting) :
    Option (Cutting ⊕ List (List Char)) := do
  let rest ← slice? text s.next (size text)
  match offset? keyword rest with
  | none => return .inr (s.parts ++ [← slice? text s.start (size text)])
  | some offset =>
    let place := s.next + offset
    let stop := place + size keyword
    let before ← blankBefore? text place
    let after ← blankAt? text stop
    if before && after then
      return .inl ⟨s.parts ++ [← slice? text s.start place], stop, stop⟩
    else return .inl { s with next := stop }

/-- Cuts a text at a keyword. -/
def splitKeyword? (keyword text : List Char) : Option (List (List Char)) :=
  scan (size text) Cutting.next (cuttingRound keyword text) ⟨[], 0, 0⟩

theorem blankBefore?_size (front back : List Char) :
    blankBefore? (front ++ back) (size front) = some (front.getLast?.any isAsciiBlank) := by
  by_cases hne : front = []
  · subst hne
    rfl
  · rw [blankBefore?, if_pos (size_pos hne), map_isBlankByte_size_sub_one hne,
      List.getLast?_eq_some_getLast hne]
    rfl

theorem blankAt?_size (front back : List Char) :
    blankAt? (front ++ back) (size front) = some (back.head?.any isAsciiBlank) := by
  cases back with
  | nil =>
    rw [blankAt?, List.append_nil, if_neg (Nat.lt_irrefl _)]
    rfl
  | cons c back =>
    have hpos := size_pos (List.cons_ne_nil c back)
    rw [blankAt?, if_pos (by rw [size_append]; omega), map_isBlankByte_size]
    rfl

section Round

variable {keyword text front pending rest passed back : List Char} {parts : List (List Char)}

/-- Without another keyword the last part goes to the end. -/
theorem cuttingRound_of_none (htext : text = front ++ (pending ++ rest))
    (hoffset : offset? keyword rest = none) :
    cuttingRound keyword text ⟨parts, size front, size (front ++ pending)⟩ =
      some (.inr (parts ++ [pending ++ rest])) := by
  have hrest : slice? text (size (front ++ pending)) (size text) = some rest := by
    rw [htext, ← List.append_assoc]
    exact slice?_toEnd _ _
  have hlast : slice? text (size front) (size text) = some (pending ++ rest) := by
    rw [htext]
    exact slice?_toEnd _ _
  simp [cuttingRound, hrest, hoffset, hlast]

/-- At a keyword the part in front of it is cut off, or the search goes on behind it. -/
theorem cuttingRound_of_some
    (htext : text = front ++ (pending ++ (passed ++ (keyword ++ back))))
    (hoffset : offset? keyword (passed ++ (keyword ++ back)) = some (size passed)) :
    cuttingRound keyword text ⟨parts, size front, size (front ++ pending)⟩ =
      some (.inl (if cutsBetween (front ++ pending ++ passed).getLast? back then
        ⟨parts ++ [pending ++ passed], size (front ++ pending ++ passed ++ keyword),
          size (front ++ pending ++ passed ++ keyword)⟩
      else ⟨parts, size front, size (front ++ pending ++ passed ++ keyword)⟩)) := by
  have hrest : slice? text (size (front ++ pending)) (size text) =
      some (passed ++ (keyword ++ back)) := by
    rw [htext, ← List.append_assoc]
    exact slice?_toEnd _ _
  have hplace : size (front ++ pending) + size passed = size (front ++ pending ++ passed) :=
    (size_append ..).symm
  have hstop : size (front ++ pending ++ passed) + size keyword =
      size (front ++ pending ++ passed ++ keyword) := (size_append ..).symm
  have hbefore : blankBefore? text (size (front ++ pending ++ passed)) =
      some ((front ++ pending ++ passed).getLast?.any isAsciiBlank) := by
    rw [htext, ← List.append_assoc, ← List.append_assoc]
    exact blankBefore?_size _ _
  have hafter : blankAt? text (size (front ++ pending ++ passed ++ keyword)) =
      some (back.head?.any isAsciiBlank) := by
    rw [htext, ← List.append_assoc, ← List.append_assoc, ← List.append_assoc]
    exact blankAt?_size _ _
  have hpart : slice? text (size front) (size (front ++ pending ++ passed)) =
      some (pending ++ passed) := by
    rw [htext, List.append_assoc front, size_append, ← List.append_assoc pending]
    exact slice?_append _ _ _
  simp only [cuttingRound, hrest, hoffset, hplace, hstop, hbefore, hafter, hpart, cutsBetween,
    bind, Option.bind, pure]
  exact (apply_ite (some ∘ Sum.inl) _ _ _).symm

/-- The cuts made so far, and those that the scan over the rest makes, are those of the text. -/
inductive Cutting.Follows (keyword text : List Char) : Cutting → Prop
  | intro (parts : List (List Char)) (front pending rest : List Char)
    (htext : text = front ++ (pending ++ rest))
    (hparts : splitKeyword keyword text =
      parts ++ pending.foldr consHead
        (splitKeywordFrom keyword 0 (front ++ pending).getLast? rest)) :
    Follows keyword text ⟨parts, size front, size (front ++ pending)⟩

/-- At a keyword between two blanks the part is cut off. -/
theorem Cutting.Follows.cut
    (htext : text = front ++ pending ++ passed ++ keyword ++ back)
    (hlast : (front ++ pending ++ passed ++ keyword).getLast? = keyword.getLast?)
    (hparts : splitKeyword keyword text = parts ++ (pending ++ passed).foldr consHead
      ([] :: splitKeywordFrom keyword 0 keyword.getLast? back)) :
    Cutting.Follows keyword text ⟨parts ++ [pending ++ passed],
      size (front ++ pending ++ passed ++ keyword),
      size (front ++ pending ++ passed ++ keyword)⟩ := by
  have hrest : splitKeyword keyword text = (parts ++ [pending ++ passed]) ++
      [].foldr consHead (splitKeywordFrom keyword 0
        (front ++ pending ++ passed ++ keyword ++ []).getLast? back) := by
    rw [hparts, foldr_consHead_cons, List.append_nil, List.append_nil, hlast, List.append_assoc]
    rfl
  have hnew := Cutting.Follows.intro _ _ [] back htext hrest
  rwa [List.append_nil] at hnew

/-- At another keyword the search goes on behind it. -/
theorem Cutting.Follows.pass
    (htext : text = front ++ pending ++ passed ++ keyword ++ back)
    (hlast : (front ++ pending ++ passed ++ keyword).getLast? = keyword.getLast?)
    (hparts : splitKeyword keyword text = parts ++ (pending ++ passed).foldr consHead
      (keyword.foldr consHead (splitKeywordFrom keyword 0 keyword.getLast? back))) :
    Cutting.Follows keyword text
      ⟨parts, size front, size (front ++ pending ++ passed ++ keyword)⟩ := by
  have hassoc : front ++ pending ++ passed ++ keyword = front ++ (pending ++ passed ++ keyword) := by
    simp only [List.append_assoc]
  rw [hassoc, List.append_assoc] at htext
  rw [← List.foldr_append, ← hlast, hassoc] at hparts
  rw [hassoc]
  exact .intro _ _ _ _ htext hparts

theorem proceeds_cuttingRound (hkeyword : StartsOnce keyword) (s : Cutting)
    (h : s.Follows keyword text) :
    Proceeds (size text) Cutting.next (cuttingRound keyword text) (Cutting.Follows keyword text)
      (· = splitKeyword keyword text) s := by
  obtain ⟨parts, front, pending, rest, htext, hparts⟩ := h
  cases hoffset : offset? keyword rest with
  | none =>
    rw [splitKeywordFrom_of_notInfix (not_infix_of_offset? hoffset), foldr_consHead_cons] at hparts
    exact .finish _ (cuttingRound_of_none htext hoffset) hparts.symm
  | some offset =>
    obtain ⟨passed, back, rfl, rfl, hfirst⟩ := exists_of_offset? hoffset
    have hlast : (front ++ pending ++ passed ++ keyword).getLast? = keyword.getLast? := by
      obtain ⟨mark, word, rfl, -⟩ := hkeyword.exists_cons
      rw [List.getLast?_append, List.getLast?_cons]
      rfl
    have htext' : text = front ++ pending ++ passed ++ keyword ++ back := by
      simpa only [List.append_assoc] using htext
    have hforward : size (front ++ pending) < size (front ++ pending ++ passed ++ keyword) := by
      have hpos := size_pos hkeyword.ne_nil
      simp only [size_append]
      omega
    have hend : size (front ++ pending ++ passed ++ keyword) ≤ size text := by
      rw [htext', size_append _ back]
      exact Nat.le_add_right _ _
    rw [splitKeywordFrom_append_of_notPrefix hfirst, ← List.getLast?_append, ← List.foldr_append,
      splitKeywordFrom_append hkeyword] at hparts
    refine .step _ (cuttingRound_of_some htext hoffset) ?_ ?_ ?_
    · split <;> exact hforward
    · split <;> exact hend
    · split
      · next hcut =>
        rw [if_pos hcut] at hparts
        exact .cut htext' hlast hparts
      · next hcut =>
        rw [if_neg hcut] at hparts
        exact .pass htext' hlast hparts

end Round

/-- **Searching a keyword by positions never fails**, and cuts the text at it. -/
theorem splitKeyword?_eq {keyword : List Char} (hkeyword : StartsOnce keyword)
    (text : List Char) : splitKeyword? keyword text = some (splitKeyword keyword text) := by
  obtain ⟨parts, hparts, rfl⟩ := exists_scan (proceeds_cuttingRound hkeyword)
    (.intro [] [] [] text rfl rfl)
  exact hparts

end StyleCascade.Media
