import Mathlib.Data.List.Basic
import StyleCascade.Media.Parser
import StyleCascade.Proofs.Pieces

/-!
# Cutting at keywords

A text without the keyword is one part (`splitKeyword_of_notInfix`).  A keyword between two blanks
ends the part in front of it, whatever follows (`map_trim_splitKeyword_append`): the character
before a position matters only where the keyword starts (`splitKeywordFrom_of_notPrefix`).  So
parts joined by a keyword are found again, up to the blanks around them
(`map_trim_splitKeyword_intercalate`).
-/

namespace StyleCascade.Text

/-! ## Occurrences of a word -/

variable {word front rest : List Char} {mark : Char}

/-- A word without the mark does not reach over it. -/
theorem prefix_of_prefix_append_cons (front : List Char) (hmark : mark ∉ word)
    (h : word <+: front ++ mark :: rest) : word <+: front := by
  rcases Nat.le_total word.length front.length with hle | hle
  · exact List.prefix_of_prefix_length_le h (List.prefix_append front _) hle
  · obtain ⟨more, rfl⟩ := List.prefix_of_prefix_length_le (List.prefix_append front _) h hle
    cases more with
    | nil => simp
    | cons c more =>
      obtain ⟨rfl, -⟩ := List.cons_prefix_cons.mp ((List.prefix_append_right_inj front).mp h)
      simp at hmark

theorem not_infix_append_cons (hmark : mark ∉ word) (hfront : ¬word <:+: front)
    (hrest : ¬word <:+: rest) : ¬word <:+: front ++ mark :: rest := by
  induction front with
  | nil =>
    intro h
    rcases List.infix_cons_iff.mp h with hstarts | hinside
    · exact hfront (prefix_of_prefix_append_cons [] hmark hstarts).isInfix
    · exact hrest hinside
  | cons c front ih =>
    intro h
    rcases List.infix_cons_iff.mp h with hstarts | hinside
    · exact hfront (prefix_of_prefix_append_cons (c :: front) hmark hstarts).isInfix
    · exact ih (fun hin => hfront (List.infix_cons hin)) hinside

theorem not_infix_append_of_forall_not_mem (hfront : ∀ c ∈ front, c ∉ word)
    (hrest : ¬word <:+: rest) : ¬word <:+: front ++ rest := by
  have hne : ¬word <:+: [] := fun h => hrest (List.infix_nil.mp h ▸ List.nil_infix)
  induction front with
  | nil => exact hrest
  | cons c front ih =>
    obtain ⟨hc, hfront⟩ := List.forall_mem_cons.mp hfront
    have hinside := not_infix_append_cons hc hne (ih hfront)
    exact hinside

/-- A word does not occur where its first letter does not. -/
theorem not_infix_of_not_mem {text : List Char} (h : mark ∉ text) : ¬(mark :: word) <:+: text :=
  fun hin => h (hin.subset (List.mem_cons_self ..))

end StyleCascade.Text

namespace StyleCascade.Media
open Text

variable {keyword front : List Char} {blank : Char}

theorem foldr_consHead_cons (front part : List Char) (parts : List (List Char)) :
    front.foldr consHead (part :: parts) = (front ++ part) :: parts := by
  induction front with
  | nil => rfl
  | cons c front ih =>
    rw [List.foldr_cons, ih]
    rfl

/-- What stands in front of a text is the last character passed. -/
theorem getLast?_cons_or (c : Char) (passed : List Char) (before : Option Char) :
    (c :: passed).getLast?.or before = passed.getLast?.or (some c) := by
  rw [← List.singleton_append, List.getLast?_append, Option.or_assoc]
  rfl

/-! ## Away from the keyword -/

theorem standsAlone_of_notPrefix {text : List Char} (h : ¬keyword <+: text)
    (before : Option Char) : standsAlone keyword before text = false := by
  cases hafter : keyword.isPrefixOf? text with
  | none => simp [standsAlone, hafter]
  | some after => exact absurd ⟨after, List.isPrefixOf?_eq_some_iff_append_eq.mp hafter⟩ h

theorem splitKeywordFrom_cons_of_notPrefix {c : Char} {rest : List Char}
    (h : ¬keyword <+: c :: rest) (before : Option Char) :
    splitKeywordFrom keyword 0 before (c :: rest) =
      consHead c (splitKeywordFrom keyword 0 (some c) rest) := by
  rw [splitKeywordFrom, standsAlone_of_notPrefix h, if_neg Bool.false_ne_true]

/-- The character in front of a text is of no account where the keyword does not start. -/
theorem splitKeywordFrom_of_notPrefix {text : List Char} (h : ¬keyword <+: text)
    (before : Option Char) :
    splitKeywordFrom keyword 0 before text = splitKeyword keyword text := by
  cases text with
  | nil => rfl
  | cons c rest =>
    rw [splitKeyword, splitKeywordFrom_cons_of_notPrefix h, splitKeywordFrom_cons_of_notPrefix h]

theorem splitKeywordFrom_of_notInfix (h : ¬keyword <:+: front) (before : Option Char) :
    splitKeywordFrom keyword 0 before front = [front] := by
  induction front generalizing before with
  | nil => rfl
  | cons c front ih =>
    rw [splitKeywordFrom_cons_of_notPrefix fun hp => h hp.isInfix,
      ih fun hin => h (List.infix_cons hin)]
    rfl

/-- A text without the keyword is one part. -/
theorem splitKeyword_of_notInfix (h : ¬keyword <:+: front) :
    splitKeyword keyword front = [front] :=
  splitKeywordFrom_of_notInfix h none

/-- What stands before a character that is in no keyword is passed. -/
theorem splitKeywordFrom_append_cons (hblank : blank ∉ keyword) (h : ¬keyword <:+: front)
    (before : Option Char) (rest : List Char) :
    splitKeywordFrom keyword 0 before (front ++ blank :: rest) =
      (front ++ [blank]).foldr consHead (splitKeywordFrom keyword 0 (some blank) rest) := by
  induction front generalizing before with
  | nil =>
    exact splitKeywordFrom_cons_of_notPrefix
      (fun hp => h (prefix_of_prefix_append_cons [] hblank hp).isInfix) before
  | cons c front ih =>
    have hstart : ¬keyword <+: c :: (front ++ blank :: rest) := fun hp =>
      h (prefix_of_prefix_append_cons (c :: front) hblank hp).isInfix
    rw [List.cons_append, splitKeywordFrom_cons_of_notPrefix hstart,
      ih fun hin => h (List.infix_cons hin)]
    rfl

/-! ## At the keyword -/

/-- The characters of a keyword that was found are passed. -/
theorem splitKeywordFrom_length (keyword passed rest : List Char) (before : Option Char) :
    splitKeywordFrom keyword passed.length before (passed ++ rest) =
      splitKeywordFrom keyword 0 (passed.getLast?.or before) rest := by
  induction passed generalizing before with
  | nil => rfl
  | cons c passed ih =>
    rw [getLast?_cons_or]
    exact ih (some c)

/-- **A keyword between two blanks ends a part.** -/
theorem splitKeywordFrom_keyword (hblank : isAsciiBlank blank) (hnot : blank ∉ keyword)
    (hne : keyword ≠ []) (rest : List Char) :
    splitKeywordFrom keyword 0 (some blank) (keyword ++ blank :: rest) =
      [] :: consHead blank (splitKeywordFrom keyword 0 (some blank) rest) := by
  have hstands : standsAlone keyword (some blank) (keyword ++ blank :: rest) = true := by
    have hafter : keyword.isPrefixOf? (keyword ++ blank :: rest) = some (blank :: rest) :=
      List.isPrefixOf?_eq_some_iff_append_eq.mpr rfl
    simp [standsAlone, hafter, hblank]
  have hstop : ¬keyword <+: blank :: rest := fun hp =>
    hne (List.prefix_nil.mp (prefix_of_prefix_append_cons [] hnot hp))
  cases keyword with
  | nil => exact absurd rfl hne
  | cons c keyword =>
    rw [List.cons_append] at hstands ⊢
    rw [splitKeywordFrom, if_pos hstands, List.length_cons, Nat.add_sub_cancel,
      splitKeywordFrom_length, splitKeywordFrom_cons_of_notPrefix hstop]

/-! ## Joined parts -/

theorem map_trim_consHead (hblank : isBlank blank) {parts : List (List Char)} (hne : parts ≠ []) :
    (consHead blank parts).map trim = parts.map trim := by
  obtain ⟨part, parts, rfl⟩ := List.exists_cons_of_ne_nil hne
  have htrim : trim (blank :: part) = trim part :=
    trim_blanks_append (List.forall_mem_singleton.mpr hblank) part
  rw [consHead, List.map_cons, List.map_cons, htrim]

theorem splitKeywordFrom_ne_nil (passing : Nat) (before : Option Char) (text : List Char) :
    splitKeywordFrom keyword passing before text ≠ [] := by
  induction text generalizing passing before with
  | nil => simp [splitKeywordFrom]
  | cons c rest ih =>
    cases passing with
    | succ passing => exact ih passing (some c)
    | zero =>
      rw [splitKeywordFrom]
      split
      · simp
      · obtain ⟨part, parts, hparts⟩ := List.exists_cons_of_ne_nil (ih 0 (some c))
        simp [hparts, consHead]

section Joined

variable (hblank : isAsciiBlank blank) (hnot : blank ∉ keyword) (hne : keyword ≠ [])
include hblank hnot hne

theorem map_trim_splitKeywordFrom_append (h : ¬keyword <:+: front) (before : Option Char)
    (rest : List Char) :
    (splitKeywordFrom keyword 0 before (front ++ blank :: (keyword ++ blank :: rest))).map trim =
      trim front :: (splitKeywordFrom keyword 0 (some blank) rest).map trim := by
  have htrim : trim (front ++ [blank]) = trim front :=
    trim_append_blanks (List.forall_mem_singleton.mpr (isBlank_of_isAsciiBlank hblank)) front
  rw [splitKeywordFrom_append_cons hnot h, splitKeywordFrom_keyword hblank hnot hne,
    foldr_consHead_cons, List.append_nil, List.map_cons, htrim,
    map_trim_consHead (isBlank_of_isAsciiBlank hblank) (splitKeywordFrom_ne_nil 0 _ rest)]

/-- **The part in front of a keyword is cut off**, and the rest is cut as a text of its own. -/
theorem map_trim_splitKeyword_append {rest : List Char} (h : ¬keyword <:+: front)
    (hrest : ¬keyword <+: rest) :
    (splitKeyword keyword (front ++ blank :: (keyword ++ blank :: rest))).map trim =
      trim front :: (splitKeyword keyword rest).map trim := by
  rw [splitKeyword, map_trim_splitKeywordFrom_append hblank hnot hne h,
    splitKeywordFrom_of_notPrefix hrest]

/-- **Parts joined by a keyword are found again**, up to the blanks around them. -/
theorem map_trim_splitKeyword_intercalate {part : List Char} {parts : List (List Char)}
    (h : ∀ p ∈ part :: parts, ¬keyword <:+: p) :
    (splitKeyword keyword
      ((blank :: (keyword ++ [blank])).intercalate (part :: parts))).map trim =
      (part :: parts).map trim := by
  let sep := blank :: (keyword ++ [blank])
  suffices hfrom : ∀ before,
      (splitKeywordFrom keyword 0 before (sep.intercalate (part :: parts))).map trim =
        (part :: parts).map trim from hfrom none
  induction parts generalizing part with
  | nil =>
    intro before
    rw [List.intercalate_singleton, splitKeywordFrom_of_notInfix (h part (List.mem_cons_self ..))]
  | cons next parts ih =>
    intro before
    have htext : part ++ blank :: (keyword ++ [blank]) ++ sep.intercalate (next :: parts) =
        part ++ blank :: (keyword ++ blank :: sep.intercalate (next :: parts)) := by simp
    rw [List.intercalate_cons_cons, htext,
      map_trim_splitKeywordFrom_append hblank hnot hne (h part (List.mem_cons_self ..)),
      ih fun p hp => h p (List.mem_cons_of_mem _ hp)]
    rfl

end Joined

end StyleCascade.Media
