import StyleCascade.Proofs.Keywords
import StyleCascade.Proofs.Slices

/-!
# Where a text is cut at a keyword

Joined by the keyword, the parts of a text are the text again (`intercalate_splitKeyword`), so the
parts tell at which bytes it was cut (`cutPlaces`).  These are the places at which the keyword
stands with an ASCII blank directly before and directly after it (`StandsAt`): all of them and no
others (`mem_cutPlaces_splitKeyword_iff`), each once.

The scan passes a keyword whole, whether it cuts there or not (`splitKeywordFrom_append`).  No
occurrence is lost by this, for a keyword whose first letter is nowhere else in it does not overlap
itself (`StartsOnce.exists_append_of_ne_nil`).  What is behind a keyword is not passed with it, so
one blank can stand behind a keyword and before the next.
-/

namespace StyleCascade.Media
open Text
open Json (bytesOf)

variable {keyword text front back : List Char} {place : Nat}

/-! ## One keyword after the other -/

/-- The first letter of a word is nowhere else in it. -/
def StartsOnce : List Char → Prop
  | [] => False
  | mark :: word => mark ∉ word

instance : DecidablePred StartsOnce
  | [] => inferInstanceAs (Decidable False)
  | mark :: word => inferInstanceAs (Decidable (mark ∉ word))

theorem StartsOnce.exists_cons (h : StartsOnce keyword) :
    ∃ mark word, keyword = mark :: word ∧ mark ∉ word := by
  cases keyword with
  | nil => exact h.elim
  | cons mark word => exact ⟨mark, word, rfl, h⟩

theorem StartsOnce.ne_nil (h : StartsOnce keyword) : keyword ≠ [] := by
  rintro rfl
  exact h

/-- **Such a word does not overlap itself.** -/
theorem StartsOnce.exists_append_of_ne_nil (hkeyword : StartsOnce keyword) (hne : front ≠ [])
    {rest : List Char} (h : keyword ++ rest = front ++ (keyword ++ back)) :
    ∃ between, front = keyword ++ between ∧ rest = between ++ (keyword ++ back) := by
  rcases List.append_eq_append_iff.mp h with ⟨between, hfront, hrest⟩ | ⟨shared, hshared, hback⟩
  · exact ⟨between, hfront, hrest⟩
  · cases shared with
    | nil => exact ⟨[], by simpa using hshared.symm, by simpa using hback.symm⟩
    | cons c shared =>
      -- The second occurrence would start inside the first.
      obtain ⟨mark, word, rfl, hmark⟩ := hkeyword.exists_cons
      obtain ⟨c', front, rfl⟩ := List.exists_cons_of_ne_nil hne
      obtain ⟨rfl, -⟩ := List.cons_eq_cons.mp hback
      obtain ⟨-, hword⟩ := List.cons_eq_cons.mp hshared
      exact absurd (hword ▸ List.mem_append_right front List.mem_cons_self) hmark

/-- The scan goes from keyword to keyword, and character by character between them. -/
theorem keyword_induction (hne : keyword ≠ []) {P : Option Char → List Char → Prop}
    (nil : ∀ before, P before [])
    (skip : ∀ before c rest, ¬keyword <+: c :: rest → P (some c) rest → P before (c :: rest))
    (found : ∀ before back, P keyword.getLast? back → P before (keyword ++ back))
    (before : Option Char) (text : List Char) : P before text := by
  induction hlength : text.length using Nat.strongRecOn generalizing before text with
  | _ length ih =>
    subst hlength
    cases text with
    | nil => exact nil before
    | cons c rest =>
      by_cases hstart : keyword <+: c :: rest
      · obtain ⟨back, hback⟩ := hstart
        have hpos := List.length_pos_of_ne_nil hne
        rw [← hback]
        refine found before back (ih _ ?_ _ _ rfl)
        rw [← hback, List.length_append]
        omega
      · exact skip before c rest hstart (ih _ (Nat.lt_succ_self _) _ _ rfl)

/-! ## The scan over a keyword -/

/-- Whether a keyword is cut off between what is before it and what is behind. -/
def cutsBetween (before : Option Char) (back : List Char) : Bool :=
  before.any isAsciiBlank && back.head?.any isAsciiBlank

/-- What the keyword does not start in is passed. -/
theorem splitKeywordFrom_append_of_notPrefix
    (h : ∀ passed c rest, front = passed ++ c :: rest → ¬keyword <+: c :: (rest ++ back))
    (before : Option Char) :
    splitKeywordFrom keyword 0 before (front ++ back) =
      front.foldr consHead (splitKeywordFrom keyword 0 (front.getLast?.or before) back) := by
  induction front generalizing before with
  | nil => rfl
  | cons c front ih =>
    have hrest : ∀ passed d rest, front = passed ++ d :: rest →
        ¬keyword <+: d :: (rest ++ back) := by
      rintro passed d rest rfl
      exact h (c :: passed) d rest rfl
    rw [List.cons_append, splitKeywordFrom_cons_of_notPrefix (h [] c front rfl), ih hrest,
      getLast?_cons_or]
    rfl

/-- **A keyword is passed whole.**  It ends a part between two blanks and belongs to one
otherwise. -/
theorem splitKeywordFrom_append (hkeyword : StartsOnce keyword) (before : Option Char)
    (back : List Char) :
    splitKeywordFrom keyword 0 before (keyword ++ back) =
      if cutsBetween before back then
        [] :: splitKeywordFrom keyword 0 keyword.getLast? back
      else keyword.foldr consHead (splitKeywordFrom keyword 0 keyword.getLast? back) := by
  have hstands : standsAlone keyword before (keyword ++ back) = cutsBetween before back := by
    rw [standsAlone, List.isPrefixOf?_eq_some_iff_append_eq.mpr rfl]
    rfl
  obtain ⟨mark, word, rfl, hmark⟩ := hkeyword.exists_cons
  have hlast : word.getLast?.or (some mark) = (mark :: word).getLast? := by
    rw [← getLast?_cons_or mark word none, Option.or_none]
  rw [List.cons_append] at hstands ⊢
  rw [splitKeywordFrom, hstands]
  split
  · rw [List.length_cons, Nat.add_sub_cancel, splitKeywordFrom_length, hlast]
  · rw [splitKeywordFrom_append_of_notPrefix, hlast]
    · rfl
    · rintro passed c rest rfl hp
      obtain ⟨rfl, -⟩ := List.cons_prefix_cons.mp hp
      simp at hmark

/-! ## The parts together -/

theorem intercalate_foldr_consHead {parts : List (List Char)} (hne : parts ≠ [])
    (front : List Char) :
    keyword.intercalate (front.foldr consHead parts) = front ++ keyword.intercalate parts := by
  obtain ⟨part, parts, rfl⟩ := List.exists_cons_of_ne_nil hne
  rw [foldr_consHead_cons]
  cases parts with
  | nil => rw [List.intercalate_singleton, List.intercalate_singleton]
  | cons next parts => simp only [List.intercalate_cons_cons, List.append_assoc]

theorem intercalate_splitKeywordFrom (hkeyword : StartsOnce keyword) (before : Option Char)
    (text : List Char) :
    keyword.intercalate (splitKeywordFrom keyword 0 before text) = text := by
  induction before, text using keyword_induction hkeyword.ne_nil with
  | nil before => exact List.intercalate_singleton
  | skip before c rest hstart ih =>
    have hne : splitKeywordFrom keyword 0 (some c) rest ≠ [] := splitKeywordFrom_ne_nil 0 _ rest
    have hpass : keyword.intercalate (consHead c (splitKeywordFrom keyword 0 (some c) rest)) =
        c :: keyword.intercalate (splitKeywordFrom keyword 0 (some c) rest) :=
      intercalate_foldr_consHead hne [c]
    rw [splitKeywordFrom_cons_of_notPrefix hstart, hpass, ih]
  | found before back ih =>
    have hne : splitKeywordFrom keyword 0 keyword.getLast? back ≠ [] :=
      splitKeywordFrom_ne_nil 0 _ back
    rw [splitKeywordFrom_append hkeyword]
    split
    · rw [List.intercalate_cons_of_ne_nil hne, ih]
      rfl
    · rw [intercalate_foldr_consHead hne, ih]

/-- **Joined by the keyword, the parts are the text.** -/
theorem intercalate_splitKeyword (hkeyword : StartsOnce keyword) (text : List Char) :
    keyword.intercalate (splitKeyword keyword text) = text :=
  intercalate_splitKeywordFrom hkeyword none text

/-! ## The places of the cuts -/

/-- The byte positions of the joined text at which its parts were cut, where the keyword starts. -/
def cutPlaces (keyword : List Char) : List (List Char) → List Nat
  | part :: next :: parts =>
    size part :: (cutPlaces keyword (next :: parts)).map (size part + size keyword + ·)
  | _ => []

theorem cutPlaces_cons {part : List Char} {parts : List (List Char)} (hne : parts ≠ []) :
    cutPlaces keyword (part :: parts) =
      size part :: (cutPlaces keyword parts).map (size part + size keyword + ·) := by
  obtain ⟨next, parts, rfl⟩ := List.exists_cons_of_ne_nil hne
  rfl

theorem cutPlaces_foldr_consHead {parts : List (List Char)} (hne : parts ≠ [])
    (front : List Char) :
    cutPlaces keyword (front.foldr consHead parts) =
      (cutPlaces keyword parts).map (size front + ·) := by
  obtain ⟨part, parts, rfl⟩ := List.exists_cons_of_ne_nil hne
  rw [foldr_consHead_cons]
  cases parts with
  | nil => rfl
  | cons next parts => simp [cutPlaces, size_append, Nat.add_assoc]

/-- Each place is told once, in the order of the text. -/
theorem cutPlaces_pairwise_lt (hne : keyword ≠ []) (parts : List (List Char)) :
    (cutPlaces keyword parts).Pairwise (· < ·) := by
  induction parts with
  | nil => exact List.Pairwise.nil
  | cons part parts ih =>
    cases parts with
    | nil => exact List.Pairwise.nil
    | cons next parts =>
      have hpos := size_pos hne
      refine List.pairwise_cons.mpr ⟨?_, List.pairwise_map.mpr (ih.imp fun hlt => ?_)⟩
      · intro place hplace
        obtain ⟨later, -, rfl⟩ := List.mem_map.mp hplace
        omega
      · exact Nat.add_lt_add_left hlt _

/-! ## Where a keyword stands -/

/-- The keyword stands behind `front` between two blanks.  The character in front of the text is
`before`. -/
def StandsBehind (keyword : List Char) (before : Option Char) (text front : List Char) : Prop :=
  ∃ back, text = front ++ (keyword ++ back) ∧ cutsBetween (front.getLast?.or before) back = true

theorem standsBehind_cons_iff {before : Option Char} {c : Char} {rest : List Char}
    (hstart : ¬keyword <+: c :: rest) :
    StandsBehind keyword before (c :: rest) front ↔
      ∃ front', front = c :: front' ∧ StandsBehind keyword (some c) rest front' := by
  constructor
  · rintro ⟨back, htext, hcut⟩
    cases front with
    | nil => exact absurd ⟨back, htext.symm⟩ hstart
    | cons c' front =>
      obtain ⟨rfl, hrest⟩ := List.cons_eq_cons.mp htext
      exact ⟨front, rfl, back, hrest, getLast?_cons_or c front before ▸ hcut⟩
  · rintro ⟨front, rfl, back, rfl, hcut⟩
    exact ⟨back, rfl, (getLast?_cons_or c front before).symm ▸ hcut⟩

theorem standsBehind_append_iff (hkeyword : StartsOnce keyword) {before : Option Char} :
    StandsBehind keyword before (keyword ++ back) front ↔
      (front = [] ∧ cutsBetween before back = true) ∨
        ∃ front', front = keyword ++ front' ∧
          StandsBehind keyword keyword.getLast? back front' := by
  have hlast (front' : List Char) : (keyword ++ front').getLast?.or before =
      front'.getLast?.or keyword.getLast? := by
    obtain ⟨mark, word, rfl, -⟩ := hkeyword.exists_cons
    rw [List.getLast?_append, Option.or_assoc, List.getLast?_cons]
    rfl
  constructor
  · rintro ⟨back', htext, hcut⟩
    by_cases hne : front = []
    · subst hne
      obtain rfl := List.append_cancel_left htext
      exact .inl ⟨rfl, hcut⟩
    · obtain ⟨front, rfl, rfl⟩ := hkeyword.exists_append_of_ne_nil hne htext
      exact .inr ⟨front, rfl, back', rfl, hlast front ▸ hcut⟩
  · rintro (⟨rfl, hcut⟩ | ⟨front, rfl, back', rfl, hcut⟩)
    · exact ⟨back, rfl, hcut⟩
    · exact ⟨back', (List.append_assoc ..).symm, (hlast front).symm ▸ hcut⟩

/-- Places behind a passed part of the text. -/
theorem mem_map_size_iff {P : List Char → Prop} {places : List Nat}
    (h : ∀ {place}, place ∈ places ↔ ∃ front, P front ∧ size front = place) (passed : List Char) :
    place ∈ places.map (size passed + ·) ↔ ∃ front, P front ∧ size (passed ++ front) = place := by
  simp only [List.mem_map, h, size_append]
  constructor
  · rintro ⟨_, ⟨front, hfront, rfl⟩, rfl⟩
    exact ⟨front, hfront, rfl⟩
  · rintro ⟨front, hfront, rfl⟩
    exact ⟨size front, ⟨front, hfront, rfl⟩, rfl⟩

theorem mem_cutPlaces_splitKeywordFrom_iff (hkeyword : StartsOnce keyword) (before : Option Char)
    (text : List Char) :
    place ∈ cutPlaces keyword (splitKeywordFrom keyword 0 before text) ↔
      ∃ front, StandsBehind keyword before text front ∧ size front = place := by
  induction before, text using keyword_induction hkeyword.ne_nil generalizing place with
  | nil before =>
    refine ⟨fun h => absurd h List.not_mem_nil, ?_⟩
    rintro ⟨front, ⟨back, htext, -⟩, -⟩
    obtain ⟨-, hrest⟩ := List.append_eq_nil_iff.mp htext.symm
    exact absurd (List.append_eq_nil_iff.mp hrest).1 hkeyword.ne_nil
  | skip before c rest hstart ih =>
    have hpass : cutPlaces keyword (consHead c (splitKeywordFrom keyword 0 (some c) rest)) =
        (cutPlaces keyword (splitKeywordFrom keyword 0 (some c) rest)).map (size [c] + ·) :=
      cutPlaces_foldr_consHead (splitKeywordFrom_ne_nil 0 _ rest) [c]
    rw [splitKeywordFrom_cons_of_notPrefix hstart, hpass, mem_map_size_iff ih]
    constructor
    · rintro ⟨front, hfront, rfl⟩
      exact ⟨c :: front, (standsBehind_cons_iff hstart).mpr ⟨front, rfl, hfront⟩, rfl⟩
    · rintro ⟨front, hstands, rfl⟩
      obtain ⟨front, rfl, hfront⟩ := (standsBehind_cons_iff hstart).mp hstands
      exact ⟨front, hfront, rfl⟩
  | found before back ih =>
    have hne : splitKeywordFrom keyword 0 keyword.getLast? back ≠ [] :=
      splitKeywordFrom_ne_nil 0 _ back
    have hlater (place : Nat) := @mem_map_size_iff place _ _ ih keyword
    rw [splitKeywordFrom_append hkeyword]
    by_cases hcut : cutsBetween before back = true
    · rw [if_pos hcut, cutPlaces_cons hne, size_nil, Nat.zero_add, List.mem_cons, hlater]
      constructor
      · rintro (rfl | ⟨front, hfront, rfl⟩)
        · exact ⟨[], (standsBehind_append_iff hkeyword).mpr (.inl ⟨rfl, hcut⟩), rfl⟩
        · exact ⟨keyword ++ front,
            (standsBehind_append_iff hkeyword).mpr (.inr ⟨front, rfl, hfront⟩), rfl⟩
      · rintro ⟨front, hstands, rfl⟩
        obtain ⟨rfl, -⟩ | ⟨front, rfl, hfront⟩ := (standsBehind_append_iff hkeyword).mp hstands
        · exact .inl size_nil
        · exact .inr ⟨front, hfront, rfl⟩
    · rw [if_neg hcut, cutPlaces_foldr_consHead hne, hlater]
      constructor
      · rintro ⟨front, hfront, rfl⟩
        exact ⟨keyword ++ front,
          (standsBehind_append_iff hkeyword).mpr (.inr ⟨front, rfl, hfront⟩), rfl⟩
      · rintro ⟨front, hstands, rfl⟩
        obtain ⟨-, hcut'⟩ | ⟨front, rfl, hfront⟩ := (standsBehind_append_iff hkeyword).mp hstands
        · exact absurd hcut' hcut
        · exact ⟨front, hfront, rfl⟩

/-- The keyword stands at a byte of the text, directly behind an ASCII blank and directly in front
of one. -/
structure StandsAt (keyword text : List Char) (place : Nat) : Prop where
  occurs : bytesOf keyword <+: (bytesOf text).drop place
  blankBefore : 0 < place ∧ ((bytesOf text)[place - 1]?).any isBlankByte = true
  blankAfter : ((bytesOf text)[place + size keyword]?).any isBlankByte = true

theorem any_of_map_eq {α β : Type} {f : α → Bool} {g : β → Bool} {a : Option α} {b : Option β}
    (h : a.map f = b.map g) : a.any f = b.any g := by
  cases a <;> cases b <;> simp_all

/-- What stands in the bytes of a text stands between its characters. -/
theorem standsAt_iff (hne : keyword ≠ []) (hascii : ∀ c ∈ keyword, c.toNat < 0x80) :
    StandsAt keyword text place ↔
      ∃ front, StandsBehind keyword none text front ∧ size front = place := by
  constructor
  · intro h
    obtain ⟨front, back, rfl, rfl⟩ := exists_of_prefix_drop_bytesOf hne hascii h.occurs
    obtain ⟨hpos, hbefore⟩ := h.blankBefore
    have hafter := h.blankAfter
    have hfront : front ≠ [] := by
      rintro rfl
      exact Nat.lt_irrefl 0 hpos
    rw [any_of_map_eq (map_isBlankByte_size_sub_one hfront _)] at hbefore
    rw [← size_append, ← List.append_assoc, any_of_map_eq (map_isBlankByte_size _ _)] at hafter
    refine ⟨front, ⟨back, rfl, ?_⟩, rfl⟩
    rw [cutsBetween, Option.or_none, hbefore, hafter]
    rfl
  · rintro ⟨front, ⟨back, rfl, hcut⟩, rfl⟩
    rw [cutsBetween, Option.or_none, Bool.and_eq_true] at hcut
    obtain ⟨hbefore, hafter⟩ := hcut
    have hfront : front ≠ [] := by
      rintro rfl
      exact absurd hbefore Bool.false_ne_true
    refine ⟨?_, ⟨size_pos hfront, ?_⟩, ?_⟩
    · rw [drop_bytesOf_append, Json.bytesOf_append]
      exact List.prefix_append _ _
    · rw [any_of_map_eq (map_isBlankByte_size_sub_one hfront _), hbefore]
    · rw [← size_append, ← List.append_assoc, any_of_map_eq (map_isBlankByte_size _ _), hafter]

/-- **A text is cut exactly where the keyword stands** between two ASCII blanks. -/
theorem mem_cutPlaces_splitKeyword_iff (hkeyword : StartsOnce keyword)
    (hascii : ∀ c ∈ keyword, c.toNat < 0x80) (text : List Char) :
    place ∈ cutPlaces keyword (splitKeyword keyword text) ↔ StandsAt keyword text place := by
  rw [standsAt_iff hkeyword.ne_nil hascii]
  exact mem_cutPlaces_splitKeywordFrom_iff hkeyword none text

/-! ## The keywords of media queries -/

/-- **The words `and` and `or` cut a text exactly where they stand alone.**  The parts give the text
back, and the cuts are all the bytes at which the word stands between two ASCII blanks, in order. -/
theorem splitKeyword_at_words (h : keyword = "and".toList ∨ keyword = "or".toList)
    (text : List Char) :
    keyword.intercalate (splitKeyword keyword text) = text ∧
      (cutPlaces keyword (splitKeyword keyword text)).Pairwise (· < ·) ∧
      ∀ place, place ∈ cutPlaces keyword (splitKeyword keyword text) ↔
        StandsAt keyword text place := by
  have honce : StartsOnce keyword := by rcases h with rfl | rfl <;> decide
  have hascii : ∀ c ∈ keyword, c.toNat < 0x80 := by
    rcases h with rfl | rfl <;> exact ascii_of_all rfl
  exact ⟨intercalate_splitKeyword honce text, cutPlaces_pairwise_lt honce.ne_nil _,
    fun place => mem_cutPlaces_splitKeyword_iff honce hascii text⟩

/-- Two neighbouring words share the blank between them; a word inside another, at the end or
behind a wider blank does not cut. -/
theorem splitKeyword_at_words_neighbours :
    splitKeyword "and".toList "é and and band and and and".toList =
        ["é ".toList, " ".toList, " band and and and".toList] ∧
      ∀ place, place ∈ [3, 7] ↔
        StandsAt "and".toList "é and and band and and and".toList place :=
  ⟨by decide,
    (splitKeyword_at_words (.inl rfl) "é and and band and and and".toList).2.2⟩

end StyleCascade.Media
