import Mathlib.Data.List.Basic
import Mathlib.Data.List.TakeWhile
import StyleCascade.Text

/-!
# Pieces of a text

What is cut out of a text are characters of the text, and none of those it is cut at
(`of_mem_splitOnP`, `of_mem_words`).  Words are read off piece by piece: a blank ends what is on its
left (`words_append_blank`), and without one inside there is a single word
(`words_of_forall_not_blank`).  Trimming takes the blanks around a text and nothing else
(`trim_append_append`).
-/
namespace StyleCascade.Text

/-- A piece of a text that is cut. -/
theorem of_mem_splitOnP {α : Type} {p : α → Bool} {text piece : List α}
    (h : piece ∈ text.splitOnP p) : ∀ c ∈ piece, p c = false ∧ c ∈ text := by
  induction text generalizing piece with
  | nil =>
    obtain rfl : piece = [] := by simpa using h
    simp
  | cons a text ih =>
    rw [List.splitOnP_cons_eq_if_modifyHead] at h
    by_cases ha : p a
    · rw [if_pos ha, List.mem_cons] at h
      rcases h with rfl | h
      · simp
      · exact fun c hc => ⟨(ih h c hc).1, List.mem_cons_of_mem _ (ih h c hc).2⟩
    · obtain ⟨front, rest, hsplit⟩ := List.exists_cons_of_ne_nil (List.splitOnP_ne_nil p text)
      rw [if_neg ha, hsplit, List.modifyHead_cons, List.mem_cons] at h
      rw [hsplit] at ih
      rcases h with rfl | h
      · intro c hc
        rcases List.mem_cons.mp hc with rfl | hc
        · exact ⟨by simpa using ha, List.mem_cons_self ..⟩
        · have := ih (List.mem_cons_self ..) c hc
          exact ⟨this.1, List.mem_cons_of_mem _ this.2⟩
      · have := ih (List.mem_cons_of_mem _ h)
        exact fun c hc => ⟨(this c hc).1, List.mem_cons_of_mem _ (this c hc).2⟩

/-- A piece of a text that is cut at a mark. -/
theorem of_mem_splitOn {mark : Char} {text piece : List Char} (h : piece ∈ text.splitOn mark) :
    mark ∉ piece ∧ ∀ c ∈ piece, c ∈ text :=
  ⟨fun hmark => by simpa using (of_mem_splitOnP h mark hmark).1,
    fun c hc => (of_mem_splitOnP h c hc).2⟩

/-- The first piece of a text that is cut at a mark. -/
theorem exists_splitOn_eq_cons (mark : Char) (text : List Char) :
    ∃ rest, text.splitOn mark = text.takeWhile (· ≠ mark) :: rest := by
  induction text with
  | nil => exact ⟨[], rfl⟩
  | cons c text ih =>
    obtain ⟨rest, hrest⟩ := ih
    rw [List.splitOn_cons_eq_if_modifyHead, hrest]
    by_cases h : c = mark
    · exact ⟨text.takeWhile (· ≠ mark) :: rest, by simp [h]⟩
    · exact ⟨rest, by simp [h]⟩

theorem splitOn_append_of_not_mem {mark : Char} {front rest piece : List Char}
    {pieces : List (List Char)} (h : mark ∉ front) (hrest : rest.splitOn mark = piece :: pieces) :
    (front ++ rest).splitOn mark = (front ++ piece) :: pieces := by
  induction front with
  | nil => exact hrest
  | cons c front ih =>
    have hc : c ≠ mark := fun heq => h (heq ▸ List.mem_cons_self ..)
    rw [List.cons_append, List.splitOn_cons_eq_if_modifyHead, if_neg (by simpa using hc),
      ih fun hmem => h (List.mem_cons_of_mem _ hmem)]
    rfl

/-! ## Words -/

theorem of_mem_words {text word : List Char} (h : word ∈ words text) :
    word ≠ [] ∧ ∀ c ∈ word, isBlank c = false ∧ c ∈ text := by
  obtain ⟨hpiece, hne⟩ := List.mem_filter.mp h
  exact ⟨by simpa using hne, of_mem_splitOnP hpiece⟩

theorem words_append_blank {blank : Char} (h : isBlank blank) (a b : List Char) :
    words (a ++ blank :: b) = words a ++ words b := by
  rw [words, List.splitOnP_append_cons a b h, List.filter_append]
  rfl

theorem words_of_forall_not_blank {text : List Char} (hne : text ≠ [])
    (h : ∀ c ∈ text, isBlank c = false) : words text = [text] := by
  rw [words, List.splitOnP_eq_singleton h]
  simp [hne]

/-! ## Ends -/

variable {text : List Char}

/-- A text whose first and last characters are no blanks. -/
structure Trimmed (text : List Char) : Prop where
  starts : ∃ c rest, text = c :: rest ∧ isBlank c = false
  ends : ∃ front c, text = front ++ [c] ∧ isBlank c = false

theorem Trimmed.of_forall (hne : text ≠ []) (h : ∀ c ∈ text, isBlank c = false) :
    Trimmed text where
  starts := by
    obtain ⟨c, rest, rfl⟩ := List.exists_cons_of_ne_nil hne
    exact ⟨c, rest, rfl, h c (List.mem_cons_self ..)⟩
  ends := ⟨text.dropLast, text.getLast hne, (List.dropLast_concat_getLast hne).symm,
    h _ (List.getLast_mem hne)⟩

theorem Trimmed.of_all (hne : text ≠ []) (h : text.all (!isBlank ·) = true) : Trimmed text :=
  .of_forall hne fun c hc => by simpa using List.all_eq_true.mp h c hc

/-- What stands between two trimmed texts is of no account. -/
theorem Trimmed.append {left right : List Char} (hl : Trimmed left) (between : List Char)
    (hr : Trimmed right) : Trimmed (left ++ (between ++ right)) := by
  obtain ⟨c, rest, rfl, hc⟩ := hl.starts
  obtain ⟨front, d, rfl, hd⟩ := hr.ends
  exact ⟨⟨c, _, rfl, hc⟩, ⟨c :: rest ++ (between ++ front), d, by simp, hd⟩⟩

theorem Trimmed.trim_append_append {before after : List Char} (h : Trimmed text)
    (hb : ∀ c ∈ before, isBlank c) (ha : ∀ c ∈ after, isBlank c) :
    trim (before ++ (text ++ after)) = text := by
  obtain ⟨c, rest, hstart, hc⟩ := h.starts
  obtain ⟨front, d, hend, hd⟩ := h.ends
  have hfront : trimStart (before ++ (text ++ after)) = text ++ after := by
    rw [trimStart, List.dropWhile_append_of_pos hb, hstart, List.cons_append,
      List.dropWhile_cons_of_neg (by simp [hc])]
  rw [trim, hfront, trimEnd, List.reverse_append,
    List.dropWhile_append_of_pos fun c hc => ha c (List.mem_reverse.mp hc), hend,
    List.reverse_concat, List.dropWhile_cons_of_neg (by simp [hd]), List.reverse_cons,
    List.reverse_reverse]

theorem Trimmed.trim_eq (h : Trimmed text) : trim text = text := by
  simpa using h.trim_append_append (List.forall_mem_nil _) (List.forall_mem_nil _)

/-- A text that is not blank throughout has a first and a last character that are no blanks. -/
theorem blank_or_exists_trimmed (text : List Char) : (∀ c ∈ text, isBlank c) ∨
    ∃ before core after, text = before ++ (core ++ after) ∧ (∀ c ∈ before, isBlank c) ∧
      (∀ c ∈ after, isBlank c) ∧ Trimmed core := by
  induction text with
  | nil => exact .inl (by simp)
  | cons c text ih =>
    by_cases hc : isBlank c
    · rcases ih with hblank | ⟨before, core, after, rfl, hb, ha, hcore⟩
      · exact .inl (List.forall_mem_cons.mpr ⟨hc, hblank⟩)
      · exact .inr ⟨c :: before, core, after, rfl, List.forall_mem_cons.mpr ⟨hc, hb⟩, ha, hcore⟩
    · have hone : Trimmed [c] := .of_forall (by simp) (by simpa using hc)
      rcases ih with hblank | ⟨before, core, after, rfl, hb, ha, hcore⟩
      · exact .inr ⟨[], [c], text, rfl, by simp, hblank, hone⟩
      · exact .inr ⟨[], [c] ++ (before ++ core), after, by simp, by simp, ha,
          hone.append before hcore⟩

theorem trim_of_forall_blank (h : ∀ c ∈ text, isBlank c) : trim text = [] := by
  rw [trim, trimStart, List.dropWhile_eq_nil_iff.mpr h]
  rfl

@[simp] theorem trim_trim (text : List Char) : trim (trim text) = trim text := by
  rcases blank_or_exists_trimmed text with hblank | ⟨before, core, after, rfl, hb, ha, hcore⟩
  · rw [trim_of_forall_blank hblank]
    rfl
  · rw [hcore.trim_append_append hb ha, hcore.trim_eq]

/-- Blanks around a text are of no account. -/
theorem trim_append_append {before after : List Char} (hb : ∀ c ∈ before, isBlank c)
    (ha : ∀ c ∈ after, isBlank c) (text : List Char) :
    trim (before ++ (text ++ after)) = trim text := by
  rcases blank_or_exists_trimmed text with hblank | ⟨before', core, after', rfl, hb', ha', hcore⟩
  · rw [trim_of_forall_blank hblank, trim_of_forall_blank
      (List.forall_mem_append.mpr ⟨hb, List.forall_mem_append.mpr ⟨hblank, ha⟩⟩)]
  · have hregroup : before ++ (before' ++ (core ++ after') ++ after) =
        (before ++ before') ++ (core ++ (after' ++ after)) := by simp
    rw [hregroup, hcore.trim_append_append hb' ha',
      hcore.trim_append_append (List.forall_mem_append.mpr ⟨hb, hb'⟩)
        (List.forall_mem_append.mpr ⟨ha', ha⟩)]

theorem trim_blanks_append {blanks : List Char} (h : ∀ c ∈ blanks, isBlank c) (text : List Char) :
    trim (blanks ++ text) = trim text := by
  simpa using trim_append_append h (List.forall_mem_nil _) text

theorem trim_append_blanks {blanks : List Char} (h : ∀ c ∈ blanks, isBlank c) (text : List Char) :
    trim (text ++ blanks) = trim text := by
  simpa using trim_append_append (List.forall_mem_nil _) h text

/-- What trimming takes off are blanks at both ends. -/
theorem exists_eq_append_trim (text : List Char) : ∃ before after,
    text = before ++ (trim text ++ after) ∧ (∀ c ∈ before, isBlank c) ∧ ∀ c ∈ after, isBlank c := by
  rcases blank_or_exists_trimmed text with hblank | ⟨before, core, after, rfl, hb, ha, hcore⟩
  · exact ⟨text, [], by simp [trim_of_forall_blank hblank], hblank, List.forall_mem_nil _⟩
  · exact ⟨before, after, by rw [hcore.trim_append_append hb ha], hb, ha⟩

theorem trim_eq_nil_iff : trim text = [] ↔ ∀ c ∈ text, isBlank c := by
  constructor
  · intro h
    obtain ⟨before, after, htext, hb, ha⟩ := exists_eq_append_trim text
    rw [htext, h]
    exact List.forall_mem_append.mpr ⟨hb, ha⟩
  · exact trim_of_forall_blank

theorem trimStart_append_cons {c : Char} (h : isBlank c = false) (left rest : List Char) :
    trimStart (left ++ c :: rest) = trimStart left ++ c :: rest := by
  rw [trimStart, List.dropWhile_append, List.dropWhile_cons_of_neg (by simp [h])]
  split
  · rename_i hnil
    rw [trimStart, List.isEmpty_iff.mp hnil, List.nil_append]
  · rfl

theorem trimEnd_append_cons {c : Char} (h : isBlank c = false) (front right : List Char) :
    trimEnd (front ++ c :: right) = front ++ c :: trimEnd right := by
  have hreverse : (front ++ c :: right).reverse = right.reverse ++ c :: front.reverse := by simp
  have hstart := trimStart_append_cons h right.reverse front.reverse
  rw [trimStart, trimStart] at hstart
  rw [trimEnd, hreverse, hstart, trimEnd]
  simp

/-- Around a trimmed text only the blanks at the far ends are taken off. -/
theorem Trimmed.trim_around (h : Trimmed text) (left right : List Char) :
    trim (left ++ (text ++ right)) = trimStart left ++ (text ++ trimEnd right) := by
  obtain ⟨c, rest, hstart, hc⟩ := h.starts
  obtain ⟨front, d, hend, hd⟩ := h.ends
  have hleft : trimStart (left ++ (text ++ right)) = trimStart left ++ (text ++ right) := by
    rw [hstart, List.cons_append, trimStart_append_cons hc]
  have hregroup : trimStart left ++ (text ++ right) = (trimStart left ++ front) ++ d :: right := by
    simp [hend]
  rw [trim, hleft, hregroup, trimEnd_append_cons hd, hend]
  simp

theorem trim_trimStart (text : List Char) : trim (trimStart text) = trim text := by
  have htext : text.takeWhile isBlank ++ trimStart text = text := List.takeWhile_append_dropWhile
  have hblank : ∀ c ∈ text.takeWhile isBlank, isBlank c := fun _ hc => List.mem_takeWhile_imp hc
  rw [← trim_blanks_append hblank, htext]

theorem trim_trimEnd (text : List Char) : trim (trimEnd text) = trim text := by
  have htext : trimEnd text ++ (text.reverse.takeWhile isBlank).reverse = text := by
    rw [trimEnd, ← List.reverse_append, List.takeWhile_append_dropWhile, List.reverse_reverse]
  have hblank : ∀ c ∈ (text.reverse.takeWhile isBlank).reverse, isBlank c :=
    fun _ hc => List.mem_takeWhile_imp (List.mem_reverse.mp hc)
  rw [← trim_append_blanks hblank, htext]

/-! ## Cutting once -/

theorem cutAt_of_notMem {mark : Char} (h : mark ∉ text) :
    cutAt mark text = none := by
  rw [cutAt, if_neg h]

theorem cutAt_append_cons {mark : Char} {front : List Char} (h : mark ∉ front)
    (back : List Char) : cutAt mark (front ++ mark :: back) = some (front, back) := by
  have hall : ∀ c ∈ front, decide (c ≠ mark) = true := by
    intro c hc
    exact decide_eq_true fun he => h (he ▸ hc)
  rw [cutAt, if_pos (by simp), List.takeWhile_append_of_pos hall,
    List.dropWhile_append_of_pos hall]
  simp

theorem eq_of_cutAt {mark : Char} {front back : List Char}
    (h : cutAt mark text = some (front, back)) : text = front ++ mark :: back ∧ mark ∉ front := by
  by_cases hmark : mark ∈ text
  · obtain ⟨a, b, rfl, ha⟩ := List.eq_append_cons_of_mem hmark
    rw [cutAt_append_cons ha] at h
    cases h
    exact ⟨rfl, ha⟩
  · rw [cutAt_of_notMem hmark] at h
    cases h

/-! ## Words at the ends -/

variable {word : List Char} {mark : Char}

/-- What stands behind a character that a word does not have is of no account for how a text
starts. -/
theorem isPrefixOf?_append_cons (hmark : mark ∉ word) (front rest : List Char) :
    word.isPrefixOf? (front ++ mark :: rest) = (word.isPrefixOf? front).map (· ++ mark :: rest) := by
  induction word generalizing front with
  | nil => rfl
  | cons w word ih =>
    rw [List.mem_cons, not_or] at hmark
    obtain ⟨hne, hmark⟩ := hmark
    cases front with
    | nil => simp [List.isPrefixOf?, Ne.symm hne]
    | cons c front =>
      rw [List.cons_append, List.isPrefixOf?, List.isPrefixOf?]
      split
      · exact ih hmark front
      · rfl

theorem isSuffixOf?_append_cons (hmark : mark ∉ word) (front rest : List Char) :
    word.isSuffixOf? (front ++ mark :: rest) = (word.isSuffixOf? rest).map (front ++ mark :: ·) := by
  have hreverse : (front ++ mark :: rest).reverse = rest.reverse ++ mark :: front.reverse := by simp
  rw [List.isSuffixOf?, List.isSuffixOf?, hreverse,
    isPrefixOf?_append_cons (by simpa using hmark), Option.map_map, Option.map_map]
  exact congrArg (Option.map · _) (funext fun more => by simp)

/-- **What is enclosed** stands between the two words. -/
theorem enclosed_eq_some_iff {opening closing inner : List Char} :
    enclosed opening closing text = some inner ↔ text = opening ++ (inner ++ closing) := by
  constructor
  · intro h
    obtain ⟨rest, hopen, hclose⟩ := Option.bind_eq_some_iff.mp h
    obtain rfl := List.isPrefixOf?_eq_some_iff_append_eq.mp hopen
    obtain rfl := List.isSuffixOf?_eq_some_iff_append_eq.mp hclose
    rfl
  · rintro rfl
    exact Option.bind_eq_some_iff.mpr ⟨inner ++ closing,
      List.isPrefixOf?_eq_some_iff_append_eq.mpr rfl,
      List.isSuffixOf?_eq_some_iff_append_eq.mpr rfl⟩

end StyleCascade.Text
