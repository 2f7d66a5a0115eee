import StyleCascade.Proofs.Expansion
import StyleCascade.Proofs.MediaConditions

/-!
# Lists of names

An animation or a font family is a list of names between commas.  A `NameListForm` is such a
list as it is written: every name bare or in quotes of its own, or all of them bare and one pair
of quotes around the list, with any blanks around the commas.

Quotes are taken off twice, from the whole text and then from every piece.  So a list whose first
and last name stand in quotes of the same kind loses the outer one of each, as if the two were a
pair (`nameList_of_splitsPair`); every other list is read name by name (`nameList_chars`).  What
the names stand for is then put together in their order (`Declaration.get?_expand_nameList`).
-/
namespace StyleCascade
namespace Text
open Media (Gap)

/-! ## Syntax -/

/-- The quotes that a name can stand in. -/
inductive Quote
  | double
  | single
deriving DecidableEq, Repr

def Quote.char : Quote → Char
  | double => '"'
  | single => '\''

/-- The quote as a text. -/
def Quote.mark (q : Quote) : String :=
  String.singleton q.char

theorem Quote.char_injective : Function.Injective Quote.char := by
  intro q r h
  cases q <;> cases r <;> first | rfl | exact absurd h (by decide)

/-- A text in quotes, or as it is. -/
def wrap : Option Quote → List Char → List Char
  | none, text => text
  | some q, text => q.char :: (text ++ [q.char])

/-- Blanks, commas and quotes are not part of names, but for blanks inside. -/
structure IsName (name : List Char) : Prop where
  trimmed : Trimmed name
  comma : ',' ∉ name
  quotes : ∀ q : Quote, q.char ∉ name

/-- A name in a list, as it is written. -/
structure NameForm where
  name : String
  isName : IsName name.toList
  quote : Option Quote := none
  before : Gap := ⟨[], List.forall_mem_nil _⟩
  after : Gap := ⟨[], List.forall_mem_nil _⟩

def NameForm.chars (n : NameForm) : List Char :=
  n.before ++ (wrap n.quote n.name.toList ++ n.after)

/-- The names as they stand between commas. -/
def listChars (names : List NameForm) : List Char :=
  [','].intercalate (names.map NameForm.chars)

/-- A list of names, as it is written.  Quotes stand around the list or around names in it. -/
structure NameListForm where
  names : List NameForm
  nonempty : names ≠ []
  quote : Option Quote := none
  bare : quote ≠ none → ∀ n ∈ names, n.quote = none
  before : Gap := ⟨[], List.forall_mem_nil _⟩
  after : Gap := ⟨[], List.forall_mem_nil _⟩

namespace NameListForm

def chars (form : NameListForm) : List Char :=
  form.before ++ (wrap form.quote (listChars form.names) ++ form.after)

def text (form : NameListForm) : String :=
  String.ofList form.chars

/-- The first and the last of several names stand in quotes of one kind. -/
structure SplitsPair (form : NameListForm) (q : Quote) (first : NameForm) (inner : List NameForm)
    (last : NameForm) : Prop where
  names : form.names = first :: (inner ++ [last])
  first : first.quote = some q
  last : last.quote = some q

end NameListForm

/-! ## Quotes -/

variable {text name before after : List Char} {q : Quote} {quote : Option Quote}

theorem Quote.isBlank_char (q : Quote) : isBlank q.char = false := by
  cases q <;> rfl

theorem Quote.char_ne_comma (q : Quote) : q.char ≠ ',' := by
  cases q <;> decide

theorem enclosed_quotes (c : Char) (inner : List Char) :
    enclosed [c] [c] (c :: (inner ++ [c])) = some inner :=
  enclosed_eq_some_iff.mpr rfl

/-- What stands between two marks starts and ends with them. -/
theorem ends_of_enclosed {c : Char} {inner : List Char}
    (h : enclosed [c] [c] text = some inner) :
    text.head? = some c ∧ text.getLast? = some c := by
  obtain rfl := enclosed_eq_some_iff.mp h
  rw [List.singleton_append, ← List.cons_append]
  exact ⟨rfl, List.getLast?_concat⟩

/-- Quotes around a text are taken off, and blanks on both sides of them. -/
theorem dequote_quoted (q : Quote) (inner : List Char) (hb : ∀ c ∈ before, isBlank c)
    (ha : ∀ c ∈ after, isBlank c) :
    dequote (before ++ (q.char :: (inner ++ [q.char]) ++ after)) = trim inner := by
  have htrimmed : Trimmed (q.char :: (inner ++ [q.char])) :=
    ⟨⟨q.char, _, rfl, q.isBlank_char⟩, ⟨q.char :: inner, q.char, rfl, q.isBlank_char⟩⟩
  rw [dequote, htrimmed.trim_append_append hb ha]
  cases q with
  | double => simp only [Quote.char, enclosed_quotes]
  | single =>
    have hdouble : enclosed ['"'] ['"'] ('\'' :: (inner ++ ['\''])) = none := by
      cases h : enclosed ['"'] ['"'] ('\'' :: (inner ++ ['\''])) with
      | none => rfl
      | some inner => exact absurd (ends_of_enclosed h).1 (by simp)
    simp only [Quote.char, hdouble, enclosed_quotes]

/-- A text that does not start and end with the same quote stays, without blanks around it. -/
theorem dequote_unquoted (ht : Trimmed text)
    (hq : ∀ q : Quote, text.head? = some q.char → text.getLast? ≠ some q.char)
    (hb : ∀ c ∈ before, isBlank c) (ha : ∀ c ∈ after, isBlank c) :
    dequote (before ++ (text ++ after)) = text := by
  have hnone : ∀ q : Quote, enclosed [q.char] [q.char] text = none := by
    intro q
    cases h : enclosed [q.char] [q.char] text with
    | none => rfl
    | some inner => exact absurd (ends_of_enclosed h).2 (hq q (ends_of_enclosed h).1)
  have hdouble : enclosed ['"'] ['"'] text = none := hnone .double
  have hsingle : enclosed ['\''] ['\''] text = none := hnone .single
  rw [dequote, ht.trim_append_append hb ha]
  simp only [hdouble, hsingle]

namespace IsName

theorem of_all (hne : name ≠ [])
    (h : name.all (fun c => !isBlank c && c != ',' && c != '"' && c != '\'') = true) :
    IsName name where
  trimmed := .of_all hne <| List.all_eq_true.mpr fun c hc => by
    have hchar := List.all_eq_true.mp h c hc
    simp only [Bool.and_eq_true] at hchar
    exact hchar.1.1.1
  comma hmem := absurd (List.all_eq_true.mp h ',' hmem) (by decide)
  quotes q hmem := absurd (List.all_eq_true.mp h q.char hmem) (by cases q <;> decide)

theorem ne_nil (h : IsName name) : name ≠ [] := by
  obtain ⟨c, rest, hname, -⟩ := h.trimmed.starts
  rw [hname]
  exact List.cons_ne_nil _ _

/-- A written name starts with a quote only if it stands in quotes of that kind. -/
theorem eq_some_of_head? (h : IsName name) (hq : (wrap quote name).head? = some q.char) :
    quote = some q := by
  cases quote with
  | none => exact absurd (List.mem_of_mem_head? hq) (h.quotes q)
  | some r => exact congrArg some (Quote.char_injective (Option.some.inj hq))

/-- A written name ends with a quote only if it stands in quotes of that kind. -/
theorem eq_some_of_getLast? (h : IsName name) (hq : (wrap quote name).getLast? = some q.char) :
    quote = some q := by
  cases quote with
  | none => exact absurd (List.mem_of_getLast? hq) (h.quotes q)
  | some r =>
    rw [wrap, ← List.cons_append, List.getLast?_concat] at hq
    exact congrArg some (Quote.char_injective (Option.some.inj hq))

theorem wrap_ne_nil (h : IsName name) (quote : Option Quote) : wrap quote name ≠ [] := by
  cases quote with
  | none => exact h.ne_nil
  | some q => exact List.cons_ne_nil _ _

theorem trimmed_wrap (h : IsName name) (quote : Option Quote) : Trimmed (wrap quote name) := by
  cases quote with
  | none => exact h.trimmed
  | some q =>
    exact ⟨⟨q.char, _, rfl, q.isBlank_char⟩, ⟨q.char :: name, q.char, rfl, q.isBlank_char⟩⟩

/-- A written name gives its name. -/
theorem dequote_wrap (h : IsName name) (quote : Option Quote) (hb : ∀ c ∈ before, isBlank c)
    (ha : ∀ c ∈ after, isBlank c) : dequote (before ++ (wrap quote name ++ after)) = name := by
  cases quote with
  | some q => exact (dequote_quoted q name hb ha).trans h.trimmed.trim_eq
  | none =>
    refine dequote_unquoted h.trimmed (fun q hq => ?_) hb ha
    exact absurd (List.mem_of_mem_head? hq) (h.quotes q)

/-- A quote behind a name stays where none stands in front of it. -/
theorem dequote_append_quote (h : IsName name) (q : Quote) (ha : ∀ c ∈ after, isBlank c) :
    dequote (name ++ q.char :: after) = name ++ [q.char] := by
  have htrimmed : Trimmed (name ++ [q.char]) :=
    ⟨by
      obtain ⟨c, rest, hname, hc⟩ := h.trimmed.starts
      exact ⟨c, rest ++ [q.char], by rw [hname]; rfl, hc⟩,
      ⟨name, q.char, rfl, q.isBlank_char⟩⟩
  have hfront : ∀ r : Quote, (name ++ [q.char]).head? ≠ some r.char := by
    intro r hr
    rw [List.head?_append_of_ne_nil _ h.ne_nil] at hr
    exact h.quotes r (List.mem_of_mem_head? hr)
  have hread : dequote ([] ++ (name ++ [q.char] ++ after)) = name ++ [q.char] :=
    dequote_unquoted htrimmed (fun r hr => absurd hr (hfront r)) (List.forall_mem_nil _) ha
  simpa using hread

/-- A quote in front of a name stays where none stands behind it. -/
theorem dequote_cons_quote (h : IsName name) (q : Quote) (hb : ∀ c ∈ before, isBlank c) :
    dequote (before ++ q.char :: name) = q.char :: name := by
  have htrimmed : Trimmed (q.char :: name) :=
    ⟨⟨q.char, name, rfl, q.isBlank_char⟩, by
      obtain ⟨front, c, hname, hc⟩ := h.trimmed.ends
      exact ⟨q.char :: front, c, by rw [hname]; rfl, hc⟩⟩
  have hback : ∀ r : Quote, (q.char :: name).getLast? ≠ some r.char := by
    intro r hr
    rw [← List.singleton_append, List.getLast?_append_of_ne_nil _ h.ne_nil] at hr
    exact h.quotes r (List.mem_of_getLast? hr)
  have hread : dequote (before ++ (q.char :: name ++ [])) = q.char :: name :=
    dequote_unquoted htrimmed (fun r _ => hback r) hb (List.forall_mem_nil _)
  simpa using hread

theorem comma_notMem_wrap (h : IsName name) (quote : Option Quote) : ',' ∉ wrap quote name := by
  cases quote with
  | none => exact h.comma
  | some q =>
    intro hmem
    have hcomma : ',' ∈ name := by simpa [wrap, q.char_ne_comma.symm] using hmem
    exact h.comma hcomma

end IsName

/-! ## Between commas -/

/-- The names that stand between the commas of a text. -/
def namesBetween (text : List Char) : List (List Char) :=
  ((text.splitOn ',').map dequote).filter (!·.isEmpty)

theorem comma_notMem_of_blank {blanks : List Char} (h : ∀ c ∈ blanks, isBlank c) :
    ',' ∉ blanks := by
  intro hmem
  exact absurd (h ',' hmem) (by decide)

/-- What is put behind a text is put behind its last piece. -/
theorem exists_splitOn_append {mark : Char} {back : List Char} (h : mark ∉ back)
    (text : List Char) : ∃ pieces piece, text.splitOn mark = pieces ++ [piece] ∧
      (text ++ back).splitOn mark = pieces ++ [piece ++ back] := by
  induction text with
  | nil =>
    have hback : (back ++ []).splitOn mark = [back ++ []] := splitOn_append_of_not_mem h rfl
    exact ⟨[], [], rfl, by simpa using hback⟩
  | cons c text ih =>
    obtain ⟨pieces, piece, htext, hback⟩ := ih
    rw [List.cons_append, List.splitOn_cons_eq_if_modifyHead,
      List.splitOn_cons_eq_if_modifyHead, htext, hback]
    by_cases hc : c == mark
    · exact ⟨[] :: pieces, piece, by simp [hc]⟩
    · cases pieces with
      | nil => exact ⟨[], c :: piece, by simp [hc]⟩
      | cons first pieces => exact ⟨(c :: first) :: pieces, piece, by simp [hc]⟩

theorem dequote_trim (text : List Char) : dequote (trim text) = dequote text := by
  rw [dequote, dequote, trim_trim]

/-- Pieces that differ by blanks around them have the same names. -/
theorem dequote_append_append (hb : ∀ c ∈ before, isBlank c) (ha : ∀ c ∈ after, isBlank c)
    (text : List Char) : dequote (before ++ (text ++ after)) = dequote text := by
  rw [← dequote_trim, trim_append_append hb ha, dequote_trim]

/-- Blanks around a text are of no account to its names. -/
theorem namesBetween_append_append (hb : ∀ c ∈ before, isBlank c) (ha : ∀ c ∈ after, isBlank c)
    (text : List Char) : namesBetween (before ++ (text ++ after)) = namesBetween text := by
  obtain ⟨pieces, piece, htext, hback⟩ :=
    exists_splitOn_append (comma_notMem_of_blank ha) text
  have hpiece : dequote (piece ++ after) = dequote piece :=
    dequote_append_append (List.forall_mem_nil _) ha piece
  cases pieces with
  | nil =>
    have hall := splitOn_append_of_not_mem (comma_notMem_of_blank hb) hback
    simp only [namesBetween, hall, htext, List.nil_append, List.map_cons, List.map_nil,
      dequote_append_append hb ha]
  | cons first pieces =>
    have hall : (before ++ (text ++ after)).splitOn ',' =
        (before ++ first) :: (pieces ++ [piece ++ after]) :=
      splitOn_append_of_not_mem (comma_notMem_of_blank hb) hback
    have hfirst : dequote (before ++ first) = dequote first := by
      simpa using dequote_append_append hb (List.forall_mem_nil _) first
    simp only [namesBetween, hall, htext, List.map_append, List.map_cons, List.map_nil, hfirst,
      hpiece, List.cons_append]

theorem namesBetween_trim (text : List Char) : namesBetween (trim text) = namesBetween text := by
  rcases blank_or_exists_trimmed text with hblank | ⟨before, core, after, rfl, hb, ha, hcore⟩
  · have hall := namesBetween_append_append hblank (List.forall_mem_nil _) []
    rw [trim_of_forall_blank hblank, ← hall, List.append_nil, List.append_nil]
  · rw [hcore.trim_append_append hb ha, namesBetween_append_append hb ha]

/-- Pieces without commas are found again. -/
theorem namesBetween_intercalate {pieces : List (List Char)} (hne : pieces ≠ [])
    (h : ∀ piece ∈ pieces, ',' ∉ piece) :
    namesBetween ([','].intercalate pieces) = (pieces.map dequote).filter (!·.isEmpty) := by
  rw [namesBetween, List.splitOn_intercalate ',' h hne]

namespace NameForm

variable (n : NameForm)

theorem dequote_chars : dequote n.chars = n.name.toList :=
  n.isName.dequote_wrap n.quote n.before.2 n.after.2

theorem comma_notMem_chars : ',' ∉ n.chars := by
  rw [chars, List.mem_append, List.mem_append, not_or, not_or]
  exact ⟨comma_notMem_of_blank n.before.2, n.isName.comma_notMem_wrap n.quote,
    comma_notMem_of_blank n.after.2⟩

end NameForm

theorem filter_map_name (names : List NameForm) :
    (names.map (·.name.toList)).filter (!·.isEmpty) = names.map (·.name.toList) := by
  refine List.filter_eq_self.mpr fun name hname => ?_
  obtain ⟨n, -, rfl⟩ := List.mem_map.mp hname
  simpa using n.isName.ne_nil

/-- Between the commas of a written list stand its names. -/
theorem namesBetween_listChars {names : List NameForm} (hne : names ≠ []) :
    namesBetween (listChars names) = names.map (·.name.toList) := by
  have hcomma : ∀ piece ∈ names.map NameForm.chars, ',' ∉ piece := by
    intro piece hpiece
    obtain ⟨n, -, rfl⟩ := List.mem_map.mp hpiece
    exact n.comma_notMem_chars
  have hdequote : dequote ∘ NameForm.chars = fun n => n.name.toList :=
    funext fun n => n.dequote_chars
  rw [listChars, namesBetween_intercalate (by simpa using hne) hcomma, List.map_map, hdequote,
    filter_map_name]

/-- A single name is what it is read as. -/
theorem NameForm.namesBetween_name (n : NameForm) :
    namesBetween n.name.toList = [n.name.toList] := by
  have hread := namesBetween_listChars (List.cons_ne_nil
    { name := n.name, isName := n.isName : NameForm } [])
  simpa [listChars, chars, wrap] using hread

/-! ## The names of a written list -/

/-- Of several pieces between commas, the text starts with the first and ends with the last. -/
theorem intercalate_cons_concat (first last : List Char) (inner : List (List Char)) :
    [','].intercalate (first :: (inner ++ [last])) =
      first ++ (',' :: inner.flatMap (· ++ [',']) ++ last) := by
  induction inner generalizing first with
  | nil => simp [List.intercalate_cons_cons]
  | cons next inner ih => simp [List.intercalate_cons_cons, ih]

/-- What stands between the first and the last of several names. -/
def charsBetween (first : NameForm) (inner : List NameForm) (last : NameForm) : List Char :=
  first.after ++ (',' :: (inner.map NameForm.chars).flatMap (· ++ [',']) ++ last.before)

theorem listChars_cons_concat (first last : NameForm) (inner : List NameForm) :
    listChars (first :: (inner ++ [last])) =
      first.before ++ (wrap first.quote first.name.toList ++ (charsBetween first inner last ++
        wrap last.quote last.name.toList) ++ last.after) := by
  rw [listChars, List.map_cons, List.map_append, List.map_singleton, intercalate_cons_concat]
  simp [NameForm.chars, charsBetween]

/-- What starts with one written name and ends with another starts and ends with a quote only if
both names stand in quotes of that kind. -/
theorem NameForm.quotes_of_ends {first last : NameForm} {between : List Char}
    (hhead : (wrap first.quote first.name.toList ++
      (between ++ wrap last.quote last.name.toList)).head? = some q.char)
    (hlast : (wrap first.quote first.name.toList ++
      (between ++ wrap last.quote last.name.toList)).getLast? = some q.char) :
    first.quote = some q ∧ last.quote = some q := by
  rw [List.head?_append_of_ne_nil _ (first.isName.wrap_ne_nil _)] at hhead
  rw [← List.append_assoc, List.getLast?_append_of_ne_nil _ (last.isName.wrap_ne_nil _)] at hlast
  exact ⟨first.isName.eq_some_of_head? hhead, last.isName.eq_some_of_getLast? hlast⟩

namespace NameListForm

variable {form : NameListForm}

/-- **A written list is read name by name**, unless its first and last name stand in quotes of
one kind. -/
theorem nameList_chars (h : ∀ q first inner last, ¬form.SplitsPair q first inner last) :
    nameList form.chars = form.names.map (·.name.toList) := by
  suffices hread : namesBetween (dequote form.chars) = form.names.map (·.name.toList) from hread
  cases hquote : form.quote with
  | some q =>
    have hchars : dequote form.chars = trim (listChars form.names) := by
      rw [chars, hquote]
      exact dequote_quoted q _ form.before.2 form.after.2
    rw [hchars, namesBetween_trim, namesBetween_listChars form.nonempty]
  | none =>
    have hchars : form.chars = form.before ++ (listChars form.names ++ form.after) := by
      rw [chars, hquote]
      rfl
    rw [hchars, dequote_append_append form.before.2 form.after.2]
    obtain ⟨first, rest, hnames⟩ := List.exists_cons_of_ne_nil form.nonempty
    rcases List.eq_nil_or_concat rest with rfl | ⟨inner, last, rfl⟩
    · -- The quotes of a single name are taken off with those of the list.
      have hone : listChars [first] = first.chars := by simp [listChars]
      rw [hnames, hone, first.dequote_chars, first.namesBetween_name]
      rfl
    · rw [List.concat_eq_append] at hnames
      have hends : ∀ q : Quote,
          (wrap first.quote first.name.toList ++ (charsBetween first inner last ++
            wrap last.quote last.name.toList)).head? = some q.char →
          (wrap first.quote first.name.toList ++ (charsBetween first inner last ++
            wrap last.quote last.name.toList)).getLast? ≠ some q.char := by
        intro q hhead hlast
        obtain ⟨hfirst, hlast⟩ := NameForm.quotes_of_ends hhead hlast
        exact h q first inner last ⟨hnames, hfirst, hlast⟩
      have hcore := (first.isName.trimmed_wrap first.quote).append (charsBetween first inner last)
        (last.isName.trimmed_wrap last.quote)
      have hread := namesBetween_listChars form.nonempty
      rw [hnames, listChars_cons_concat] at hread ⊢
      rw [dequote_unquoted hcore hends first.before.2 last.after.2, ← hread,
        namesBetween_append_append first.before.2 last.after.2]

/-- **A pair of quotes is split**: between the first and the last name they are taken for quotes
around the list, and each of the two names keeps its inner quote. -/
theorem nameList_of_splitsPair {q : Quote} {first last : NameForm} {inner : List NameForm}
    (h : form.SplitsPair q first inner last) :
    nameList form.chars = (first.name.toList ++ [q.char]) ::
      (inner.map (·.name.toList) ++ [q.char :: last.name.toList]) := by
  obtain ⟨hnames, hfirst, hlast⟩ := h
  have hquote : form.quote = none := by
    by_contra hquote
    have hbare := form.bare hquote first (hnames ▸ List.mem_cons_self)
    rw [hfirst] at hbare
    cases hbare
  have hpieces : first.name.toList ++ q.char :: (charsBetween first inner last ++
      q.char :: last.name.toList) = [','].intercalate ((first.name.toList ++ q.char :: first.after)
        :: (inner.map NameForm.chars ++ [last.before ++ q.char :: last.name.toList])) := by
    rw [intercalate_cons_concat]
    simp [charsBetween]
  have hcomma : ∀ piece ∈ (first.name.toList ++ q.char :: first.after) ::
      (inner.map NameForm.chars ++ [last.before ++ q.char :: last.name.toList]), ',' ∉ piece := by
    have hq : ',' ≠ q.char := q.char_ne_comma.symm
    refine List.forall_mem_cons.mpr ⟨?_, List.forall_mem_append.mpr ⟨?_, ?_⟩⟩
    · simp [first.isName.comma, hq, comma_notMem_of_blank first.after.2]
    · intro piece hpiece
      obtain ⟨n, -, rfl⟩ := List.mem_map.mp hpiece
      exact n.comma_notMem_chars
    · simp [last.isName.comma, hq, comma_notMem_of_blank last.before.2]
  have hdequote : dequote form.chars = trim (first.name.toList ++ q.char ::
      (charsBetween first inner last ++ q.char :: last.name.toList)) := by
    rw [← dequote_quoted q _ first.before.2 last.after.2, chars, hquote, hnames,
      dequote_append_append form.before.2 form.after.2, wrap, listChars_cons_concat, hfirst, hlast]
    simp [wrap]
  have hinner : (inner.map NameForm.chars).map dequote = inner.map (·.name.toList) := by
    rw [List.map_map]
    exact List.map_congr_left fun n _ => n.dequote_chars
  calc nameList form.chars = namesBetween (dequote form.chars) := rfl
    _ = namesBetween (first.name.toList ++ q.char ::
          (charsBetween first inner last ++ q.char :: last.name.toList)) := by
        rw [hdequote, namesBetween_trim]
    _ = ((first.name.toList ++ [q.char]) :: (inner.map (·.name.toList) ++
          [q.char :: last.name.toList])).filter (!·.isEmpty) := by
        rw [hpieces, namesBetween_intercalate (List.cons_ne_nil _ _) hcomma, List.map_cons,
          List.map_append, hinner, List.map_singleton,
          first.isName.dequote_append_quote q first.after.2,
          last.isName.dequote_cons_quote q last.before.2]
    _ = _ := by
        rw [List.filter_cons_of_pos (by simp), List.filter_append, filter_map_name]
        rfl

end NameListForm
end Text

namespace Declaration
open Text (NameListForm)

variable {d : Derivation} {p : Property}

/-- **What is derived from a list of names.**  A written list gives what its names stand for, one
after the other, unless its first and last name stand in quotes of one kind.  Then the first name
is looked up with a quote behind it, and the last one with a quote in front. -/
theorem get?_expand_nameList (hd : d ∈ Derivation.all) {style : Declaration}
    (hp : p ∈ style.properties) (hname : p.name = d.source) (form : NameListForm)
    (hvalue : p.value = some (.string form.text)) (sheets : SheetStack) :
    ((∀ q first inner last, ¬form.SplitsPair q first inner last) →
      ∃ described, List.Forall₂ (sheets.DescribedBy d.kind) (form.names.map (·.name)) described ∧
        (style.expand sheets).get? (d.keyFor p) =
          some { p with name := d.target, value := some (.array described.flatten) }) ∧
    ∀ q first inner last, form.SplitsPair q first inner last →
      ∃ described, List.Forall₂ (sheets.DescribedBy d.kind)
          ((first.name ++ q.mark) :: (inner.map (·.name) ++ [q.mark ++ last.name])) described ∧
        (style.expand sheets).get? (d.keyFor p) =
          some { p with name := d.target, value := some (.array described.flatten) } := by
  have htext : form.text.toList = form.chars := String.toList_ofList
  constructor
  · intro h
    have hnames : Text.nameList form.text.toList =
        (form.names.map (·.name)).map String.toList := by
      rw [htext, form.nameList_chars h, List.map_map]
      rfl
    exact exists_described_expand hd hp hname hvalue hnames sheets
  · intro q first inner last h
    have hnames : Text.nameList form.text.toList =
        ((first.name ++ q.mark) :: (inner.map (·.name) ++ [q.mark ++ last.name])).map
          String.toList := by
      rw [htext, form.nameList_of_splitsPair h]
      simp [Text.Quote.mark]
    exact exists_described_expand hd hp hname hvalue hnames sheets

/-- A single blank. -/
def oneBlank : Media.Gap :=
  ⟨[' '], List.forall_mem_singleton.mpr rfl⟩

/-- The text `'fade' , spin,"gone"`. -/
def mixedQuotes : NameListForm where
  names := [
    { name := "fade", isName := .of_all (by decide) (by decide), quote := some .single,
      after := oneBlank },
    { name := "spin", isName := .of_all (by decide) (by decide), before := oneBlank },
    { name := "gone", isName := .of_all (by decide) (by decide), quote := some .double }]
  nonempty := List.cons_ne_nil _ _
  bare := fun h => absurd rfl h

/-- Two sheets with an animation that both describe, and one that only the lower one does. -/
def fadingSheets : SheetStack where
  document := [
    { rules := [.keyframes [("fade", .array [.string "old"]), ("spin", .array [.string "turn"])]] },
    { rules := [.keyframes [("fade", .array [.string "new"])]] }]

/-- A style with a single property, whose value is a text. -/
def textStyle (name text : String) : Declaration :=
  .ofList [{ name, value := some (.string text) }]

/-- Quotes of two kinds at the ends are no pair, so every name is found. -/
theorem get?_expand_nameList_mixedQuotes :
    (∀ q first inner last, ¬mixedQuotes.SplitsPair q first inner last) ∧
      ∃ described, List.Forall₂ (fadingSheets.DescribedBy .keyframes) ["fade", "spin", "gone"]
          described ∧
        ((textStyle "animationName" mixedQuotes.text).expand fadingSheets).get?
          "animationKeyframes" =
            some { name := "animationKeyframes", value := some (.array described.flatten) } := by
  have hsplits : ∀ q first inner last, ¬mixedQuotes.SplitsPair q first inner last := by
    rintro q first inner last ⟨hnames, hfirst, hlast⟩
    obtain ⟨rfl, hrest⟩ := List.cons.inj hnames
    have hend := congrArg List.getLast? hrest
    rw [List.getLast?_concat] at hend
    obtain rfl := Option.some.inj hend
    cases hfirst
    cases hlast
  exact ⟨hsplits, (get?_expand_nameList
    (d := ⟨"animationName", "animationKeyframes", .keyframes⟩)
    (p := { name := "animationName", value := some (.string mixedQuotes.text) })
    (by decide) (List.mem_singleton.mpr rfl) rfl mixedQuotes rfl fadingSheets).1 hsplits⟩

/-- The text `"a", "b"`. -/
def pairedQuotes : NameListForm where
  names := [
    { name := "a", isName := .of_all (by decide) (by decide), quote := some .double },
    { name := "b", isName := .of_all (by decide) (by decide), quote := some .double,
      before := oneBlank }]
  nonempty := List.cons_ne_nil _ _
  bare := fun h => absurd rfl h

/-- Neither of two fonts in quotes is looked up under its name. -/
theorem get?_expand_ne_pairedQuotes :
    pairedQuotes.text = "\"a\", \"b\"" ∧ pairedQuotes.names.map (·.name) = ["a", "b"] ∧
      ((textStyle "fontFamily" pairedQuotes.text).expand {}).get? "fontFamilyDesc" =
        some { name := "fontFamilyDesc", value := some (.array
          [.object [("fontName", .string "a\"")], .object [("fontName", .string "\"b")]]) } ∧
      ∀ described, List.Forall₂ (SheetStack.DescribedBy {} .fontFace) ["a", "b"] described →
        ((textStyle "fontFamily" pairedQuotes.text).expand {}).get? "fontFamilyDesc" ≠
          some { name := "fontFamilyDesc", value := some (.array described.flatten) } := by
  have hread : ((textStyle "fontFamily" pairedQuotes.text).expand {}).get? "fontFamilyDesc" =
      some { name := "fontFamilyDesc", value := some (.array
        [.object [("fontName", .string "a\"")], .object [("fontName", .string "\"b")]]) } := rfl
  refine ⟨rfl, rfl, hread, ?_⟩
  rintro _ (_ | ⟨hfirst, -⟩) heq
  cases hfirst with
  | font h =>
    obtain ⟨lower, sheet, higher, hsheets, -⟩ := h
    exact absurd hsheets (by simp [SheetStack.sheets])
  | noFont h =>
    rw [hread] at heq
    simp at heq

end Declaration
end StyleCascade
