import Mathlib.Data.List.Basic
import Mathlib.Data.List.TakeWhile
import StyleCascade.Document.Cascade
import StyleCascade.Proofs.Pieces
import StyleCascade.Selector.Parser

/-!
# The text of a selector

Reading is the inverse of writing on every selector that can be read at all
(`Selector.listOfChars_chars`).  What is read out of a text is legible: the text of each part is
one token, and is read as that part (`SimpleSelector.Legible`).  Tokens with a blank between them
stay apart, and a mark between two of them starts a new segment, so the parts come back one by one
with the combinators they were written with (`Selector.readsAs_chars`).

The text of a selector therefore tells it from every other selector that can be read
(`Selector.listOfString_text`).
-/
namespace StyleCascade

namespace SimpleSelector

/-! ## Tokens -/

/-- A name with its mark, and a state, as a simple selector. -/
def named? (name : List Char) (state : Option String) : Option SimpleSelector :=
  match name with
  | [] => none
  | '#' :: name => some ⟨.id, String.ofList name, state⟩
  | '.' :: name => some ⟨.className, String.ofList name, state⟩
  | name => some ⟨.element, String.ofList name, state⟩

theorem chars_of_named? {name : List Char} {state : Option String} {s : SimpleSelector}
    (h : named? name state = some s) :
    s.chars = name ++ state.elim [] fun state => ':' :: state.toList := by
  unfold named? at h
  split at h
  · cases h
  all_goals
    obtain rfl := Option.some.inj h
    simp [chars]

theorem ofToken?_of_notMem {token : List Char} (h : ':' ∉ token) :
    ofToken? token = named? token none := by
  have hname : token.takeWhile (· ≠ ':') = token :=
    List.takeWhile_eq_self_iff.mpr fun c hc => by
      simpa using fun heq : c = ':' => h (heq ▸ hc)
  rw [ofToken?, List.splitOn_eq_singleton h, hname]
  rfl

theorem ofToken?_append {name : List Char} (h : ':' ∉ name) (rest : List Char) :
    ofToken? (name ++ ':' :: rest) =
      named? name (if (rest.takeWhile (· ≠ ':')).isEmpty then none
        else some (String.ofList (rest.takeWhile (· ≠ ':')))) := by
  have hname : (name ++ ':' :: rest).takeWhile (· ≠ ':') = name := by
    rw [List.takeWhile_append_of_pos fun c hc => by simpa using fun heq : c = ':' => h (heq ▸ hc)]
    simp
  obtain ⟨more, hmore⟩ := Text.exists_splitOn_eq_cons ':' rest
  rw [ofToken?, List.splitOn_append_cons_self_of_not_mem h, hname, hmore]
  rfl

/-- What no token holds: a blank, or a mark between selectors or their parts. -/
def IsTokenChar (c : Char) : Prop :=
  Text.isBlank c = false ∧ c ≠ '>' ∧ c ≠ ','

/-- The text of the part is one token, and is read as the part. -/
structure Legible (s : SimpleSelector) : Prop where
  ofToken?_chars : ofToken? s.chars = some s
  isTokenChar : ∀ c ∈ s.chars, IsTokenChar c

theorem Legible.chars_ne_nil {s : SimpleSelector} (h : s.Legible) : s.chars ≠ [] := by
  intro hnil
  have := h.ofToken?_chars
  rw [hnil] at this
  cases this

/-- What is left of a token in the text of the part it is read as.  A second colon and what stands
behind it are lost, and so is a colon without a state. -/
theorem ofToken?_chars_of_ofToken? {token : List Char} {s : SimpleSelector}
    (h : ofToken? token = some s) : s.chars <+: token ∧ ofToken? s.chars = some s := by
  by_cases hcolon : ':' ∈ token
  · obtain ⟨name, rest, rfl, hname⟩ := List.eq_append_cons_of_mem hcolon
    rw [ofToken?_append hname] at h
    split at h
    · have hchars : s.chars = name := by simpa using chars_of_named? h
      exact ⟨hchars ▸ List.prefix_append .., by rw [hchars, ofToken?_of_notMem hname, h]⟩
    · rename_i hstate
      have hchars : s.chars = name ++ ':' :: rest.takeWhile (· ≠ ':') := by
        simpa using chars_of_named? h
      refine ⟨?_, ?_⟩
      · rw [hchars, List.prefix_append_right_inj, List.cons_prefix_cons]
        exact ⟨rfl, List.takeWhile_prefix _⟩
      · rw [hchars, ofToken?_append hname, List.takeWhile_idem, if_neg hstate, h]
  · rw [ofToken?_of_notMem hcolon] at h
    have hchars : s.chars = token := by simpa using chars_of_named? h
    exact ⟨hchars ▸ List.prefix_rfl, by rw [hchars, ofToken?_of_notMem hcolon, h]⟩

theorem legible_of_ofToken? {token : List Char} {s : SimpleSelector}
    (h : ofToken? token = some s) (htoken : ∀ c ∈ token, IsTokenChar c) : s.Legible where
  ofToken?_chars := (ofToken?_chars_of_ofToken? h).2
  isTokenChar := fun c hc => htoken c ((ofToken?_chars_of_ofToken? h).1.subset hc)

end SimpleSelector

namespace Selector

/-- Every part of the selector is legible. -/
def Legible (s : Selector) : Prop :=
  ∀ part ∈ s.parts, part.Legible

/-! ## What is read is legible -/

section
variable {segment : List Char} {before : Option Selector}

theorem legible_of_mem_simpleSelectors (hsegment : ∀ c ∈ segment, c ≠ '>' ∧ c ≠ ',')
    {part : SimpleSelector} (h : part ∈ simpleSelectors segment) : part.Legible := by
  obtain ⟨token, htoken, hread⟩ := List.mem_filterMap.mp h
  refine SimpleSelector.legible_of_ofToken? hread fun c hc => ?_
  have hword := (Text.of_mem_words htoken).2 c hc
  exact ⟨hword.1, hsegment c hword.2⟩

theorem forall_legible_extend? (combinator : Combinator) {part : SimpleSelector}
    (hbefore : ∀ s ∈ before, s.Legible) (hpart : part.Legible) :
    ∀ s ∈ extend? before combinator part, s.Legible := by
  rintro s hs
  cases before with
  | none =>
    obtain rfl := Option.some.inj hs
    simpa [Legible, parts] using hpart
  | some front =>
    obtain rfl := Option.some.inj hs
    exact List.forall_mem_cons.mpr ⟨hpart, hbefore front rfl⟩

theorem forall_legible_addSegment (hsegment : ∀ c ∈ segment, c ≠ '>' ∧ c ≠ ',')
    (hbefore : ∀ s ∈ before, s.Legible) : ∀ s ∈ addSegment before segment, s.Legible := by
  have hparts := @legible_of_mem_simpleSelectors segment hsegment
  unfold addSegment
  split
  · exact hbefore
  · rename_i part rest hread
    rw [hread] at hparts
    refine List.foldlRecOn (motive := fun front : Option Selector => ∀ s ∈ front, s.Legible) rest _
      (forall_legible_extend? .child hbefore (hparts (List.mem_cons_self ..))) ?_
    intro front hfront last hlast
    exact forall_legible_extend? .descendant hfront (hparts (List.mem_cons_of_mem _ hlast))

theorem legible_of_ofGroup? {group : List Char} {s : Selector} (hgroup : ',' ∉ group)
    (h : ofGroup? group = some s) : s.Legible := by
  suffices hread : ∀ s ∈ ofGroup? group, s.Legible from hread s h
  refine List.foldlRecOn (motive := fun before : Option Selector => ∀ s ∈ before, s.Legible)
    (group.splitOn '>') addSegment (by rintro _ ⟨⟩) ?_
  intro before hbefore segment hsegment
  obtain ⟨hmark, hsubset⟩ := Text.of_mem_splitOn hsegment
  refine forall_legible_addSegment (fun c hc => ⟨?_, ?_⟩) hbefore
  · exact fun heq => hmark (heq ▸ hc)
  · exact fun heq => hgroup (heq ▸ hsubset c hc)

theorem legible_of_mem_listOfChars {text : List Char} {s : Selector} (h : s ∈ listOfChars text) :
    s.Legible := by
  obtain ⟨group, hgroup, hread⟩ := List.mem_filterMap.mp h
  exact legible_of_ofGroup? (Text.of_mem_splitOn hgroup).1 hread

end

/-! ## What is written is read -/

theorem simpleSelectors_append_blank {blank : Char} (h : Text.isBlank blank) (a b : List Char) :
    simpleSelectors (a ++ blank :: b) = simpleSelectors a ++ simpleSelectors b := by
  rw [simpleSelectors, Text.words_append_blank h, List.filterMap_append]
  rfl

theorem simpleSelectors_chars {part : SimpleSelector} (h : part.Legible) :
    simpleSelectors part.chars = [part] := by
  rw [simpleSelectors,
    Text.words_of_forall_not_blank h.chars_ne_nil fun c hc => (h.isTokenChar c hc).1]
  simp [h.ofToken?_chars]

theorem ofGroup?_of_notMem {segment : List Char} (h : '>' ∉ segment) :
    ofGroup? segment = addSegment none segment := by
  rw [ofGroup?, List.splitOn_eq_singleton h]
  rfl

/-- A mark ends a segment. -/
theorem ofGroup?_append_mark (a : List Char) {segment : List Char} (h : '>' ∉ segment) :
    ofGroup? (a ++ '>' :: segment) = addSegment (ofGroup? a) segment := by
  rw [ofGroup?, List.splitOn_append_cons_self, List.foldl_append, List.splitOn_eq_singleton h]
  rfl

theorem addSegment_of_eq_singleton {before : Option Selector} {segment : List Char}
    {part : SimpleSelector} (h : simpleSelectors segment = [part]) :
    addSegment before segment = extend? before .child part := by
  rw [addSegment, h]
  rfl

/-- A part on the right of a segment that has one already is a descendant. -/
theorem addSegment_append_blank {before : Option Selector} {segment token : List Char}
    {part : SimpleSelector} (hsegment : simpleSelectors segment ≠ [])
    (htoken : simpleSelectors token = [part]) :
    addSegment before (segment ++ ' ' :: token) =
      extend? (addSegment before segment) .descendant part := by
  obtain ⟨first, rest, hread⟩ := List.exists_cons_of_ne_nil hsegment
  rw [addSegment, simpleSelectors_append_blank rfl, hread, htoken, addSegment, hread,
    List.cons_append]
  exact List.foldl_append

/-- The text is read as the selector, and so is what follows it up to the next mark as a
continuation: it goes on with the segment `segment`, before which `before` has been read. -/
def ReadsAs (text : List Char) (s : Selector) : Prop :=
  ∃ before segment, addSegment before segment = some s ∧ simpleSelectors segment ≠ [] ∧
    ∀ more, '>' ∉ more → ofGroup? (text ++ more) = addSegment before (segment ++ more)

theorem ReadsAs.ofGroup?_eq {text : List Char} {s : Selector} (h : ReadsAs text s) :
    ofGroup? text = some s := by
  obtain ⟨before, segment, hread, -, hmore⟩ := h
  have hend := hmore [] (by simp)
  rwa [List.append_nil, List.append_nil, hread] at hend

section
variable {text token : List Char} {s : Selector} {part : SimpleSelector}

theorem readsAs_of_eq_singleton (htoken : simpleSelectors token = [part]) (hmark : '>' ∉ token) :
    ReadsAs token ⟨part, []⟩ := by
  refine ⟨none, token, addSegment_of_eq_singleton htoken, by simp [htoken], fun more hmore => ?_⟩
  exact ofGroup?_of_notMem (by simp [hmark, hmore])

theorem ReadsAs.descendant (h : ReadsAs text s) (htoken : simpleSelectors token = [part])
    (hmark : '>' ∉ token) : ReadsAs (text ++ ' ' :: token) (s.extend .descendant part) := by
  obtain ⟨before, segment, hread, hne, hmore⟩ := h
  refine ⟨before, segment ++ ' ' :: token, ?_, ?_, fun more hm => ?_⟩
  · rw [addSegment_append_blank hne htoken, hread]
    rfl
  · rw [simpleSelectors_append_blank rfl, htoken]
    simp
  · rw [List.append_assoc, List.append_assoc]
    exact hmore _ (by simp [hmark, hm])

theorem ReadsAs.child (h : ReadsAs text s) (htoken : simpleSelectors token = [part])
    (hmark : '>' ∉ token) :
    ReadsAs (text ++ ' ' :: '>' :: ' ' :: token) (s.extend .child part) := by
  obtain ⟨before, segment, hread, hne, hmore⟩ := h
  have hblank : simpleSelectors (' ' :: token) = [part] := by
    rw [← htoken]
    exact simpleSelectors_append_blank rfl [] token
  have hfront : ofGroup? (text ++ [' ']) = some s := by
    have hend : simpleSelectors (segment ++ [' ']) = simpleSelectors segment :=
      (simpleSelectors_append_blank rfl segment []).trans (List.append_nil _)
    rw [hmore [' '] (by simp), ← hread, addSegment, addSegment, hend]
  refine ⟨some s, ' ' :: token, ?_, by simp [hblank], fun more hm => ?_⟩
  · exact addSegment_of_eq_singleton hblank
  · rw [← hfront, ← ofGroup?_append_mark (text ++ [' ']) (by simp [hmark, hm])]
    simp

/-- **What is written part by part is read part by part.**  The induction is on the links, from the
outermost part to the subject. -/
theorem readsAs_chars (h : s.Legible) : ReadsAs s.chars s := by
  obtain ⟨subject, links⟩ := s
  induction links generalizing subject with
  | nil =>
    have hsubject : subject.Legible := h subject (List.mem_cons_self ..)
    exact readsAs_of_eq_singleton (simpleSelectors_chars hsubject)
      fun hc => (hsubject.isTokenChar _ hc).2.1 rfl
  | cons link links ih =>
    obtain ⟨combinator, part⟩ := link
    obtain ⟨hsubject, hfront⟩ := List.forall_mem_cons.mp h
    have htoken := simpleSelectors_chars hsubject
    have hmark : '>' ∉ subject.chars := fun hc => (hsubject.isTokenChar _ hc).2.1 rfl
    rw [chars, linkChars, List.append_assoc]
    cases combinator with
    | child => exact (ih part hfront).child htoken hmark
    | descendant => exact (ih part hfront).descendant htoken hmark

end

theorem comma_notMem_chars {s : Selector} (h : s.Legible) : ',' ∉ s.chars := by
  obtain ⟨subject, links⟩ := s
  have hpart : ∀ part : SimpleSelector, part.Legible → ',' ∉ part.chars :=
    fun part hlegible hc => (hlegible.isTokenChar _ hc).2.2 rfl
  induction links generalizing subject with
  | nil => exact hpart subject (h subject (List.mem_cons_self ..))
  | cons link links ih =>
    obtain ⟨hsubject, hfront⟩ := List.forall_mem_cons.mp h
    have hlinks : ',' ∉ linkChars links ++ link.part.chars := ih link.part hfront
    have hseparator : ',' ∉ separator link.combinator := by
      cases link.combinator <;> decide
    simp only [chars, linkChars, List.mem_append, not_or] at hlinks ⊢
    exact ⟨⟨hlinks, hseparator⟩, hpart subject hsubject⟩

theorem listOfChars_chars {s : Selector} (h : s.Legible) : listOfChars s.chars = [s] := by
  rw [listOfChars, List.splitOn_eq_singleton (comma_notMem_chars h)]
  simp [(readsAs_chars h).ofGroup?_eq]

/-- Selectors with commas between them are read one by one. -/
theorem listOfChars_intercalate {selectors : List Selector} (h : ∀ s ∈ selectors, s.Legible) :
    listOfChars ([','].intercalate (selectors.map chars)) = selectors := by
  cases selectors with
  | nil => rfl
  | cons s rest =>
    rw [listOfChars, List.splitOn_intercalate ',' ?_ (by simp), List.filterMap_map]
    · have hread : ∀ t ∈ s :: rest, (ofGroup? ∘ chars) t = some t := fun t ht =>
        (readsAs_chars (h t ht)).ofGroup?_eq
      rw [List.filterMap_congr hread, List.filterMap_some]
    · simp only [List.forall_mem_map]
      exact fun s hs => comma_notMem_chars (h s hs)

/-- The text of a selector that has been read tells it from every other one. -/
theorem eq_of_text_eq {s s' : Selector} (h : s.Legible) (h' : s'.Legible) (heq : s.text = s'.text) :
    s = s' := by
  have hchars : s.chars = s'.chars := String.ofList_injective heq
  exact List.singleton_inj.mp
    ((listOfChars_chars h).symm.trans (hchars ▸ listOfChars_chars h'))

/-- **Reading undoes writing on everything that can be read.**  Each selector of a list is read back
from its text alone, and the list from the texts with commas between them.  So two selectors that
have been read are equal if their texts are, or the states made of their texts, and listeners for
two of them have different keys. -/
theorem listOfString_text (text : String) :
    (∀ s ∈ listOfString text, listOfString s.text = [s]) ∧
      listOfString (",".intercalate ((listOfString text).map Selector.text)) =
        listOfString text ∧
      ∀ other, ∀ s ∈ listOfString text, ∀ s' ∈ listOfString other,
        (s.text = s'.text → s = s') ∧
        (Property.pseudoState s.text = Property.pseudoState s'.text → s = s') ∧
        ∀ l l' : Listener, l.selector = s → l'.selector = s' →
          l.pseudoKey = l'.pseudoKey ∨ l.key = l'.key → s = s' := by
  have hlegible : ∀ text, ∀ s ∈ listOfString text, s.Legible :=
    fun _ _ => legible_of_mem_listOfChars
  refine ⟨fun s hs => ?_, ?_, fun other s hs s' hs' => ?_⟩
  · rw [listOfString, Selector.text, String.toList_ofList,
      listOfChars_chars (hlegible text s hs)]
  · rw [listOfString, String.toList_intercalate, List.map_map]
    have htexts : String.toList ∘ Selector.text = chars := funext fun s => String.toList_ofList
    rw [htexts]
    exact listOfChars_intercalate (hlegible text)
  · have heq := eq_of_text_eq (hlegible text s hs) (hlegible other s' hs')
    refine ⟨heq, fun hstate => heq ((String.append_right_inj _).mp hstate), ?_⟩
    · rintro l l' rfl rfl (hkey | hkey)
      · exact heq hkey
      · exact congrArg ListenerKey.selector hkey

/-- Blanks and commas in odd places, tokens that lose a part, and one that is passed over. -/
def oddText : String :=
  " #a .b>c:hover:x ,, .d:: > :y >\t# "

/-- The first of its two selectors. -/
def hoverSelector : Selector where
  subject := ⟨.element, "c", some "hover"⟩
  links := [⟨.child, ⟨.className, "b", none⟩⟩, ⟨.descendant, ⟨.id, "a", none⟩⟩]

theorem listOfString_text_oddText :
    hoverSelector ∈ listOfString oddText ∧
      (listOfString oddText).map text = ["#a .b > c:hover", ".d > #"] ∧
      listOfString "#a .b > c:hover" = [hoverSelector] ∧
      listOfString "#a .b > c:hover,.d > #" = listOfString oddText ∧
      ∀ s ∈ listOfString "#a .b > c:hover",
        Property.pseudoState hoverSelector.text = Property.pseudoState s.text →
          hoverSelector = s := by
  have hmem : hoverSelector ∈ listOfString oddText := by decide +kernel
  have htexts : (listOfString oddText).map text = ["#a .b > c:hover", ".d > #"] := by
    decide +kernel
  have htext : hoverSelector.text = "#a .b > c:hover" := by decide +kernel
  have hjoined : ",".intercalate ["#a .b > c:hover", ".d > #"] = "#a .b > c:hover,.d > #" := by
    decide +kernel
  obtain ⟨hone, hall, hkeys⟩ := listOfString_text oddText
  rw [htexts, hjoined] at hall
  exact ⟨hmem, htexts, htext ▸ hone _ hmem, hall, fun s hs => (hkeys _ _ hmem s hs).2.1⟩

end Selector
end StyleCascade
