import StyleCascade.Proofs.SelectorText

/-!
# Which chains are read

A group of a selector list is a row of usable tokens with something in front of each, and a rest
without any (`Selector.Reads`).  What stands in front of a token is blanks, marks and tokens that
are passed over, and all that counts of it is whether there is a mark (`Selector.Step.combinator`).
Every group can be taken apart in this way, and a list is read as the chains that are put together
from its groups (`Selector.chain_listOfString`).

A reader sees of a group the marks and the parts in turn (`Selector.symbols`), and nothing else: two
stretches of text with a separator between them show their symbols one after the other
(`Selector.symbols_append_cons`).
-/
namespace StyleCascade

/-! ## Tokens -/

namespace SimpleSelector

/-- What the text in front of a token's first colon names. -/
inductive Names : List Char → SelectorKind → List Char → Prop
  | id (name : List Char) : Names ('#' :: name) .id name
  | className (name : List Char) : Names ('.' :: name) .className name
  | element {c : Char} {rest : List Char} (hid : c ≠ '#') (hclass : c ≠ '.') :
      Names (c :: rest) .element (c :: rest)

/-- There is text before the first colon. -/
def Usable (token : List Char) : Prop :=
  token.takeWhile (· ≠ ':') ≠ []

instance (token : List Char) : Decidable (Usable token) :=
  inferInstanceAs (Decidable (_ ≠ _))

/-- The part that a token stands for: what it names, and the state between its first colon and the
second, if there is text. -/
structure Denotes (token : List Char) (part : SimpleSelector) : Prop where
  names : Names (token.takeWhile (· ≠ ':')) part.kind part.name.toList
  state : part.state = ((token.splitOn ':')[1]?.filter (· ≠ [])).map String.ofList

variable {token : List Char} {part : SimpleSelector} {state : Option String}

theorem ofToken?_eq_named? (token : List Char) :
    ofToken? token = named? (token.takeWhile (· ≠ ':'))
      (((token.splitOn ':')[1]?.filter (· ≠ [])).map String.ofList) := by
  obtain ⟨rest, hsplit⟩ := Text.exists_splitOn_eq_cons ':' token
  rw [ofToken?, hsplit]
  cases rest with
  | nil => rfl
  | cons state more => cases state <;> rfl

theorem named?_eq_none_iff {name : List Char} : named? name state = none ↔ name = [] := by
  unfold named?
  split <;> simp_all

theorem Names.named?_eq {name text : List Char} {kind : SelectorKind} (h : Names name kind text) :
    named? name state = some ⟨kind, String.ofList text, state⟩ := by
  cases h with
  | id | className => rfl
  | element hid hclass =>
    unfold named?
    split <;> simp_all

theorem names_of_named? {name : List Char} (h : named? name state = some part) :
    Names name part.kind part.name.toList ∧ part.state = state := by
  unfold named? at h
  split at h
  · cases h
  · cases h
    exact ⟨by simpa using Names.id _, rfl⟩
  · cases h
    exact ⟨by simpa using Names.className _, rfl⟩
  · rename_i hnil hid hclass
    cases h
    obtain ⟨c, rest, rfl⟩ := List.exists_cons_of_ne_nil hnil
    rw [String.toList_ofList]
    exact ⟨.element (fun h => hid rest (h ▸ rfl)) fun h => hclass rest (h ▸ rfl), rfl⟩

theorem ofToken?_eq_none_iff : ofToken? token = none ↔ ¬Usable token := by
  rw [ofToken?_eq_named?, named?_eq_none_iff, Usable, not_not]

theorem ofToken?_eq_some_iff : ofToken? token = some part ↔ Denotes token part := by
  rw [ofToken?_eq_named?]
  constructor
  · intro h
    obtain ⟨hnames, hstate⟩ := names_of_named? h
    exact ⟨hnames, hstate⟩
  · rintro ⟨hnames, hstate⟩
    rw [hnames.named?_eq, String.ofList_toList, ← hstate]

end SimpleSelector

namespace Selector
open SimpleSelector

/-! ## Groups -/

/-- What stands between tokens. -/
def isSeparator (c : Char) : Bool :=
  Text.isBlank c || c = '>'

/-- A usable token and the text between it and the usable token before. -/
structure Step where
  gap : List Char
  token : List Char
  part : SimpleSelector
  skipped : ∀ piece ∈ gap.splitOnP isSeparator, ¬Usable piece
  separated : gap = [] ∨ ∃ front c, gap = front ++ [c] ∧ isSeparator c
  isToken : ∀ c ∈ token, isSeparator c = false
  denotes : Denotes token part

/-- A mark makes the part a child. -/
def Step.combinator (step : Step) : Combinator :=
  if '>' ∈ step.gap then .child else .descendant

/-- The steps in which a group is read, with a rest that holds no usable token. -/
inductive Reads : List Char → List Step → Prop
  | rest {text : List Char} (skipped : ∀ piece ∈ text.splitOnP isSeparator, ¬Usable piece) :
      Reads text []
  | step {text : List Char} {later : List Step} (first : Step)
      (separated : text = [] ∨ ∃ c back, text = c :: back ∧ isSeparator c)
      (more : Reads text later) : Reads (first.gap ++ (first.token ++ text)) (first :: later)

/-- The parts of the steps, with their combinators. -/
def joined (steps : List Step) : List (Option Combinator × SimpleSelector) :=
  steps.map fun step => (some step.combinator, step.part)

/-- The first part has nothing on its left. -/
def chainOf : List Step → List (Option Combinator × SimpleSelector)
  | [] => []
  | first :: later => (none, first.part) :: joined later

/-! ### Every group can be read -/

/-- A text without separators, or one that is cut at its first separator. -/
theorem forall_or_exists_separator (text : List Char) :
    (∀ c ∈ text, isSeparator c = false) ∨
      ∃ token c rest, text = token ++ c :: rest ∧ (∀ c ∈ token, isSeparator c = false) ∧
        isSeparator c := by
  induction text with
  | nil => exact .inl (List.forall_mem_nil _)
  | cons c text ih =>
    cases hc : isSeparator c with
    | true => exact .inr ⟨[], c, text, rfl, List.forall_mem_nil _, hc⟩
    | false =>
      rcases ih with hall | ⟨token, d, rest, rfl, htoken, hd⟩
      · exact .inl (List.forall_mem_cons.mpr ⟨hc, hall⟩)
      · exact .inr ⟨c :: token, d, rest, rfl, List.forall_mem_cons.mpr ⟨hc, htoken⟩, hd⟩

/-- Texts are told apart token by token. -/
theorem token_induction {P : List Char → Prop}
    (last : ∀ token, (∀ c ∈ token, isSeparator c = false) → P token)
    (token : ∀ token c rest, (∀ c ∈ token, isSeparator c = false) → isSeparator c → P rest →
      P (token ++ c :: rest)) (text : List Char) : P text := by
  rcases forall_or_exists_separator text with hall | ⟨front, c, rest, rfl, hfront, hc⟩
  · exact last text hall
  · exact token front c rest hfront hc (token_induction last token rest)
termination_by text.length

theorem splitOnP_append_separator {token rest : List Char} {c : Char}
    (htoken : ∀ c ∈ token, isSeparator c = false) (hc : isSeparator c) :
    (token ++ c :: rest).splitOnP isSeparator = token :: rest.splitOnP isSeparator := by
  rw [List.splitOnP_append_cons token rest hc, List.splitOnP_eq_singleton htoken]
  rfl

theorem not_usable_nil : ¬Usable [] :=
  not_not.mpr rfl

section
variable {token text : List Char} {c : Char}

/-- A token with nothing in front. -/
def Step.ofToken {part : SimpleSelector} (htoken : ∀ c ∈ token, isSeparator c = false)
    (h : Denotes token part) : Step where
  gap := []
  token := token
  part := part
  skipped := List.forall_mem_singleton.mpr not_usable_nil
  separated := .inl rfl
  isToken := htoken
  denotes := h

theorem forall_skipped_append (htoken : ∀ c ∈ token, isSeparator c = false) (hc : isSeparator c)
    (hskip : ¬Usable token) (h : ∀ piece ∈ text.splitOnP isSeparator, ¬Usable piece) :
    ∀ piece ∈ (token ++ c :: text).splitOnP isSeparator, ¬Usable piece := by
  rw [splitOnP_append_separator htoken hc]
  exact List.forall_mem_cons.mpr ⟨hskip, h⟩

/-- The step with one more token in front that is passed over. -/
def Step.behind (step : Step) (htoken : ∀ c ∈ token, isSeparator c = false) (hc : isSeparator c)
    (hskip : ¬Usable token) : Step where
  gap := token ++ c :: step.gap
  token := step.token
  part := step.part
  skipped := forall_skipped_append htoken hc hskip step.skipped
  separated := by
    rcases step.separated with hnil | ⟨front, d, hgap, hd⟩
    · exact .inr ⟨token, c, by rw [hnil], hc⟩
    · exact .inr ⟨token ++ c :: front, d, by rw [hgap, List.append_assoc, List.cons_append], hd⟩
  isToken := step.isToken
  denotes := step.denotes

/-- A token that is passed over belongs to what is in front of the next one. -/
theorem Reads.skip {steps : List Step} (h : Reads text steps)
    (htoken : ∀ c ∈ token, isSeparator c = false) (hc : isSeparator c) (hskip : ¬Usable token) :
    ∃ steps, Reads (token ++ c :: text) steps := by
  cases h with
  | rest skipped => exact ⟨[], .rest (forall_skipped_append htoken hc hskip skipped)⟩
  | @step text later first separated more =>
    refine ⟨first.behind htoken hc hskip :: later, ?_⟩
    have hread := Reads.step (first.behind htoken hc hskip) separated more
    rwa [Step.behind, List.append_assoc, List.cons_append] at hread

/-- A usable token is a step. -/
theorem Reads.take {steps : List Step} {part : SimpleSelector} (h : Reads text steps)
    (htoken : ∀ c ∈ token, isSeparator c = false)
    (hseparated : text = [] ∨ ∃ c back, text = c :: back ∧ isSeparator c)
    (hpart : ofToken? token = some part) : ∃ steps, Reads (token ++ text) steps :=
  ⟨_, .step (.ofToken htoken (ofToken?_eq_some_iff.mp hpart)) hseparated h⟩

end

theorem exists_reads (group : List Char) : ∃ steps, Reads group steps := by
  induction group using token_induction with
  | last token htoken =>
    cases hread : ofToken? token with
    | none =>
      refine ⟨[], .rest ?_⟩
      rw [List.splitOnP_eq_singleton htoken]
      exact List.forall_mem_singleton.mpr (ofToken?_eq_none_iff.mp hread)
    | some part =>
      have hrest : Reads [] [] := .rest (List.forall_mem_singleton.mpr not_usable_nil)
      rw [← List.append_nil token]
      exact hrest.take htoken (.inl rfl) hread
  | token token c rest htoken hc ih =>
    obtain ⟨steps, hsteps⟩ := ih
    cases hread : ofToken? token with
    | none => exact hsteps.skip htoken hc (ofToken?_eq_none_iff.mp hread)
    | some part =>
      obtain ⟨later, hlater⟩ := hsteps.skip (List.forall_mem_nil _) hc not_usable_nil
      exact hlater.take htoken (.inr ⟨c, rest, rfl, hc⟩) hread

/-! ## What a reader sees -/

/-- The marks and the parts of a group in reading order; a mark is `none`. -/
def symbols (group : List Char) : List (Option SimpleSelector) :=
  [none].intercalate ((group.splitOn '>').map fun segment => (simpleSelectors segment).map some)

/-- What has been read, and whether there is a mark behind its last part. -/
def takeSymbol : Option Selector × Bool → Option SimpleSelector → Option Selector × Bool
  | (s, _), none => (s, true)
  | (s, marked), some part => (extend? s (if marked then .child else .descendant) part, false)

theorem symbols_of_notMem {segment : List Char} (h : '>' ∉ segment) :
    symbols segment = (simpleSelectors segment).map some := by
  rw [symbols, List.splitOn_eq_singleton h]
  simp

theorem symbols_append_mark_of_notMem {segment : List Char} (h : '>' ∉ segment) (b : List Char) :
    symbols (segment ++ '>' :: b) = symbols segment ++ none :: symbols b := by
  have hne : (b.splitOn '>').map (fun segment => (simpleSelectors segment).map some) ≠ [] := by
    simp
  rw [symbols_of_notMem h, symbols, List.splitOn_append_cons_self_of_not_mem h, List.map_cons,
    List.intercalate_cons_of_ne_nil hne]
  simp [symbols]

/-- A mark is seen between what is seen on its sides. -/
theorem symbols_append_mark (a b : List Char) :
    symbols (a ++ '>' :: b) = symbols a ++ none :: symbols b := by
  by_cases ha : '>' ∈ a
  · obtain ⟨segment, rest, rfl, hsegment⟩ := List.eq_append_cons_of_mem ha
    rw [List.append_assoc, List.cons_append, symbols_append_mark_of_notMem hsegment,
      symbols_append_mark rest b, symbols_append_mark_of_notMem hsegment, List.append_assoc,
      List.cons_append]
  · exact symbols_append_mark_of_notMem ha b
termination_by a.length

/-- A blank is not seen, but it keeps apart what is on its sides. -/
theorem symbols_append_blank {blank : Char} (h : Text.isBlank blank) (a b : List Char) :
    symbols (a ++ blank :: b) = symbols a ++ symbols b := by
  by_cases ha : '>' ∈ a
  · obtain ⟨segment, rest, rfl, hsegment⟩ := List.eq_append_cons_of_mem ha
    rw [List.append_assoc, List.cons_append, symbols_append_mark, symbols_append_blank h rest b,
      symbols_append_mark, List.append_assoc, List.cons_append]
  · have hmark : '>' ≠ blank := fun heq => absurd (heq ▸ h) (by decide)
    have hfront : ∀ {segment : List Char}, '>' ∉ segment →
        symbols (a ++ blank :: segment) = symbols a ++ symbols segment := by
      intro segment hsegment
      rw [symbols_of_notMem (by simp [ha, hmark, hsegment]), symbols_of_notMem ha,
        symbols_of_notMem hsegment, simpleSelectors_append_blank h, List.map_append]
    by_cases hb : '>' ∈ b
    · obtain ⟨segment, rest, rfl, hsegment⟩ := List.eq_append_cons_of_mem hb
      rw [← List.cons_append, ← List.append_assoc, symbols_append_mark, hfront hsegment,
        symbols_append_mark, List.append_assoc]
    · exact hfront hb
termination_by a.length

theorem isSeparator_iff {c : Char} : isSeparator c ↔ Text.isBlank c ∨ c = '>' := by
  rw [isSeparator, Bool.or_eq_true_iff, decide_eq_true_iff]

/-- Stretches of text with a separator between them are seen one after the other. -/
theorem symbols_append_cons {c : Char} (h : isSeparator c) (a b : List Char) :
    symbols (a ++ c :: b) = symbols a ++ (symbols [c] ++ symbols b) := by
  rcases isSeparator_iff.mp h with hblank | rfl
  · have hc : symbols [c] = [] := symbols_append_blank hblank [] []
    rw [symbols_append_blank hblank, hc, List.nil_append]
  · exact symbols_append_mark a b

theorem symbols_append_of_separated {gap : List Char}
    (h : gap = [] ∨ ∃ front c, gap = front ++ [c] ∧ isSeparator c) (text : List Char) :
    symbols (gap ++ text) = symbols gap ++ symbols text := by
  rcases h with rfl | ⟨front, c, rfl, hc⟩
  · rfl
  · rw [List.append_assoc, List.singleton_append, symbols_append_cons hc front text,
      symbols_append_cons hc front [], List.append_assoc, List.append_assoc]
    rfl

theorem symbols_append_of_opens {text : List Char}
    (h : text = [] ∨ ∃ c back, text = c :: back ∧ isSeparator c) (token : List Char) :
    symbols (token ++ text) = symbols token ++ symbols text := by
  rcases h with rfl | ⟨c, back, rfl, hc⟩
  · rw [List.append_nil]
    exact (List.append_nil _).symm
  · have hopen : symbols (c :: back) = symbols [c] ++ symbols back := symbols_append_cons hc [] back
    rw [symbols_append_cons hc, hopen]

/-- Of a token the part is seen that it stands for, if it is usable. -/
theorem symbols_token {token : List Char} (h : ∀ c ∈ token, isSeparator c = false) :
    symbols token = (ofToken? token).toList.map some := by
  have hmark : '>' ∉ token := fun hc => absurd (h _ hc) (by decide)
  have hblank : ∀ c ∈ token, Text.isBlank c = false :=
    fun c hc => (Bool.or_eq_false_iff.mp (h c hc)).1
  rw [symbols_of_notMem hmark, simpleSelectors]
  by_cases hne : token = []
  · subst hne
    rfl
  · rw [Text.words_of_forall_not_blank hne hblank]
    cases hread : ofToken? token <;> simp [hread]

/-- Of a separator nothing counts but whether it is a mark. -/
theorem foldl_symbols_separator {c : Char} (h : isSeparator c) (state : Option Selector × Bool) :
    (symbols [c]).foldl takeSymbol state = (state.1, state.2 || decide ('>' = c)) := by
  rcases isSeparator_iff.mp h with hblank | rfl
  · have hc : symbols [c] = [] := symbols_append_blank hblank [] []
    have hmark : '>' ≠ c := fun heq => absurd (heq ▸ hblank) (by decide)
    simp [hc, hmark]
  · have hc : symbols ['>'] = [none] := rfl
    simp [hc, takeSymbol]

/-- The marks of a text without usable tokens are all that is seen of it. -/
theorem foldl_symbols_of_skipped {gap : List Char}
    (h : ∀ piece ∈ gap.splitOnP isSeparator, ¬Usable piece) (state : Option Selector × Bool) :
    (symbols gap).foldl takeSymbol state = (state.1, state.2 || decide ('>' ∈ gap)) := by
  induction gap using token_induction generalizing state with
  | last token htoken =>
    rw [List.splitOnP_eq_singleton htoken] at h
    have hmark : '>' ∉ token := fun hc => absurd (htoken _ hc) (by decide)
    have hread := ofToken?_eq_none_iff.mpr (h token List.mem_cons_self)
    simp [symbols_token htoken, hread, hmark]
  | token token c rest htoken hc ih =>
    rw [splitOnP_append_separator htoken hc] at h
    obtain ⟨hskip, hrest⟩ := List.forall_mem_cons.mp h
    have hmark : '>' ∉ token := fun hc => absurd (htoken _ hc) (by decide)
    have hfront : symbols token = [] := by
      rw [symbols_token htoken, ofToken?_eq_none_iff.mpr hskip]
      rfl
    rw [symbols_append_cons hc, hfront, List.nil_append, List.foldl_append,
      foldl_symbols_separator hc, ih hrest]
    simp [hmark, Bool.or_assoc]

/-! ## Putting chains together -/

theorem foldl_takeSymbol_map_some (parts : List SimpleSelector) (s : Option Selector) :
    (parts.map some).foldl takeSymbol (s, false) =
      (parts.foldl (extend? · .descendant) s, false) := by
  induction parts generalizing s with
  | nil => rfl
  | cons part rest ih => exact ih _

theorem addSegment_eq_foldl (s : Option Selector) (segment : List Char) :
    addSegment s segment =
      (((simpleSelectors segment).map some).foldl takeSymbol (s, true)).1 := by
  rw [addSegment]
  cases simpleSelectors segment with
  | nil => rfl
  | cons part rest =>
    rw [List.map_cons, List.foldl_cons]
    exact (congrArg Prod.fst (foldl_takeSymbol_map_some rest _)).symm

theorem foldl_addSegment_eq_foldl (segment : List Char) (later : List (List Char))
    (s : Option Selector) : (segment :: later).foldl addSegment s =
      (([none].intercalate ((segment :: later).map fun segment =>
        (simpleSelectors segment).map some)).foldl takeSymbol (s, true)).1 := by
  induction later generalizing s segment with
  | nil => simp [addSegment_eq_foldl]
  | cons next later ih =>
    rw [List.foldl_cons, ih, List.map_cons, List.map_cons, List.map_cons,
      List.intercalate_cons_cons, List.foldl_append, List.foldl_append, addSegment_eq_foldl]
    rfl

/-- Reading a group is taking what is seen of it.  It starts as if there were a mark in front, which
makes no difference to the first part. -/
theorem ofGroup?_eq_foldl (group : List Char) :
    ofGroup? group = ((symbols group).foldl takeSymbol (none, true)).1 := by
  obtain ⟨rest, hsplit⟩ := Text.exists_splitOn_eq_cons '>' group
  rw [ofGroup?, symbols, hsplit]
  exact foldl_addSegment_eq_foldl _ rest none

theorem chain_extend (s : Selector) (combinator : Combinator) (part : SimpleSelector) :
    (s.extend combinator part).chain = s.chain ++ [(some combinator, part)] := by
  simp [chain, extend, parts]

/-- A step takes a group up to the end of its token. -/
theorem foldl_symbols_step (step : Step) {text : List Char}
    (h : text = [] ∨ ∃ c back, text = c :: back ∧ isSeparator c)
    (state : Option Selector × Bool) :
    (symbols (step.gap ++ (step.token ++ text))).foldl takeSymbol state =
      (symbols text).foldl takeSymbol
        (takeSymbol (state.1, state.2 || decide ('>' ∈ step.gap)) (some step.part)) := by
  rw [symbols_append_of_separated step.separated, symbols_append_of_opens h,
    symbols_token step.isToken, ofToken?_eq_some_iff.mpr step.denotes, List.foldl_append,
    foldl_symbols_of_skipped step.skipped]
  rfl

/-- Further steps add their parts on the right of what has been read. -/
theorem Reads.foldl_takeSymbol {text : List Char} {steps : List Step} (h : Reads text steps)
    (s : Selector) : ∃ s', ((symbols text).foldl takeSymbol (some s, false)).1 = some s' ∧
      s'.chain = s.chain ++ joined steps := by
  induction h generalizing s with
  | rest skipped =>
    exact ⟨s, by rw [foldl_symbols_of_skipped skipped], (List.append_nil _).symm⟩
  | step first separated more ih =>
    obtain ⟨s', hread, hchain⟩ := ih (s.extend first.combinator first.part)
    refine ⟨s', ?_, ?_⟩
    · rw [foldl_symbols_step first separated, ← hread]
      simp [takeSymbol, extend?, Step.combinator]
    · rw [hchain, chain_extend, List.append_assoc]
      rfl

/-- A group gives the chain of its steps, or nothing if there are none. -/
theorem Reads.map_chain_ofGroup? {group : List Char} {steps : List Step} (h : Reads group steps) :
    (ofGroup? group).map chain = if steps.isEmpty then none else some (chainOf steps) := by
  rw [ofGroup?_eq_foldl]
  cases h with
  | rest skipped =>
    rw [foldl_symbols_of_skipped skipped]
    rfl
  | step first separated more =>
    obtain ⟨s', hread, hchain⟩ := more.foldl_takeSymbol ⟨first.part, []⟩
    have hfirst : ((symbols (first.gap ++ (first.token ++ _))).foldl takeSymbol (none, true)).1 =
        some s' := (congrArg Prod.fst (foldl_symbols_step first separated _)).trans hread
    rw [hfirst, Option.map_some, hchain]
    rfl

theorem chain_ne_chain_extend (subject : SimpleSelector) (s : Selector) (combinator : Combinator)
    (part : SimpleSelector) : chain ⟨subject, []⟩ ≠ (s.extend combinator part).chain := by
  intro h
  have hlast := congrArg List.getLast? (h.trans (chain_extend s combinator part))
  rw [List.getLast?_concat] at hlast
  cases congrArg Prod.fst (Option.some.inj hlast)

/-- Two selectors with the same chain are the same. -/
theorem chain_injective : Function.Injective chain := by
  rintro ⟨subject, links⟩ ⟨subject', links'⟩ h
  induction links generalizing subject subject' links' with
  | nil =>
    cases links' with
    | nil =>
      obtain ⟨-, rfl⟩ := Prod.mk.inj (List.singleton_inj.mp h)
      rfl
    | cons link' rest' => exact absurd h (chain_ne_chain_extend _ ⟨link'.part, rest'⟩ _ _)
  | cons link rest ih =>
    obtain ⟨combinator, part⟩ := link
    cases links' with
    | nil => exact absurd h.symm (chain_ne_chain_extend _ ⟨part, rest⟩ _ _)
    | cons link' rest' =>
      obtain ⟨combinator', part'⟩ := link'
      have hsame : chain ⟨part, rest⟩ ++ [(some combinator, subject)] =
          chain ⟨part', rest'⟩ ++ [(some combinator', subject')] :=
        (chain_extend ⟨part, rest⟩ _ _).symm.trans (h.trans (chain_extend ⟨part', rest'⟩ _ _))
      obtain ⟨hfront, hlast⟩ := List.append_inj' hsame rfl
      cases ih _ _ _ hfront
      cases hlast
      rfl

/-- The groups that have a step give the chains of the list. -/
theorem map_chain_filterMap_ofGroup? {groups : List (List Char)} {readings : List (List Step)}
    (h : List.Forall₂ Reads groups readings) : (groups.filterMap ofGroup?).map chain =
      (readings.filter (!·.isEmpty)).map chainOf := by
  induction h with
  | nil => rfl
  | @cons group steps groups readings hreads _ ih =>
    have hgroup := hreads.map_chain_ofGroup?
    cases hsteps : steps.isEmpty with
    | true =>
      rw [hsteps, if_pos rfl, Option.map_eq_none_iff] at hgroup
      rw [List.filterMap_cons_none hgroup, ih, List.filter_cons_of_neg (by simp [hsteps])]
    | false =>
      rw [hsteps, if_neg Bool.false_ne_true] at hgroup
      obtain ⟨s, hread, hchain⟩ := Option.map_eq_some_iff.mp hgroup
      rw [List.filterMap_cons_some hread, List.map_cons, ih, hchain,
        List.filter_cons_of_pos (by simp [hsteps]), List.map_cons]

/-- **The chains of a selector list.**  Every group of the list, the text between two commas, can be
taken apart into steps.  However that is done, the list is read as the selectors that have the
chains of those groups, in order, that have a step: the parts that the tokens of the steps stand
for, each a child of the one before if there is a mark between their tokens, and a descendant if
there is none. -/
theorem chain_listOfString (text : String) :
    (∀ group ∈ text.toList.splitOn ',', ∃ steps, Reads group steps) ∧
      ∀ readings, List.Forall₂ Reads (text.toList.splitOn ',') readings →
        ∀ selectors, listOfString text = selectors ↔
          selectors.map chain = (readings.filter (!·.isEmpty)).map chainOf := by
  refine ⟨fun group _ => exists_reads group, fun readings h selectors => ?_⟩
  rw [← map_chain_filterMap_ofGroup? h, eq_comm]
  exact (List.map_injective_iff.mpr chain_injective).eq_iff.symm

theorem forall_of_all {token : List Char} (h : token.all (!isSeparator ·) = true) :
    ∀ c ∈ token, isSeparator c = false := by
  simpa using h

/-- A token with a mark in front. -/
def leadingStep : Step where
  gap := ['>', ' ']
  token := ['#', 'a']
  part := ⟨.id, "a", none⟩
  skipped := by decide
  separated := .inr ⟨['>'], ' ', rfl, rfl⟩
  isToken := forall_of_all (by decide)
  denotes := ⟨.id _, rfl⟩

/-- A token that has a mark and a token without a name between it and the one before. -/
def childStep : Step where
  gap := ['>', ':', 'x', ' ']
  token := ['b', ':', 'c', ':', 'd']
  part := ⟨.element, "b", some "c"⟩
  skipped := by decide
  separated := .inr ⟨['>', ':', 'x'], ' ', rfl, rfl⟩
  isToken := forall_of_all (by decide)
  denotes := ⟨.element (by decide) (by decide), rfl⟩

/-- The one selector of a list whose second group has no usable token. -/
theorem chain_listOfString_markedText :
    List.Forall₂ Reads ("> #a>:x b:c:d > ,:y".toList.splitOn ',') [[leadingStep, childStep], []] ∧
      listOfString "> #a>:x b:c:d > ,:y" =
        [⟨⟨.element, "b", some "c"⟩, [⟨.child, ⟨.id, "a", none⟩⟩]⟩] := by
  have hgroups : "> #a>:x b:c:d > ,:y".toList.splitOn ',' =
      [leadingStep.gap ++ (leadingStep.token ++
        (childStep.gap ++ (childStep.token ++ [' ', '>', ' ']))), [':', 'y']] := by
    decide +kernel
  have hreads : List.Forall₂ Reads ("> #a>:x b:c:d > ,:y".toList.splitOn ',')
      [[leadingStep, childStep], []] := by
    rw [hgroups]
    refine .cons (.step _ (.inr ⟨'>', _, rfl, rfl⟩) (.step _ (.inr ⟨' ', _, rfl, rfl⟩) ?_))
      (.cons ?_ .nil)
    · exact .rest (by decide)
    · exact .rest (by decide)
  exact ⟨hreads, ((chain_listOfString _).2 _ hreads _).mpr rfl⟩

end Selector
end StyleCascade
