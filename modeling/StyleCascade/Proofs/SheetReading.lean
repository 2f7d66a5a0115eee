import StyleCascade.Sheet.Parser

/-!
# What reading a sheet goes through

A sheet is read item by item: entries that may be style rules, and faults of the entries around
them (`Session.sheetItems`).  Reading stops at the first item that is in fault.  Before it every
item that is a rule is kept and takes the next number, whether it stands in a media group or not
(`Session.GoesThrough`).  Each reader goes through the items of its part, and two readings one
after the other go through the items of the first and then through those of the second
(`Session.GoesThrough.seq`).
-/
namespace StyleCascade

/-! ## Items -/

/-- An entry that may be a style rule. -/
structure RuleEntry where
  inMedia : Bool
  key : String
  value : Json

namespace RuleEntry

/-- The name without blanks around it. -/
def text (e : RuleEntry) : String :=
  Text.trimString e.key

/-- Whether the name is that of a style rule: not blank, and not that of some other rule. -/
def NamesRule (e : RuleEntry) : Prop :=
  e.text.toList ≠ [] ∧ e.text.toList.head? ≠ some '@'

instance (e : RuleEntry) : Decidable e.NamesRule :=
  inferInstanceAs (Decidable (_ ∧ _))

/-- Whether the entry is a rule that is kept. -/
def IsKept (e : RuleEntry) : Prop :=
  e.NamesRule ∧ Selector.listOfString e.text ≠ []

instance (e : RuleEntry) : Decidable e.IsKept :=
  inferInstanceAs (Decidable (_ ∧ _))

/-- The rule that the entry is, with a number. -/
def rule (e : RuleEntry) (order : Nat) : StyleRule where
  selectors := Selector.listOfString e.text
  declaration := Declaration.ofMembers (e.value.asObject?.getD [])
  text := e.text
  order := order
  inMedia := e.inMedia

end RuleEntry

/-- What reading a sheet comes upon. -/
inductive SheetItem
  | entry (e : RuleEntry)
  /-- Something that has to be an object or a list and is none. -/
  | fault (error : StyleError)

namespace SheetItem

/-- What is wrong with the item. -/
def error? : SheetItem → Option StyleError
  | entry e =>
    if e.NamesRule ∧ e.value.asObject? = none then some (.invalidDeclaration e.text) else none
  | fault error => some error

/-- The rule that the item is, if it is one. -/
def kept? : SheetItem → Option RuleEntry
  | entry e => if e.IsKept then some e else none
  | fault _ => none

end SheetItem

namespace Session

/-- The items of a media group. -/
def groupItems (group : Json) : List SheetItem :=
  match group with
  | .object members =>
    (members.filter (·.1 ≠ "condition")).map fun (key, value) => .entry ⟨true, key, value⟩
  | _ => [.fault .invalidMediaList]

/-- The items of a sheet's entry. -/
def entryItems (key : String) (value : Json) : List SheetItem :=
  if key = "@KEYFRAMES" ∨ key = "@FONT-FACE" ∨ key = "@info" then
    if value.asObject? = none then [.fault (.invalidAtRule key)] else []
  else if key = "@MEDIA" then
    match value with
    | .array groups => groups.flatMap groupItems
    | _ => [.fault .invalidMediaList]
  else [.entry ⟨false, key, value⟩]

/-- The items of a sheet, in reading order. -/
def sheetItems (sheet : Json) : List SheetItem :=
  match sheet with
  | .object members => members.flatMap fun (key, value) => entryItems key value
  | _ => [.fault (.notAnObject "style sheet")]

/-- What is wrong with the first item in fault. -/
def firstError? (items : List SheetItem) : Option StyleError :=
  items.findSome? SheetItem.error?

/-- The rules that are kept before the first item in fault, or before the end. -/
def keptBefore (items : List SheetItem) : List RuleEntry :=
  (items.takeWhile (·.error? = none)).filterMap SheetItem.kept?

/-- The rules with numbers from `start` on, each with whether it stands in a media group. -/
def numbered (start : Nat) (kept : List RuleEntry) : List (Bool × StyleRule) :=
  (kept.zipIdx start).map fun (e, order) => (e.inMedia, e.rule order)

theorem firstError?_singleton (item : SheetItem) : firstError? [item] = item.error? := by
  rw [firstError?, List.findSome?_singleton]

theorem keptBefore_singleton (item : SheetItem) :
    keptBefore [item] = if item.error? = none then item.kept?.toList else [] := by
  rw [keptBefore, List.takeWhile_cons]
  cases item.error? with
  | none => cases h : item.kept? <;> simp [h]
  | some e => rfl

theorem firstError?_append (a b : List SheetItem) :
    firstError? (a ++ b) = (firstError? a).or (firstError? b) :=
  List.findSome?_append

theorem keptBefore_append (a b : List SheetItem) :
    keptBefore (a ++ b) =
      if firstError? a = none then keptBefore a ++ keptBefore b else keptBefore a := by
  induction a with
  | nil => simp [keptBefore, firstError?]
  | cons item a ih =>
    simp only [keptBefore, firstError?, List.cons_append, List.takeWhile_cons,
      List.findSome?_cons] at ih ⊢
    cases herror : item.error? with
    | some e => simp
    | none =>
      simp only [decide_true, if_true, List.filterMap_cons]
      cases item.kept? with
      | none => exact ih
      | some e => exact (congrArg (e :: ·) ih).trans (apply_ite (e :: ·) _ _ _)

theorem numbered_append (start : Nat) (a b : List RuleEntry) :
    numbered start (a ++ b) = numbered start a ++ numbered (start + a.length) b := by
  rw [numbered, List.zipIdx_append, List.map_append]
  rfl

/-! ## Runs of readings -/

section
variable {α β : Type}

@[simp]
theorem run_pure (s : Session) (a : α) : run s (pure a) = (.ok a, s) := rfl

theorem run_bind (s : Session) (m : Reading α) (f : α → Reading β) :
    run s (m >>= f) =
      match run s m with
      | (.ok a, next) => run next (f a)
      | (.error e, next) => (.error e, next) := by
  have hbind : run s (m >>= f) =
      (ExceptT.bindCont f (run s m).1 : StateM Session _) (run s m).2 := rfl
  rw [hbind]
  obtain ⟨result, next⟩ := run s m
  cases result <;> rfl

/-- The reading goes through the items: it comes to an end at the first one in fault, and otherwise
gives the rules that are kept, with the numbers that are next; the number behind them is left as
the next one. -/
def GoesThrough (reading : Reading α) (items : List SheetItem)
    (rules : α → List (Bool × StyleRule)) : Prop :=
  ∀ s : Session, ∃ next, next.nextOrder = s.nextOrder + (keptBefore items).length ∧
    match firstError? items with
    | some e => run s reading = (.error e, next)
    | none => ∃ a, run s reading = (.ok a, next) ∧
        rules a = numbered s.nextOrder (keptBefore items)

theorem goesThrough_of_nextOrder_eq {reading : Reading α} {rules : α → List (Bool × StyleRule)}
    (h : ∀ s, ∃ a next, run s reading = (.ok a, next) ∧ next.nextOrder = s.nextOrder ∧
      rules a = []) : GoesThrough reading [] rules := by
  intro s
  obtain ⟨a, next, hrun, hnext, hrules⟩ := h s
  exact ⟨next, hnext, a, hrun, hrules⟩

theorem goesThrough_pure_nil {a : α} {rules : α → List (Bool × StyleRule)} (h : rules a = []) :
    GoesThrough (pure a) [] rules :=
  goesThrough_of_nextOrder_eq fun s => ⟨a, s, rfl, rfl, h⟩

/-- What counts of the items is which rules are kept and what is wrong with the first one in
fault. -/
theorem GoesThrough.congr {reading : Reading α} {a b : List SheetItem}
    {rules : α → List (Bool × StyleRule)} (h : GoesThrough reading a rules)
    (hkept : keptBefore b = keptBefore a) (herror : firstError? b = firstError? a) :
    GoesThrough reading b rules := by
  unfold GoesThrough
  rw [hkept, herror]
  exact h

theorem GoesThrough.map {m : Reading α} {f : α → β} {items : List SheetItem}
    {p : α → List (Bool × StyleRule)} {q : β → List (Bool × StyleRule)} (hm : GoesThrough m items p)
    (hf : ∀ x, q (f x) = p x) : GoesThrough (do let x ← m; return f x) items q := by
  intro s
  obtain ⟨next, hnext, hrun⟩ := hm s
  refine ⟨next, hnext, ?_⟩
  cases herror : firstError? items with
  | some e =>
    rw [herror] at hrun
    simp only [run_bind, hrun]
  | none =>
    rw [herror] at hrun
    obtain ⟨x, hx, hp⟩ := hrun
    exact ⟨f x, by simp only [run_bind, hx, run_pure], (hf x).trans hp⟩

/-- Two readings one after the other. -/
theorem GoesThrough.seq {γ : Type} {m : Reading α} {k : α → Reading β} {join : α → β → γ}
    {a b : List SheetItem} {p : α → List (Bool × StyleRule)} {q : β → List (Bool × StyleRule)}
    {r : γ → List (Bool × StyleRule)} (hm : GoesThrough m a p) (hk : ∀ x, GoesThrough (k x) b q)
    (hjoin : ∀ x y, r (join x y) = p x ++ q y) :
    GoesThrough (do let x ← m; let y ← k x; return join x y) (a ++ b) r := by
  intro s
  obtain ⟨middle, hmiddle, hfirst⟩ := hm s
  rw [firstError?_append, keptBefore_append]
  cases ha : firstError? a with
  | some e =>
    rw [ha] at hfirst
    refine ⟨middle, hmiddle, ?_⟩
    simp only [run_bind, hfirst, Option.some_or]
  | none =>
    rw [ha] at hfirst
    obtain ⟨x, hx, hp⟩ := hfirst
    obtain ⟨next, hnext, hsecond⟩ := hk x middle
    refine ⟨next, ?_, ?_⟩
    · rw [hnext, hmiddle, if_pos rfl, List.length_append, Nat.add_assoc]
    · cases hb : firstError? b with
      | some e =>
        rw [hb] at hsecond
        simp only [run_bind, hx, hsecond, Option.none_or]
      | none =>
        rw [hb] at hsecond
        obtain ⟨y, hy, hq⟩ := hsecond
        refine ⟨join x y, by simp only [run_bind, hx, hy, run_pure], ?_⟩
        rw [hjoin, hp, hq, hmiddle, if_pos rfl, numbered_append]

end

/-! ## The readers -/

theorem goesThrough_notify (n : Notice) : GoesThrough (notify n) [] fun _ => [] :=
  goesThrough_of_nextOrder_eq fun s =>
    ⟨(), { s with notices := s.notices ++ [n] }, rfl, rfl, rfl⟩

theorem goesThrough_forM_notify (notices : List Notice) :
    GoesThrough (notices.forM notify) [] fun _ => [] := by
  refine goesThrough_of_nextOrder_eq fun s => ?_
  induction notices generalizing s with
  | nil => exact ⟨(), s, rfl, rfl, rfl⟩
  | cons n rest ih =>
    obtain ⟨_, next, hrun, hnext, -⟩ := ih { s with notices := s.notices ++ [n] }
    refine ⟨(), next, ?_, hnext, rfl⟩
    rw [List.forM_eq_forM, List.forM_cons, run_bind]
    exact hrun

/-- A reading that starts with an object. -/
theorem goesThrough_requireObject {α : Type} {value : Json} {e : StyleError}
    {f : List (String × Json) → Reading α} {items : List SheetItem}
    {rules : α → List (Bool × StyleRule)}
    (hother : value.asObject? = none → items = [.fault e])
    (hobject : ∀ members, value = .object members → GoesThrough (f members) items rules) :
    GoesThrough (requireObject value e >>= f) items rules := by
  cases value with
  | object members => exact hobject members rfl
  | _ => exact hother rfl ▸ fun s => ⟨s, rfl, rfl⟩

/-- A reading that passes over an entry. -/
theorem goesThrough_entry_of_not_isKept {reading : Reading (Option StyleRule)} {e : RuleEntry}
    (hrun : ∀ s, ∃ next, run s reading = (.ok none, next) ∧ next.nextOrder = s.nextOrder)
    (hkept : ¬e.IsKept) (herror : (SheetItem.entry e).error? = none) :
    GoesThrough reading [.entry e] fun rule => rule.toList.map (e.inMedia, ·) := by
  have hnone : (SheetItem.entry e).kept? = none := if_neg hkept
  have hnothing : GoesThrough reading [] fun rule => rule.toList.map (e.inMedia, ·) :=
    goesThrough_of_nextOrder_eq fun s => by
      obtain ⟨next, hrun, hnext⟩ := hrun s
      exact ⟨none, next, hrun, hnext, rfl⟩
  refine hnothing.congr ?_ ((firstError?_singleton _).trans herror)
  rw [keptBefore_singleton, if_pos herror, hnone]
  rfl

theorem goesThrough_readStyleRule (inMedia : Bool) (key : String) (value : Json) :
    GoesThrough (readStyleRule inMedia key value) [.entry ⟨inMedia, key, value⟩]
      fun rule => rule.toList.map (inMedia, ·) := by
  have hskip : ¬RuleEntry.NamesRule ⟨inMedia, key, value⟩ →
      ¬RuleEntry.IsKept ⟨inMedia, key, value⟩ ∧
        (SheetItem.entry ⟨inMedia, key, value⟩).error? = none := fun h =>
    ⟨fun hkept => h hkept.1, if_neg fun hfault => h hfault.1⟩
  unfold readStyleRule
  dsimp only
  split
  · rename_i hempty
    have h := hskip fun h => h.1 hempty
    exact goesThrough_entry_of_not_isKept (fun s => ⟨s, rfl, rfl⟩) h.1 h.2
  · rename_i hat
    have h := hskip fun h => h.2 (congrArg List.head? hat)
    exact goesThrough_entry_of_not_isKept (fun s => ⟨_, rfl, rfl⟩) h.1 h.2
  rename_i hempty hat
  have hname : RuleEntry.NamesRule ⟨inMedia, key, value⟩ := by
    refine ⟨hempty, fun hhead => ?_⟩
    obtain ⟨rest, hrest⟩ := List.head?_eq_some_iff.mp hhead
    exact hat rest hrest
  cases hvalue : value.asObject? with
  | none =>
    -- The entry is as good as a fault.
    have herror : (SheetItem.entry ⟨inMedia, key, value⟩).error? =
        some (.invalidDeclaration (Text.trimString key)) := if_pos ⟨hname, hvalue⟩
    have hfault : ∀ f : List (String × Json) → Reading (Option StyleRule),
        GoesThrough (requireObject value (.invalidDeclaration (Text.trimString key)) >>= f)
          [.fault (.invalidDeclaration (Text.trimString key))]
          fun rule => rule.toList.map (inMedia, ·) := fun f =>
      goesThrough_requireObject (fun _ => rfl) fun members h => by
        rw [h] at hvalue
        cases hvalue
    refine (hfault _).congr ?_ ((firstError?_singleton _).trans herror)
    rw [keptBefore_singleton, if_neg (by simp [herror])]
    rfl
  | some members =>
    have herror : (SheetItem.entry ⟨inMedia, key, value⟩).error? = none :=
      if_neg fun h => by rw [hvalue] at h; cases h.2
    refine goesThrough_requireObject (fun h => by rw [hvalue] at h; cases h)
      fun members hobject => ?_
    subst hobject
    split
    · rename_i hselectors
      exact goesThrough_entry_of_not_isKept (fun s => ⟨_, rfl, rfl⟩) (fun h => h.2 hselectors)
        herror
    · rename_i hselectors
      have hkept : RuleEntry.IsKept ⟨inMedia, key, .object members⟩ := ⟨hname, hselectors⟩
      have hsome : (SheetItem.entry ⟨inMedia, key, .object members⟩).kept? = some _ := if_pos hkept
      intro s
      rw [firstError?_singleton, keptBefore_singleton, if_pos herror, hsome, herror]
      exact ⟨{ s with nextOrder := s.nextOrder + 1 }, rfl, _, rfl, rfl⟩

theorem goesThrough_readStyleRules (inMedia : Bool) (entries : List (String × Json)) :
    GoesThrough (readStyleRules inMedia entries)
      (entries.map fun (key, value) => .entry ⟨inMedia, key, value⟩)
      fun rules => rules.map (inMedia, ·) := by
  induction entries with
  | nil => exact goesThrough_of_nextOrder_eq fun s => ⟨[], s, rfl, rfl, rfl⟩
  | cons entry rest ih =>
    exact (goesThrough_readStyleRule inMedia entry.1 entry.2).seq (fun _ => ih)
      fun rule rules => List.map_append

end Session

/-- The style rules of a rule in reading order, each with whether it stands in a media group. -/
def Rule.placed : Rule → List (Bool × StyleRule)
  | style rule => [(false, rule)]
  | media _ rules => (rules.filterMap style?).map (true, ·)
  | _ => []

/-- The style rules of a sheet in reading order, each with whether it stands in a media group. -/
def StyleSheet.placedRules (s : StyleSheet) : List (Bool × StyleRule) :=
  s.rules.flatMap Rule.placed

namespace Session

theorem goesThrough_readMediaGroup (group : Json) :
    GoesThrough (readMediaGroup group) (groupItems group) Rule.placed := by
  refine goesThrough_requireObject (fun h => ?_) fun members hgroup => ?_
  · cases group <;> first | rfl | cases h
  subst hgroup
  rw [← List.append_nil (groupItems _)]
  refine (goesThrough_readStyleRules true _).seq (fun _ => goesThrough_forM_notify _) ?_
  intro rules _
  rw [List.append_nil, Rule.placed, List.filterMap_map]
  have hstyle : Rule.style? ∘ Rule.style = some := rfl
  rw [hstyle, List.filterMap_some]

theorem goesThrough_readMediaGroups (groups : List Json) :
    GoesThrough (readMediaGroups groups) (groups.flatMap groupItems)
      fun rules => rules.flatMap Rule.placed := by
  induction groups with
  | nil => exact goesThrough_of_nextOrder_eq fun s => ⟨[], s, rfl, rfl, rfl⟩
  | cons group rest ih =>
    exact (goesThrough_readMediaGroup group).seq (fun _ => ih) fun rule rules => List.flatMap_cons

theorem goesThrough_readEntry (key : String) (value : Json) :
    GoesThrough (readEntry key value) (entryItems key value)
      fun rules => rules.flatMap Rule.placed := by
  -- The tables and the `@info` entry have no rules, but have to be objects.
  have htable : ∀ f : List (String × Json) → Reading (List Rule),
      (∀ members, GoesThrough (f members) [] fun rules => rules.flatMap Rule.placed) →
      GoesThrough (requireObject value (.invalidAtRule key) >>= f)
        (if value.asObject? = none then [.fault (.invalidAtRule key)] else [])
        fun rules => rules.flatMap Rule.placed := fun f hf => by
    refine goesThrough_requireObject (fun h => if_pos h) fun members h => ?_
    rw [if_neg (by rw [h]; simp [Json.asObject?])]
    exact hf members
  unfold readEntry entryItems
  by_cases hframes : key = "@KEYFRAMES"
  · rw [if_pos hframes, if_pos (.inl hframes)]
    exact htable _ fun members => goesThrough_pure_nil rfl
  by_cases hfonts : key = "@FONT-FACE"
  · rw [if_neg hframes, if_pos hfonts, if_pos (.inr (.inl hfonts))]
    exact htable _ fun members => goesThrough_pure_nil rfl
  by_cases hmedia : key = "@MEDIA"
  · subst hmedia
    simp only [reduceIte, String.reduceEq, or_self]
    cases value with
    | array groups => exact goesThrough_readMediaGroups groups
    | _ => exact fun s => ⟨s, rfl, rfl⟩
  by_cases hinfo : key = "@info"
  · subst hinfo
    simp only [reduceIte, String.reduceEq, or_true]
    exact htable _ fun members => goesThrough_pure_nil rfl
  · simp only [hframes, hfonts, hmedia, hinfo, or_self, if_false]
    refine (goesThrough_readStyleRule false key value).map fun rule => ?_
    cases rule <;> rfl

theorem goesThrough_readEntries (entries : List (String × Json)) :
    GoesThrough (readEntries entries) (entries.flatMap fun (key, value) => entryItems key value)
      fun rules => rules.flatMap Rule.placed := by
  induction entries with
  | nil => exact goesThrough_of_nextOrder_eq fun s => ⟨[], s, rfl, rfl, rfl⟩
  | cons entry rest ih =>
    exact (goesThrough_readEntry entry.1 entry.2).seq (fun _ => ih)
      fun rules more => List.flatMap_append

/-- **Reading a sheet goes through its items.** -/
theorem goesThrough_readSheet (sheet : Json) :
    GoesThrough (readSheet sheet) (sheetItems sheet) StyleSheet.placedRules := by
  refine goesThrough_requireObject (fun h => ?_) fun members hsheet => ?_
  · cases sheet <;> first | rfl | cases h
  subst hsheet
  rw [← List.append_nil (sheetItems _)]
  exact (goesThrough_readEntries members).seq (fun _ => goesThrough_notify _)
    fun rules _ => (List.append_nil _).symm

end Session
end StyleCascade
