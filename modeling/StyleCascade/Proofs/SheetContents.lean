import Mathlib.Data.List.TakeWhile
import StyleCascade.Proofs.SheetReading

/-!
# What a sheet has to be and what it gives

Some entries of a sheet have to be objects, and `@MEDIA` a list of objects (`Session.Malformed`).  A
sheet in which nothing else stands there is always read, and any other gives the error of the first
entry that is not as it has to be, where the entries of a media group count one by one
(`Session.SheetFault`).  What is read gives the tables, the media groups and the rules that are kept
in the order in which they stand (`Session.sheetParts`).
-/
namespace StyleCascade
namespace Session

/-! ## Faults -/

/-- What the first element of a list with something to say says. -/
def FirstIn {α : Type} (Says : α → StyleError → Prop) (l : List α) (e : StyleError) : Prop :=
  ∃ before a after, l = before ++ a :: after ∧ Says a e ∧ ∀ b ∈ before, ∀ e, ¬Says b e

/-- The entry has the name of a rule and is no object. -/
structure LacksBody (entry : String × Json) : Prop where
  nonempty : (Text.trimString entry.1).toList ≠ []
  plain : (Text.trimString entry.1).toList.head? ≠ some '@'
  bodiless : entry.2.asObject? = none

/-- What is wrong with an entry that may be a rule. -/
inductive RuleFault : String × Json → StyleError → Prop
  | entry {entry : String × Json} (h : LacksBody entry) :
      RuleFault entry (.invalidDeclaration (Text.trimString entry.1))

/-- What is wrong with a media group: with the first entry in fault besides its condition, if it is
an object at all. -/
inductive GroupFault : Json → StyleError → Prop
  | group {group : Json} (h : group.asObject? = none) : GroupFault group .invalidMediaList
  | rule {members : List (String × Json)} {e : StyleError}
      (h : FirstIn RuleFault (members.filter (·.1 ≠ "condition")) e) :
      GroupFault (.object members) e

/-- The keys of entries that have to be objects, whatever is in them. -/
def tableKeys : List String :=
  ["@KEYFRAMES", "@FONT-FACE", "@info"]

/-- What is wrong with an entry of a sheet; in a list of media groups, with the first group in
fault. -/
inductive EntryFault : String × Json → StyleError → Prop
  | table {key : String} {value : Json} (hkey : key ∈ tableKeys) (h : value.asObject? = none) :
      EntryFault (key, value) (.invalidAtRule key)
  | media {value : Json} (h : value.asArray? = none) :
      EntryFault ("@MEDIA", value) .invalidMediaList
  | group {groups : List Json} {e : StyleError} (h : FirstIn GroupFault groups e) :
      EntryFault ("@MEDIA", .array groups) e
  | rule {entry : String × Json} {e : StyleError} (hkey : entry.1 ∉ "@MEDIA" :: tableKeys)
      (h : RuleFault entry e) : EntryFault entry e

/-- What is wrong with a sheet: with the first entry in fault, if it is an object at all. -/
inductive SheetFault : Json → StyleError → Prop
  | sheet {sheet : Json} (h : sheet.asObject? = none) :
      SheetFault sheet (.notAnObject "style sheet")
  | entry {members : List (String × Json)} {e : StyleError} (h : FirstIn EntryFault members e) :
      SheetFault (.object members) e

/-- Something in the sheet is not what it has to be. -/
inductive Malformed : Json → Prop
  | sheet {sheet : Json} (h : sheet.asObject? = none) : Malformed sheet
  | table {members : List (String × Json)} {key : String} {value : Json}
      (hmem : (key, value) ∈ members) (hkey : key ∈ tableKeys) (h : value.asObject? = none) :
      Malformed (.object members)
  | media {members : List (String × Json)} {value : Json} (hmem : ("@MEDIA", value) ∈ members)
      (h : value.asArray? = none) : Malformed (.object members)
  | group {members : List (String × Json)} {groups : List Json} {group : Json}
      (hmem : ("@MEDIA", .array groups) ∈ members) (hgroup : group ∈ groups)
      (h : group.asObject? = none) : Malformed (.object members)
  | groupRule {members inner : List (String × Json)} {groups : List Json} {entry : String × Json}
      (hmem : ("@MEDIA", .array groups) ∈ members) (hgroup : .object inner ∈ groups)
      (hinner : entry ∈ inner) (hkey : entry.1 ≠ "condition") (h : LacksBody entry) :
      Malformed (.object members)
  | rule {members : List (String × Json)} {entry : String × Json} (hmem : entry ∈ members)
      (hkey : entry.1 ∉ "@MEDIA" :: tableKeys) (h : LacksBody entry) : Malformed (.object members)

section
variable {α : Type} {Says : α → StyleError → Prop} {l : List α} {e : StyleError}

theorem exists_firstIn_iff : (∃ e, FirstIn Says l e) ↔ ∃ a ∈ l, ∃ e, Says a e := by
  constructor
  · rintro ⟨e, before, a, after, rfl, hsays, -⟩
    exact ⟨a, by simp, e, hsays⟩
  · rintro ⟨a, ha, hsays⟩
    induction l with
    | nil => cases ha
    | cons b rest ih =>
      by_cases hb : ∃ e, Says b e
      · obtain ⟨e, hb⟩ := hb
        exact ⟨e, [], b, rest, rfl, hb, List.forall_mem_nil _⟩
      · have hrest : a ∈ rest := by
          rcases List.mem_cons.mp ha with rfl | hrest
          · exact absurd hsays hb
          · exact hrest
        obtain ⟨e, before, c, after, rfl, hc, hbefore⟩ := ih hrest
        exact ⟨e, b :: before, c, after, rfl, hc,
          List.forall_mem_cons.mpr ⟨fun e h => hb ⟨e, h⟩, hbefore⟩⟩

theorem findSome?_eq_some_iff_firstIn {find : α → Option StyleError}
    (h : ∀ a e, find a = some e ↔ Says a e) : l.findSome? find = some e ↔ FirstIn Says l e := by
  have hnone : ∀ a, find a = none ↔ ∀ e, ¬Says a e := by
    intro a
    simp only [← h]
    exact Option.eq_none_iff_forall_ne_some
  simp only [List.findSome?_eq_some_iff, FirstIn, h, hnone]

theorem firstError?_map_eq_some_iff {item : α → SheetItem}
    (h : ∀ a e, (item a).error? = some e ↔ Says a e) :
    firstError? (l.map item) = some e ↔ FirstIn Says l e := by
  rw [firstError?, List.findSome?_map]
  exact findSome?_eq_some_iff_firstIn h

theorem firstError?_flatMap_eq_some_iff {items : α → List SheetItem}
    (h : ∀ a e, firstError? (items a) = some e ↔ Says a e) :
    firstError? (l.flatMap items) = some e ↔ FirstIn Says l e := by
  have hfind : firstError? (l.flatMap items) = l.findSome? fun a => firstError? (items a) := by
    induction l with
    | nil => rfl
    | cons a rest ih =>
      rw [List.flatMap_cons, firstError?_append, ih, List.findSome?_cons]
      cases firstError? (items a) <;> rfl
  rw [hfind]
  exact findSome?_eq_some_iff_firstIn h

end

section
variable {e : StyleError}

theorem error?_entry_eq_some_iff {inMedia : Bool} {entry : String × Json} :
    (SheetItem.entry ⟨inMedia, entry.1, entry.2⟩).error? = some e ↔ RuleFault entry e := by
  rw [SheetItem.error?]
  constructor
  · intro h
    split at h
    · rename_i hfault
      obtain rfl := Option.some.inj h
      exact .entry ⟨hfault.1.1, hfault.1.2, hfault.2⟩
    · cases h
  · rintro ⟨hname, hplain, hvalue⟩
    exact if_pos ⟨⟨hname, hplain⟩, hvalue⟩

theorem firstError?_groupItems {group : Json} :
    firstError? (groupItems group) = some e ↔ GroupFault group e := by
  constructor
  · intro h
    cases group with
    | object members =>
      exact .rule ((firstError?_map_eq_some_iff fun _ _ => error?_entry_eq_some_iff).mp h)
    | _ =>
      obtain rfl := Option.some.inj h
      exact .group rfl
  · rintro (h | h)
    · cases group <;> first | rfl | cases h
    · exact (firstError?_map_eq_some_iff fun _ _ => error?_entry_eq_some_iff).mpr h

theorem entryItems_of_mem_tableKeys {key : String} (h : key ∈ tableKeys) (value : Json) :
    entryItems key value =
      if value.asObject? = none then [.fault (.invalidAtRule key)] else [] :=
  if_pos (by simpa [tableKeys] using h)

theorem entryItems_of_notMem {key : String} (h : key ∉ "@MEDIA" :: tableKeys) (value : Json) :
    entryItems key value = [.entry ⟨false, key, value⟩] := by
  have htable : key ∉ tableKeys := List.not_mem_of_not_mem_cons h
  unfold entryItems
  rw [if_neg (by simpa [tableKeys] using htable), if_neg (List.ne_of_not_mem_cons h)]

theorem firstError?_entryItems {entry : String × Json} :
    firstError? (entryItems entry.1 entry.2) = some e ↔ EntryFault entry e := by
  constructor
  · obtain ⟨key, value⟩ := entry
    intro h
    by_cases htable : key ∈ tableKeys
    · rw [entryItems_of_mem_tableKeys htable] at h
      split at h
      · rename_i hvalue
        obtain rfl := Option.some.inj h
        exact .table htable hvalue
      · cases h
    by_cases hmedia : key = "@MEDIA"
    · subst hmedia
      cases value with
      | array groups =>
        exact .group ((firstError?_flatMap_eq_some_iff fun _ _ => firstError?_groupItems).mp h)
      | _ =>
        obtain rfl := Option.some.inj h
        exact .media rfl
    · have hkey : key ∉ "@MEDIA" :: tableKeys :=
        List.not_mem_cons_of_ne_of_not_mem hmedia htable
      rw [entryItems_of_notMem hkey, firstError?_singleton] at h
      exact .rule hkey (error?_entry_eq_some_iff.mp h)
  · intro h
    cases h with
    | table hkey h =>
      rw [entryItems_of_mem_tableKeys hkey, if_pos h]
      rfl
    | @media value h =>
      cases value with
      | array groups => cases h
      | _ => rfl
    | group h =>
      exact (firstError?_flatMap_eq_some_iff fun _ _ => firstError?_groupItems).mpr h
    | rule hkey h =>
      rw [entryItems_of_notMem hkey, firstError?_singleton]
      exact error?_entry_eq_some_iff.mpr h

theorem firstError?_sheetItems {sheet : Json} :
    firstError? (sheetItems sheet) = some e ↔ SheetFault sheet e := by
  constructor
  · intro h
    cases sheet with
    | object members =>
      exact .entry ((firstError?_flatMap_eq_some_iff fun _ _ => firstError?_entryItems).mp h)
    | _ =>
      obtain rfl := Option.some.inj h
      exact .sheet rfl
  · rintro (h | h)
    · cases sheet <;> first | rfl | cases h
    · exact (firstError?_flatMap_eq_some_iff fun _ _ => firstError?_entryItems).mpr h

end

theorem exists_ruleFault_iff {entry : String × Json} :
    (∃ e, RuleFault entry e) ↔ LacksBody entry :=
  ⟨fun ⟨_, ⟨h⟩⟩ => h, fun h => ⟨_, .entry h⟩⟩

theorem SheetFault.malformed {sheet : Json} {e : StyleError} (h : SheetFault sheet e) :
    Malformed sheet := by
  cases h with
  | sheet h => exact .sheet h
  | entry h =>
    obtain ⟨entry, hmem, e, hentry⟩ := exists_firstIn_iff.mp ⟨e, h⟩
    cases hentry with
    | table hkey h => exact .table hmem hkey h
    | media h => exact .media hmem h
    | rule hkey h => exact .rule hmem hkey (exists_ruleFault_iff.mp ⟨e, h⟩)
    | group h =>
      obtain ⟨group, hgroup, e, hfault⟩ := exists_firstIn_iff.mp ⟨e, h⟩
      cases hfault with
      | group h => exact .group hmem hgroup h
      | rule h =>
        obtain ⟨inner, hinner, hfault⟩ := exists_firstIn_iff.mp ⟨e, h⟩
        obtain ⟨hinner, hkey⟩ := List.mem_filter.mp hinner
        exact .groupRule hmem hgroup hinner (of_decide_eq_true hkey)
          (exists_ruleFault_iff.mp hfault)

section
variable {members : List (String × Json)} {e : StyleError}

theorem exists_sheetFault_of_mem {entry : String × Json} (hmem : entry ∈ members)
    (h : EntryFault entry e) : ∃ e, SheetFault (.object members) e := by
  obtain ⟨e, hfirst⟩ := exists_firstIn_iff.mpr ⟨entry, hmem, e, h⟩
  exact ⟨e, .entry hfirst⟩

theorem exists_sheetFault_of_mem_groups {groups : List Json} {group : Json}
    (hmem : ("@MEDIA", .array groups) ∈ members) (hgroup : group ∈ groups)
    (h : GroupFault group e) : ∃ e, SheetFault (.object members) e := by
  obtain ⟨e, hfirst⟩ := exists_firstIn_iff.mpr ⟨group, hgroup, e, h⟩
  exact exists_sheetFault_of_mem hmem (.group hfirst)

end

theorem Malformed.exists_sheetFault {sheet : Json} (h : Malformed sheet) :
    ∃ e, SheetFault sheet e := by
  cases h with
  | sheet h => exact ⟨_, .sheet h⟩
  | table hmem hkey h => exact exists_sheetFault_of_mem hmem (.table hkey h)
  | media hmem h => exact exists_sheetFault_of_mem hmem (.media h)
  | rule hmem hkey h => exact exists_sheetFault_of_mem hmem (.rule hkey (.entry h))
  | group hmem hgroup h => exact exists_sheetFault_of_mem_groups hmem hgroup (.group h)
  | @groupRule members inner groups entry hmem hgroup hinner hkey h =>
    have hfilter : entry ∈ inner.filter (·.1 ≠ "condition") :=
      List.mem_filter.mpr ⟨hinner, decide_eq_true hkey⟩
    obtain ⟨e, hfirst⟩ := exists_firstIn_iff.mpr ⟨entry, hfilter, _, RuleFault.entry h⟩
    exact exists_sheetFault_of_mem_groups hmem hgroup (.rule hfirst)

/-- A sheet has a fault if anything in it is not what it has to be, wherever that stands. -/
theorem exists_sheetFault_iff {sheet : Json} : (∃ e, SheetFault sheet e) ↔ Malformed sheet :=
  ⟨fun ⟨_, h⟩ => h.malformed, Malformed.exists_sheetFault⟩

/-! ## Contents -/

/-- What stands in a sheet and gives a rule of it. -/
inductive SheetPart
  | keyframes (table : Table)
  | fontFace (table : Table)
  | group (condition : String) (kept : List RuleEntry)
  | rule (e : RuleEntry)

namespace SheetPart

/-- The style rules that are kept in the part. -/
def kept : SheetPart → List RuleEntry
  | group _ kept => kept
  | rule e => [e]
  | _ => []

/-- The rule that the part gives when `start` is the next number. -/
def ruleFrom (start : Nat) : SheetPart → Rule
  | keyframes table => .keyframes table
  | fontFace table => .fontFace table
  | group condition kept =>
    .media (MediaList.ofString condition)
      ((kept.zipIdx start).map fun (e, order) => .style (e.rule order))
  | rule e => .style (e.rule start)

end SheetPart

/-- The rules that parts give one after the other. -/
def rulesFrom (start : Nat) : List SheetPart → List Rule
  | [] => []
  | part :: rest => part.ruleFrom start :: rulesFrom (start + part.kept.length) rest

/-- The entries that are kept as rules. -/
def keptEntries (inMedia : Bool) (entries : List (String × Json)) : List RuleEntry :=
  (entries.map fun (key, value) => ⟨inMedia, key, value⟩).filter (·.IsKept)

def groupPart? (group : Json) : Option SheetPart :=
  group.asObject?.map fun members =>
    .group (((group.member? "condition").bind Json.asString?).getD "")
      (keptEntries true (members.filter (·.1 ≠ "condition")))

/-- The parts that an entry of a sheet holds. -/
def entryParts (key : String) (value : Json) : List SheetPart :=
  if key = "@KEYFRAMES" then (value.asObject?.map .keyframes).toList
  else if key = "@FONT-FACE" then (value.asObject?.map .fontFace).toList
  else if key = "@MEDIA" then (value.asArray?.getD []).filterMap groupPart?
  else if key = "@info" then []
  else (keptEntries false [(key, value)]).map .rule

/-- The parts of a sheet, in reading order. -/
def sheetParts (sheet : Json) : List SheetPart :=
  (sheet.asObject?.getD []).flatMap fun (key, value) => entryParts key value

theorem rulesFrom_append (start : Nat) (a b : List SheetPart) :
    rulesFrom start (a ++ b) =
      rulesFrom start a ++ rulesFrom (start + (a.flatMap SheetPart.kept).length) b := by
  induction a generalizing start with
  | nil => rfl
  | cons part rest ih =>
    rw [List.cons_append, rulesFrom, ih, List.flatMap_cons, List.length_append, Nat.add_assoc]
    rfl

theorem rulesFrom_map_rule (start : Nat) (kept : List RuleEntry) :
    rulesFrom start (kept.map .rule) =
      (kept.zipIdx start).map fun (e, order) => .style (e.rule order) := by
  induction kept generalizing start with
  | nil => rfl
  | cons e rest ih =>
    rw [List.map_cons, rulesFrom, ih, List.zipIdx_cons, List.map_cons]
    rfl

/-! ### The rules that are kept -/

theorem eq_of_map_eq_numbered {inMedia : Bool} {rules : List StyleRule} {start : Nat}
    {kept : List RuleEntry} (h : rules.map (inMedia, ·) = numbered start kept) :
    rules = (kept.zipIdx start).map fun (e, order) => e.rule order := by
  have hrules := congrArg (List.map Prod.snd) h
  simp only [numbered, List.map_map] at hrules
  exact (List.map_id' rules).symm.trans hrules

theorem keptBefore_of_firstError? {items : List SheetItem} (h : firstError? items = none) :
    keptBefore items = items.filterMap SheetItem.kept? := by
  have hall : ∀ item ∈ items, decide (item.error? = none) = true := fun item hitem =>
    decide_eq_true (List.findSome?_eq_none_iff.mp h item hitem)
  rw [keptBefore, List.takeWhile_eq_self_iff.mpr hall]

theorem filterMap_kept?_map (inMedia : Bool) (entries : List (String × Json)) :
    (entries.map fun (key, value) => SheetItem.entry ⟨inMedia, key, value⟩).filterMap
      SheetItem.kept? = keptEntries inMedia entries := by
  induction entries with
  | nil => rfl
  | cons entry rest ih =>
    rw [List.map_cons, List.filterMap_cons, ih, keptEntries, keptEntries, List.map_cons,
      List.filter_cons, SheetItem.kept?]
    by_cases hkept : RuleEntry.IsKept ⟨inMedia, entry.1, entry.2⟩ <;> simp [hkept]

theorem filterMap_kept?_groupItems (group : Json) :
    (groupItems group).filterMap SheetItem.kept? =
      (groupPart? group).toList.flatMap SheetPart.kept := by
  cases group with
  | object members => exact (filterMap_kept?_map true _).trans (List.append_nil _).symm
  | _ => rfl

theorem filterMap_kept?_flatMap_groupItems (groups : List Json) :
    (groups.flatMap groupItems).filterMap SheetItem.kept? =
      (groups.filterMap groupPart?).flatMap SheetPart.kept := by
  induction groups with
  | nil => rfl
  | cons group rest ih =>
    rw [List.flatMap_cons, List.filterMap_append, ih, filterMap_kept?_groupItems,
      List.filterMap_cons]
    cases groupPart? group <;> simp

theorem entryParts_of_notMem {key : String} (h : key ∉ "@MEDIA" :: tableKeys) (value : Json) :
    entryParts key value = (keptEntries false [(key, value)]).map .rule := by
  have hkeys := h
  simp only [tableKeys, List.mem_cons, List.not_mem_nil, or_false, not_or] at hkeys
  obtain ⟨hmedia, hframes, hfonts, hinfo⟩ := hkeys
  unfold entryParts
  rw [if_neg hframes, if_neg hfonts, if_neg hmedia, if_neg hinfo]

theorem filterMap_kept?_entryItems (key : String) (value : Json) :
    (entryItems key value).filterMap SheetItem.kept? =
      (entryParts key value).flatMap SheetPart.kept := by
  by_cases htable : key ∈ tableKeys
  · have hnone : (entryItems key value).filterMap SheetItem.kept? = [] := by
      rw [entryItems_of_mem_tableKeys htable]
      split <;> rfl
    rw [hnone]
    simp only [tableKeys, List.mem_cons, List.not_mem_nil, or_false] at htable
    rcases htable with rfl | rfl | rfl
    · cases value <;> rfl
    · cases value <;> rfl
    · rfl
  by_cases hmedia : key = "@MEDIA"
  · subst hmedia
    cases value with
    | array groups => exact filterMap_kept?_flatMap_groupItems groups
    | _ => rfl
  · have hkey : key ∉ "@MEDIA" :: tableKeys := List.not_mem_cons_of_ne_of_not_mem hmedia htable
    have hself : ∀ kept : List RuleEntry, (kept.map SheetPart.rule).flatMap SheetPart.kept = kept :=
      fun kept => by rw [List.flatMap_map]; exact List.flatMap_singleton' kept
    rw [entryItems_of_notMem hkey, entryParts_of_notMem hkey, hself]
    exact filterMap_kept?_map false [(key, value)]

/-! ### Runs that succeed -/

section
variable {α β : Type} {s next : Session}

theorem GoesThrough.of_run_eq_ok {reading : Reading α} {items : List SheetItem}
    {rules : α → List (Bool × StyleRule)} (h : GoesThrough reading items rules) {a : α}
    (hrun : run s reading = (.ok a, next)) :
    next.nextOrder = s.nextOrder + (items.filterMap SheetItem.kept?).length ∧
      rules a = numbered s.nextOrder (items.filterMap SheetItem.kept?) := by
  obtain ⟨next', hnext, houtcome⟩ := h s
  cases herror : firstError? items with
  | some e =>
    rw [herror, hrun] at houtcome
    cases houtcome
  | none =>
    rw [herror, hrun] at houtcome
    obtain ⟨a', heq, hrules⟩ := houtcome
    cases heq
    rw [← keptBefore_of_firstError? herror]
    exact ⟨hnext, hrules⟩

/-- A run of two readings is a run of the first and then one of the second. -/
theorem exists_run_of_bind {m : Reading α} {f : α → Reading β} {b : β}
    (h : run s (m >>= f) = (.ok b, next)) :
    ∃ a middle, run s m = (.ok a, middle) ∧ run middle (f a) = (.ok b, next) := by
  rw [run_bind] at h
  split at h
  · rename_i a middle hfirst
    exact ⟨a, middle, hfirst, h⟩
  · cases h

theorem eq_object_of_run {value : Json} {e : StyleError} {members : List (String × Json)}
    (h : run s (requireObject value e) = (.ok members, next)) :
    value = .object members ∧ next = s := by
  cases value with
  | object _ =>
    cases h
    exact ⟨rfl, rfl⟩
  | _ => cases h

theorem rules_of_run_readStyleRules {inMedia : Bool} {entries : List (String × Json)}
    {rules : List StyleRule} (h : run s (readStyleRules inMedia entries) = (.ok rules, next)) :
    rules = ((keptEntries inMedia entries).zipIdx s.nextOrder).map
      fun (e, order) => e.rule order := by
  have hrules := ((goesThrough_readStyleRules inMedia entries).of_run_eq_ok h).2
  rw [filterMap_kept?_map] at hrules
  exact eq_of_map_eq_numbered hrules

/-- A group that is read gives the rule of its part. -/
theorem rule_of_run_readMediaGroup {group : Json} {rule : Rule}
    (h : run s (readMediaGroup group) = (.ok rule, next)) :
    ∃ part, groupPart? group = some part ∧ rule = part.ruleFrom s.nextOrder := by
  obtain ⟨members, first, hobject, hread⟩ := exists_run_of_bind h
  obtain ⟨rules, second, hrules, hnotify⟩ := exists_run_of_bind hread
  obtain ⟨_, third, -, hreturn⟩ := exists_run_of_bind hnotify
  obtain ⟨rfl, rfl⟩ := eq_object_of_run hobject
  cases hreturn
  refine ⟨_, rfl, ?_⟩
  rw [rules_of_run_readStyleRules hrules, List.map_map]
  rfl

theorem rules_of_run_readMediaGroups {groups : List Json} {rules : List Rule}
    (h : run s (readMediaGroups groups) = (.ok rules, next)) :
    rules = rulesFrom s.nextOrder (groups.filterMap groupPart?) := by
  induction groups generalizing s rules with
  | nil =>
    cases h
    rfl
  | cons group rest ih =>
    obtain ⟨rule, middle, hrule, hrest⟩ := exists_run_of_bind h
    obtain ⟨more, last, hmore, hreturn⟩ := exists_run_of_bind hrest
    cases hreturn
    obtain ⟨part, hpart, rfl⟩ := rule_of_run_readMediaGroup hrule
    have hnext := ((goesThrough_readMediaGroup group).of_run_eq_ok hrule).1
    rw [filterMap_kept?_groupItems, hpart] at hnext
    rw [List.filterMap_cons_some hpart, rulesFrom, ih hmore, hnext]
    simp

/-- An entry that is read gives the rules of its parts. -/
theorem rules_of_run_readEntry {key : String} {value : Json} {rules : List Rule}
    (h : run s (readEntry key value) = (.ok rules, next)) :
    rules = rulesFrom s.nextOrder (entryParts key value) := by
  have htable : ∀ {e : StyleError} {f : Table → List Rule},
      run s (do let members ← requireObject value e; return f members) = (.ok rules, next) →
        ∃ members, value = .object members ∧ rules = f members := by
    intro e f h
    obtain ⟨members, middle, hobject, hreturn⟩ := exists_run_of_bind h
    cases hreturn
    exact ⟨members, (eq_object_of_run hobject).1, rfl⟩
  by_cases hframes : key = "@KEYFRAMES"
  · subst hframes
    obtain ⟨members, rfl, rfl⟩ := htable h
    rfl
  by_cases hfonts : key = "@FONT-FACE"
  · subst hfonts
    obtain ⟨members, rfl, rfl⟩ := htable h
    rfl
  by_cases hmedia : key = "@MEDIA"
  · subst hmedia
    cases value with
    | array groups => exact rules_of_run_readMediaGroups h
    | _ => cases h
  by_cases hinfo : key = "@info"
  · subst hinfo
    obtain ⟨members, rfl, rfl⟩ := htable h
    rfl
  · have hkey : key ∉ "@MEDIA" :: tableKeys := by simp [tableKeys, *]
    unfold readEntry at h
    rw [if_neg hframes, if_neg hfonts, if_neg hmedia, if_neg hinfo] at h
    obtain ⟨rule, middle, hrule, hreturn⟩ := exists_run_of_bind h
    cases hreturn
    have hkept := ((goesThrough_readStyleRule false key value).of_run_eq_ok hrule).2
    have hitems := filterMap_kept?_map false [(key, value)]
    rw [List.map_singleton] at hitems
    rw [hitems] at hkept
    rw [entryParts_of_notMem hkey, rulesFrom_map_rule, eq_of_map_eq_numbered hkept, List.map_map]
    rfl

theorem rules_of_run_readEntries {entries : List (String × Json)} {rules : List Rule}
    (h : run s (readEntries entries) = (.ok rules, next)) :
    rules = rulesFrom s.nextOrder (entries.flatMap fun (key, value) => entryParts key value) := by
  induction entries generalizing s rules with
  | nil =>
    cases h
    rfl
  | cons entry rest ih =>
    obtain ⟨first, middle, hfirst, hrest⟩ := exists_run_of_bind h
    obtain ⟨more, last, hmore, hreturn⟩ := exists_run_of_bind hrest
    cases hreturn
    have hnext := ((goesThrough_readEntry entry.1 entry.2).of_run_eq_ok hfirst).1
    rw [filterMap_kept?_entryItems] at hnext
    rw [List.flatMap_cons, rulesFrom_append, rules_of_run_readEntry hfirst, ih hmore, hnext]

theorem rules_of_run_readSheet {sheet : Json} {read : StyleSheet}
    (h : run s (readSheet sheet) = (.ok read, next)) :
    read.rules = rulesFrom s.nextOrder (sheetParts sheet) := by
  obtain ⟨members, first, hobject, hread⟩ := exists_run_of_bind h
  obtain ⟨rules, second, hrules, hnotify⟩ := exists_run_of_bind hread
  obtain ⟨_, third, -, hreturn⟩ := exists_run_of_bind hnotify
  obtain ⟨rfl, rfl⟩ := eq_object_of_run hobject
  cases hreturn
  exact rules_of_run_readEntries hrules

end

/-- A reading fails with what is wrong with the first item in fault. -/
theorem GoesThrough.run_eq_error_iff {α : Type} {reading : Reading α} {items : List SheetItem}
    {rules : α → List (Bool × StyleRule)} (h : GoesThrough reading items rules) (s : Session)
    (e : StyleError) :
    (∃ next, run s reading = (.error e, next)) ↔ firstError? items = some e := by
  obtain ⟨next, -, houtcome⟩ := h s
  cases herror : firstError? items with
  | some e' =>
    rw [herror] at houtcome
    rw [houtcome]
    simp
  | none =>
    rw [herror] at houtcome
    obtain ⟨a, hrun, -⟩ := houtcome
    rw [hrun]
    simp

/-- **Reading a sheet fails on the malformed ones and on no others.** -/
theorem outcome_readSheet (s : Session) (sheet : Json) :
    ((∃ e next, run s (readSheet sheet) = (.error e, next)) ↔ Malformed sheet) ∧
      (∀ e, (∃ next, run s (readSheet sheet) = (.error e, next)) ↔ SheetFault sheet e) ∧
      (¬Malformed sheet → ∃ read next, run s (readSheet sheet) = (.ok read, next) ∧
        read.rules = rulesFrom s.nextOrder (sheetParts sheet)) := by
  have herror : ∀ e, (∃ next, run s (readSheet sheet) = (.error e, next)) ↔ SheetFault sheet e :=
    fun e => ((goesThrough_readSheet sheet).run_eq_error_iff s e).trans firstError?_sheetItems
  have hfails : (∃ e next, run s (readSheet sheet) = (.error e, next)) ↔ Malformed sheet :=
    (exists_congr herror).trans exists_sheetFault_iff
  refine ⟨hfails, herror, fun hformed => ?_⟩
  rcases hrun : run s (readSheet sheet) with ⟨_ | read, next⟩
  · exact absurd (hfails.mp ⟨_, _, hrun⟩) hformed
  · exact ⟨read, next, rfl, rules_of_run_readSheet hrun⟩

/-- A sheet with a rule that is no object in its second media group, and more behind it that is not
as it has to be. -/
def twiceFaultySheet : Json :=
  .object [
    ("@import", .null),
    ("@MEDIA", .array [
      .object [(".a", .object []), ("  ", .null)],
      .object [("condition", .null), (" .b ", .bool true)]]),
    ("@info", .null)]

theorem outcome_readSheet_twiceFaultySheet :
    Malformed twiceFaultySheet ∧
      ∃ next, run {} (readSheet twiceFaultySheet) = (.error (.invalidDeclaration ".b"), next) := by
  obtain ⟨hfails, herror, -⟩ := outcome_readSheet {} twiceFaultySheet
  have hfault : SheetFault twiceFaultySheet (.invalidDeclaration ".b") :=
    firstError?_sheetItems.mp (by decide +kernel)
  have hrun := (herror _).mpr hfault
  exact ⟨hfails.mp ⟨_, hrun⟩, hrun⟩

end Session
end StyleCascade
