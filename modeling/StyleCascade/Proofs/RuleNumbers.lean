import StyleCascade.Proofs.SheetReading

/-!
# The numbers of rules

A session counts the style rules of all the sheets that are read in it, one call after the other
and whether a call succeeds or not (`Session.Numbers`).  A call that fails uses up the numbers it
has given out by then.  So of two rules in sheets of one session the one that is read later has the
higher number, in the same sheet or in another, in a media group or outside
(`Session.orders_readEach`).
-/
namespace StyleCascade

/-- A call that reads a sheet, from a value or from its text. -/
inductive SheetCall
  | value (sheet : Json)
  | text (text : String)

namespace SheetCall

def reading : SheetCall → Reading StyleSheet
  | value sheet => Session.readSheet sheet
  | text t => Session.readSheetText t

/-- The items that the call comes upon.  A text that is not JSON is itself in fault. -/
def items : SheetCall → List SheetItem
  | value sheet => Session.sheetItems sheet
  | text t =>
    match Json.ofString t with
    | .ok sheet => Session.sheetItems sheet
    | .error fault => [.fault (.json fault)]

theorem goesThrough_reading (call : SheetCall) :
    Session.GoesThrough call.reading call.items StyleSheet.placedRules := by
  cases call with
  | value sheet => exact Session.goesThrough_readSheet sheet
  | text t =>
    rw [reading, items, Session.readSheetText]
    cases Json.ofString t with
    | ok sheet => exact Session.goesThrough_readSheet sheet
    | error fault => exact fun s => ⟨s, rfl, rfl⟩

end SheetCall

namespace Session

/-- Makes calls one after the other, whatever comes of each of them. -/
def readEach (s : Session) : List SheetCall → List (Except StyleError StyleSheet) × Session
  | [] => ([], s)
  | call :: rest =>
    let (outcome, s) := s.run call.reading
    let (outcomes, s) := s.readEach rest
    (outcome :: outcomes, s)

/-- What calls come to, the first of which finds the number `start` to be next, and the number that
is next after all of them.  The rules that a call keeps before its first item in fault take the
numbers from the one it finds, in reading order. -/
inductive Numbers : Nat → List SheetCall → List (Except StyleError StyleSheet) → Nat → Prop
  | nil {start : Nat} : Numbers start [] [] start
  /-- Nothing is in fault. -/
  | sheet {start last : Nat} {call : SheetCall} {calls : List SheetCall} {sheet : StyleSheet}
      {outcomes : List (Except StyleError StyleSheet)} (hfault : firstError? call.items = none)
      (hrules : sheet.placedRules = numbered start (keptBefore call.items))
      (hrest : Numbers (start + (keptBefore call.items).length) calls outcomes last) :
      Numbers start (call :: calls) (.ok sheet :: outcomes) last
  /-- The call ends at an item in fault. -/
  | error {start last : Nat} {call : SheetCall} {calls : List SheetCall} {e : StyleError}
      {outcomes : List (Except StyleError StyleSheet)} (hfault : firstError? call.items = some e)
      (hrest : Numbers (start + (keptBefore call.items).length) calls outcomes last) :
      Numbers start (call :: calls) (.error e :: outcomes) last

/-- The rules of all the sheets that calls return, each with whether it stands in a media group. -/
def rulesOf (outcomes : List (Except StyleError StyleSheet)) : List (Bool × StyleRule) :=
  (outcomes.filterMap Except.toOption).flatMap StyleSheet.placedRules

theorem numbers_readEach (s : Session) (calls : List SheetCall) :
    Numbers s.nextOrder calls (s.readEach calls).1 (s.readEach calls).2.nextOrder := by
  induction calls generalizing s with
  | nil => exact .nil
  | cons call calls ih =>
    obtain ⟨next, hnext, hrun⟩ := call.goesThrough_reading s
    have hrest := ih next
    rw [hnext] at hrest
    cases hfault : firstError? call.items with
    | some e =>
      rw [hfault] at hrun
      simp only [readEach, hrun]
      exact .error hfault hrest
    | none =>
      rw [hfault] at hrun
      obtain ⟨sheet, hrun, hrules⟩ := hrun
      simp only [readEach, hrun]
      exact .sheet hfault hrules hrest

theorem map_order_numbered (start : Nat) (kept : List RuleEntry) :
    (numbered start kept).map (·.2.order) = List.range' start kept.length := by
  rw [numbered, List.map_map]
  exact List.zipIdx_map_snd start kept

theorem inMedia_of_mem_numbered {start : Nat} {kept : List RuleEntry} {placed : Bool × StyleRule}
    (h : placed ∈ numbered start kept) : placed.2.inMedia = placed.1 := by
  obtain ⟨_, -, rfl⟩ := List.mem_map.mp h
  rfl

theorem order_of_mem_numbered {start : Nat} {kept : List RuleEntry} {placed : Bool × StyleRule}
    (h : placed ∈ numbered start kept) :
    start ≤ placed.2.order ∧ placed.2.order < start + kept.length := by
  have hmem : placed.2.order ∈ List.range' start kept.length :=
    map_order_numbered start kept ▸ List.mem_map_of_mem h
  exact List.mem_range'_1.mp hmem

/-- The numbers that calls give out are not below the one they find. -/
theorem Numbers.le_order {start last : Nat} {calls : List SheetCall}
    {outcomes : List (Except StyleError StyleSheet)} (h : Numbers start calls outcomes last) :
    ∀ placed ∈ rulesOf outcomes, start ≤ placed.2.order := by
  induction h with
  | nil => simp [rulesOf]
  | sheet _ hrules _ ih =>
    refine List.forall_mem_append.mpr ⟨fun placed hplaced => ?_, fun placed hplaced => ?_⟩
    · exact (order_of_mem_numbered (hrules ▸ hplaced)).1
    · exact Nat.le_trans (Nat.le_add_right ..) (ih placed hplaced)
  | error _ _ ih =>
    exact fun placed hplaced => Nat.le_trans (Nat.le_add_right ..) (ih placed hplaced)

/-- They grow from each rule to the next one. -/
theorem Numbers.pairwise_order {start last : Nat} {calls : List SheetCall}
    {outcomes : List (Except StyleError StyleSheet)} (h : Numbers start calls outcomes last) :
    (rulesOf outcomes).Pairwise (·.2.order < ·.2.order) := by
  induction h with
  | nil => exact .nil
  | sheet _ hrules hrest ih =>
    refine List.pairwise_append.mpr ⟨?_, ih, fun a ha b hb => ?_⟩
    · rw [hrules, ← List.pairwise_map, map_order_numbered]
      exact List.pairwise_lt_range' 1
    · exact Nat.lt_of_lt_of_le (order_of_mem_numbered (hrules ▸ ha)).2 (hrest.le_order b hb)
  | error _ _ ih => exact ih

theorem Numbers.inMedia_eq {start last : Nat} {calls : List SheetCall}
    {outcomes : List (Except StyleError StyleSheet)} (h : Numbers start calls outcomes last) :
    ∀ placed ∈ rulesOf outcomes, placed.2.inMedia = placed.1 := by
  induction h with
  | nil => simp [rulesOf]
  | sheet _ hrules _ ih =>
    exact List.forall_mem_append.mpr ⟨fun _ h => inMedia_of_mem_numbered (hrules ▸ h), ih⟩
  | error _ _ ih => exact ih

/-- **A session numbers the rules it reads.**  Each call gives its rules the numbers from the one it
finds on, and leaves the number behind the last rule that it has kept.  Over all the sheets that
are returned the numbers grow from each rule to the next one, so no two rules share a number, and
exactly the rules of media groups are marked as such. -/
theorem orders_readEach (s : Session) (calls : List SheetCall) :
    Numbers s.nextOrder calls (s.readEach calls).1 (s.readEach calls).2.nextOrder ∧
      (rulesOf (s.readEach calls).1).Pairwise (·.2.order < ·.2.order) ∧
      ∀ placed ∈ rulesOf (s.readEach calls).1, placed.2.inMedia = placed.1 :=
  have h := numbers_readEach s calls
  ⟨h, h.pairwise_order, h.inMedia_eq⟩

/-- A rule, a media group and names that are passed over. -/
def groupedSheet : Json :=
  .object [
    (".a", .object []),
    ("@MEDIA", .array [.object [
      ("condition", .string "(min-width: 100)"), (".b", .object []), (" : ", .object []),
      ("@import", .null), ("#c", .object [])]]),
    ("text", .object [])]

/-- A rule, and a media group that is cut off behind another one. -/
def brokenSheet : Json :=
  .object [
    (".d", .object []),
    ("@MEDIA", .array [.object [(".e", .object []), (".f", .bool true), (".g", .object [])]]),
    (".h", .object [])]

/-- Two sheets, with a broken one and a text that is no sheet between them. -/
def brokenSession : List SheetCall :=
  [.value groupedSheet, .value brokenSheet, .text "[", .value groupedSheet]

theorem orders_readEach_brokenSession :
    ((rulesOf (Session.readEach {} brokenSession).1).Pairwise (·.2.order < ·.2.order) ∧
      ∀ placed ∈ rulesOf (Session.readEach {} brokenSession).1,
        placed.2.inMedia = placed.1) ∧
      (rulesOf (Session.readEach {} brokenSession).1).map
          (fun placed => (placed.1, placed.2.text, placed.2.order)) =
        [(false, ".a", 0), (true, ".b", 1), (true, "#c", 2), (false, "text", 3),
          (false, ".a", 6), (true, ".b", 7), (true, "#c", 8), (false, "text", 9)] :=
  ⟨(orders_readEach {} brokenSession).2, by decide +kernel⟩

end Session
end StyleCascade
