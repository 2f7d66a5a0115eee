import StyleCascade.Proofs.CascadeLaw
import StyleCascade.Proofs.DirtyPass
import StyleCascade.Proofs.SheetOwners
import StyleCascade.Proofs.Unaffected

/-!
# Restyling in any order, and again

Restyling a node reads nothing that restyling another one writes, and its outcome is the
cascade over its own old style; so the outcome of a node after a run of turns depends only on
whether the node has had a turn (`Document.outcome_restyleEach`), and the order of the turns
does not matter (`Document.outcome_restyleEach_perm`).  What one turn changes besides the outcome
of its node are listeners for this node and marks on it and above it
(`Document.restylesOnly_restyle`).  A second turn gives the same outcome, because a cascade over
its own result changes nothing (`Document.iterate_applyRules`).
-/
namespace StyleCascade
namespace Document

variable {d e : Document} {id : NodeId}

/-! ## The outcome of a run of turns -/

/-- The outcome of restyling a node, from the one before. -/
def restyled (d : Document) (id : NodeId)
    (before : Declaration × Declaration × Option (List MatchedRule)) :
    Declaration × Declaration × Option (List MatchedRule) :=
  (before.1, before.2.1.cascade (d.matchedRules id) before.1 (d.sheetStack id),
    some (d.matchedRules id))

theorem restyled_restyled (before : Declaration × Declaration × Option (List MatchedRule)) :
    d.restyled id (d.restyled id before) = d.restyled id before := by
  simp only [restyled, Declaration.cascade_cascade]

theorem Keeps.restyled (h : Keeps Node.apartFromStyling d e) (id : NodeId) :
    e.restyled id = d.restyled id := by
  funext before
  rw [Document.restyled, Document.restyled, h.matchedRules, h.sheetStack]

/-- A turn settles the outcome of its node, and of no other. -/
theorem outcome_restyle (d : Document) (turn id : NodeId) :
    ((d.restyle turn).1.node? id).map Node.outcome =
      ((d.node? id).map Node.outcome).map fun o => if id = turn then d.restyled id o else o := by
  by_cases hid : id = turn
  · subst hid
    simp only [if_true]
    cases hn : d.node? id with
    | none =>
      have hc : d.contains id = false := by simp [contains, hn]
      rw [restyle_of_not_contains hc, hn]
      rfl
    | some node =>
      obtain ⟨after, hafter, hmatched, hinline, hfinal⟩ := node?_restyle_self hn
      rw [hafter]
      simp only [Option.map_some, Node.outcome, hmatched, hinline, hfinal, restyled]
  · have hsame := congrArg (Option.map Node.outcome) (node?_restyle_of_ne d hid)
    rw [Option.map_map, Option.map_map] at hsame
    simp only [if_neg hid, Option.map_id']
    exact hsame

/-- **The outcome of a run of turns** is that of one turn in the document before, for the nodes
that have had one. -/
theorem outcome_restyleEach (d : Document) (turns : List NodeId) (id : NodeId) :
    ((d.restyleEach turns).node? id).map Node.outcome =
      ((d.node? id).map Node.outcome).map fun o =>
        if id ∈ turns then d.restyled id o else o := by
  induction turns generalizing d with
  | nil => simp [restyleEach, Function.comp_def]
  | cons turn rest ih =>
    -- The first turn changes nothing that the others read, so they act as in `d`.
    have hfirst : d.restyleEach (turn :: rest) = (d.restyle turn).1.restyleEach rest := rfl
    rw [hfirst, ih, outcome_restyle, (keeps_restyle d turn).restyled, Option.map_map]
    refine congrArg (Option.map · _) (funext fun o => ?_)
    by_cases hid : id = turn
    · simp [hid, restyled_restyled]
    · simp [hid]

theorem outcome_restyleEach_perm {turns turns' : List NodeId} (h : turns.Perm turns') :
    ((d.restyleEach turns).node? id).map Node.outcome =
      ((d.restyleEach turns').node? id).map Node.outcome := by
  simp only [outcome_restyleEach, h.mem_iff]

/-! ## What a turn leaves alone -/

/-- `e` is `d` but for the outcome of `id`, the listeners for `id`, and marks on `id` and the
nodes above it. -/
structure RestylesOnly (d : Document) (id : NodeId) (e : Document) : Prop where
  /-- Every other node keeps all but its mark and its part in listening. -/
  others : ∀ j, j ≠ id →
    (e.node? j).map Node.apartFromMatching = (d.node? j).map Node.apartFromMatching
  /-- The node itself keeps all but these and its outcome; the slots, the sheets and the
  environment are kept. -/
  keeps : Keeps Node.apartFromStyling d e
  owners : e.owners = d.owners
  /-- Every node keeps the listeners for other leaves, in their order. -/
  listeners : ∀ holder, e.listenersExcept holder id = d.listenersExcept holder id
  /-- Only the node and its strict ancestors are marked. -/
  marks : ∀ j, e.isDirty j = true → d.isDirty j = true ∨ j = id ∨ d.IsAncestor j id
  /-- No other node loses its mark. -/
  unmarks : ∀ j, j ≠ id → d.isDirty j = true → e.isDirty j = true

theorem IsForest.restylesOnly_restyle (hd : d.IsForest) (id : NodeId) :
    d.RestylesOnly id (d.restyle id).1 where
  others _ hj := node?_restyle_of_ne d hj
  keeps := keeps_restyle d id
  owners := owners_restyle d id
  listeners := listenersExcept_restyle d id
  marks j hj := by
    cases hc : d.contains id with
    | false =>
      rw [restyle_of_not_contains hc] at hj
      exact .inl hj
    | true =>
      simp only [isDirty_restyle hc, Bool.or_eq_true, Bool.and_eq_true, decide_eq_true_eq] at hj
      rcases hj with ⟨-, hdirty⟩ | ⟨hmarked, -⟩
      · exact .inl hdirty
      · rw [← hd.mem_ancestors_iff]
        exact .inr (hd.mem_unsettled_unmarked hmarked).1
  unmarks j hj hdirty := by
    by_contra hafter
    rw [isDirty_of_restyle hj (by simpa using hafter)] at hdirty
    cases hdirty

/-- **Turns do not depend on each other.**  Nodes that are restyled one after the other come to
the same final styles and the same matched rules in every order; and restyling a node touches
nothing of the others but marks above the node and the listeners that they hold for it. -/
theorem restyleEach_perm (hd : d.Reachable) :
    (∀ turns turns' : List NodeId, turns.Perm turns' → ∀ id,
      ((d.restyleEach turns).node? id).map Node.outcome =
        ((d.restyleEach turns').node? id).map Node.outcome) ∧
      ∀ id, d.RestylesOnly id (d.restyle id).1 :=
  ⟨fun _ _ h _ => outcome_restyleEach_perm h, hd.isForest.restylesOnly_restyle⟩

/-- Two labels in a button, under a rule for active buttons. -/
def labelsSample : Document :=
  Document.new.performAll [.addSheet (redSheet [activeButtonLabel]), .create "button",
    .append .root ⟨1⟩, .create "label", .append ⟨1⟩ ⟨2⟩, .create "label", .append ⟨1⟩ ⟨3⟩]

/-- The button holds the listeners for its labels in the order of their turns; the outcomes are
the same. -/
theorem restyleEach_perm_labelsSample :
    labelsSample.Reachable ∧
      ((labelsSample.restyleEach [⟨2⟩, ⟨3⟩]).listenersOf ⟨1⟩).map Listener.leaf = [⟨2⟩, ⟨3⟩] ∧
      ((labelsSample.restyleEach [⟨3⟩, ⟨2⟩]).listenersOf ⟨1⟩).map Listener.leaf = [⟨3⟩, ⟨2⟩] ∧
      (∀ id, ((labelsSample.restyleEach [⟨2⟩, ⟨3⟩]).node? id).map Node.outcome =
        ((labelsSample.restyleEach [⟨3⟩, ⟨2⟩]).node? id).map Node.outcome) ∧
      labelsSample.RestylesOnly ⟨2⟩ (labelsSample.restyle ⟨2⟩).1 := by
  have hreach : labelsSample.Reachable := reachable_performAll {} _
  obtain ⟨hperm, honly⟩ := restyleEach_perm hreach
  exact ⟨hreach, by decide +kernel, by decide +kernel,
    hperm _ _ (List.Perm.swap _ _ _), honly ⟨2⟩⟩

/-! ## Again -/

theorem iterate_succ_of_idempotent {α : Type} {f : α → α} (h : ∀ a, f (f a) = f a) (times : ℕ)
    (a : α) : f^[times + 1] a = f a :=
  (Function.iterate_succ_apply f times a).trans (Function.iterate_fixed (h a) times)

/-- A change that leaves the node as it is leaves the document as it is. -/
theorem modify_eq_self {f : Node → Node} (h : ∀ n, d.node? id = some n → f n = n) :
    d.modify id f = d := by
  have hslots : d.slots.modify id.index (Option.map f) = d.slots := by
    refine Array.ext_getElem? fun i => ?_
    rw [Array.getElem?_modify]
    split
    · rename_i hi
      subst hi
      cases hslot : d.slots[id.index]? with
      | none => rfl
      | some slot =>
        cases slot with
        | none => rfl
        | some n => simp [h n (by simp [node?, hslot])]
    · rfl
  rw [modify, hslots]

theorem applyRules_applyRules (d : Document) (id : NodeId) (rules : List MatchedRule) :
    (d.applyRules id rules).applyRules id rules = d.applyRules id rules := by
  refine modify_eq_self fun n hn => ?_
  rw [(keeps_applyRules d id rules).sheetStack]
  rw [applyRules, node?_modify, if_pos rfl] at hn
  obtain ⟨before, -, rfl⟩ := Option.map_eq_some_iff.mp hn
  simp only [Declaration.cascade_cascade]

/-- **A cascade can be repeated.**  Applied to its own result any number of times, with the same
rules, inline style and sheets, a cascade gives that result again: the same properties in the
same order, with the same values, states and disabled ones.  So it does for the final style of a
node in a document, which stays what it is as a whole. -/
theorem iterate_applyRules (d : Document) (id : NodeId) (rules : List MatchedRule) (times : ℕ) :
    (∀ (before inline : Declaration) (sheets : SheetStack),
      (fun style => style.cascade rules inline sheets)^[times + 1] before =
        before.cascade rules inline sheets) ∧
      (fun d => d.applyRules id rules)^[times + 1] d = d.applyRules id rules := by
  refine ⟨fun before inline sheets => ?_, ?_⟩
  · exact iterate_succ_of_idempotent (fun _ => Declaration.cascade_cascade _) times before
  · exact iterate_succ_of_idempotent (fun d => applyRules_applyRules d id rules) times d

end Document
end StyleCascade
