import StyleCascade.Proofs.ListenerIndex

/-!
# What restyling a node does

Restyling a node stores the rules that match it and merges them into its final style
(`Document.node?_restyle_self`).  Of the other nodes it changes at most the dirty marks
and the listeners held for the restyled node (`Document.node?_restyle_of_ne`), and it
takes no mark away from them (`Document.isDirty_of_restyle`).
-/
namespace StyleCascade
namespace Document

/-! ## Dirty marks -/

theorem isDirty_markDirty (d : Document) (ids : List NodeId) (j : NodeId) :
    (d.markDirty ids).isDirty j = (d.isDirty j || (decide (j ∈ ids) && d.contains j)) := by
  induction ids generalizing d with
  | nil => simp [markDirty]
  | cons id rest ih =>
    have hone : (d.modify id fun n => { n with dirty := true }).isDirty j =
        (d.isDirty j || (decide (j = id) && d.contains j)) := by
      rw [isDirty, isDirty, contains, node?_modify]
      by_cases hj : id = j
      · subst hj
        cases d.node? id <;> simp
      · have hne : ¬j = id := fun h => hj h.symm
        simp [hj, hne]
    have hsame : (d.modify id fun n => { n with dirty := true }).contains j = d.contains j :=
      (keeps_modify d id fun _ => by rfl : Keeps (·.tag) _ _).contains j
    rw [markDirty, List.foldl_cons, ← markDirty, ih, hone, hsame]
    cases d.contains j <;> simp [Bool.or_assoc]

theorem Keeps.isDirty {d e : Document} (h : Keeps (·.dirty) d e) (id : NodeId) :
    e.isDirty id = d.isDirty id :=
  h.any id

/-- **Matching** marks the nodes that it leaves unsettled, and no others. -/
theorem isDirty_rematch (d : Document) (id j : NodeId) : (d.rematch id).1.isDirty j =
    (d.isDirty j || (decide (j ∈ d.unsettled id) && d.contains j)) := by
  have hadd := (keeps_addListeners ((d.releaseListeners id).markDirty (d.unsettled id))
    (d.neededListeners id)).map (·.dirty)
  have hrelease := (keeps_releaseListeners d id).map (·.dirty)
  have hmarked := isDirty_markDirty (d.releaseListeners id) (d.unsettled id) j
  rw [hrelease.isDirty, hrelease.contains] at hmarked
  exact (hadd.isDirty j).trans hmarked

/-- Matching takes no mark away. -/
theorem isDirty_of_rematch {d : Document} {id j : NodeId}
    (h : (d.rematch id).1.isDirty j = false) : d.isDirty j = false := by
  rw [isDirty_rematch, Bool.or_eq_false_iff] at h
  exact h.1

/-- The document in which the mark of `id` has been taken away. -/
def unmarked (d : Document) (id : NodeId) : Document :=
  d.modify id fun n => { n with dirty := false }

theorem keeps_unmarked (d : Document) (id : NodeId) :
    Keeps Node.apartFromMatching d (d.unmarked id) :=
  keeps_modify d id fun _ => rfl

theorem restyle_of_contains {d : Document} {id : NodeId} (h : d.contains id = true) :
    (d.restyle id).1 =
      (((d.unmarked id).rematch id).1.applyRules id ((d.unmarked id).matchedRules id)).modify id
        fun n => { n with matched := some ((d.unmarked id).matchedRules id) } := by
  rw [restyle, if_pos h]
  rfl

theorem restyle_of_not_contains {d : Document} {id : NodeId} (h : d.contains id = false) :
    (d.restyle id).1 = d := by
  rw [restyle, if_neg (by simp [h])]

theorem isDirty_unmarked (d : Document) (id j : NodeId) :
    (d.unmarked id).isDirty j = (decide (j ≠ id) && d.isDirty j) := by
  rw [isDirty, unmarked, node?_modify]
  by_cases hj : id = j
  · subst hj
    cases d.node? id <;> simp
  · have hne : j ≠ id := Ne.symm hj
    simp [hj, hne, isDirty]

/-- **Restyling a node** takes its mark away and then marks what matching leaves unsettled. -/
theorem isDirty_restyle {d : Document} {id : NodeId} (hc : d.contains id = true) (j : NodeId) :
    (d.restyle id).1.isDirty j = ((decide (j ≠ id) && d.isDirty j) ||
      (decide (j ∈ (d.unmarked id).unsettled id) && d.contains j)) := by
  have hkeeps : Keeps (·.dirty) ((d.unmarked id).rematch id).1 (d.restyle id).1 := by
    rw [restyle_of_contains hc]
    refine (keeps_modify _ id ?_).modify id ?_
    all_goals exact fun _ => rfl
  rw [hkeeps.isDirty, isDirty_rematch, isDirty_unmarked, (keeps_unmarked d id).contains]

/-- Restyling a node takes no mark away from any other. -/
theorem isDirty_of_restyle {d : Document} {id j : NodeId} (hj : j ≠ id)
    (h : (d.restyle id).1.isDirty j = false) : d.isDirty j = false := by
  cases hc : d.contains id with
  | false => rwa [restyle_of_not_contains hc] at h
  | true =>
    rw [isDirty_restyle hc, Bool.or_eq_false_iff] at h
    simpa [hj] using h.1

/-! ## Rules and sheets -/

namespace Keeps

variable {d e : Document}

theorem sheetStack (h : Keeps Node.apartFromStyling d e) (id : NodeId) :
    e.sheetStack id = d.sheetStack id :=
  ((h.map fun n => (n.parent, n.face)).sameSurroundings id).sheetStack

theorem activeRules (h : Keeps Node.apartFromStyling d e) (id : NodeId) :
    e.activeRules id = d.activeRules id :=
  ((h.map fun n => (n.parent, n.face)).sameSurroundings id).activeRules

theorem matchedRules (h : Keeps Node.apartFromStyling d e) (id : NodeId) :
    e.matchedRules id = d.matchedRules id :=
  ((h.map fun n => (n.parent, n.face)).sameSurroundings id).matchedRules
    fun _ _ s _ => h.cascadeMatch id s

theorem neededListeners (h : Keeps Node.apartFromStyling d e) (id : NodeId) :
    e.neededListeners id = d.neededListeners id :=
  ((h.map fun n => (n.parent, n.face)).sameSurroundings id).neededListeners
    fun _ _ s _ => h.cascadeMatch id s

end Keeps

/-! ## The restyled node and the others -/

/-- **A restyled node** holds the rules that match it, and their cascade over its old final
style. -/
theorem node?_restyle_self {d : Document} {id : NodeId} {node : Node}
    (hn : d.node? id = some node) :
    ∃ after, (d.restyle id).1.node? id = some after ∧
      after.matched = some (d.matchedRules id) ∧
      after.inlineStyle = node.inlineStyle ∧
      after.finalStyle =
        node.finalStyle.cascade (d.matchedRules id) node.inlineStyle (d.sheetStack id) := by
  have hc : d.contains id = true := contains_of_node? hn
  have hclean := keeps_unmarked d id
  have hmatch := hclean.trans (keeps_rematch (d.unmarked id) id)
  obtain ⟨mid, hmid, hview⟩ := hmatch.node?_eq_some hn
  have hinline : mid.inlineStyle = node.inlineStyle := (congrArg Node.inlineStyle hview :)
  have hfinal : mid.finalStyle = node.finalStyle := (congrArg Node.finalStyle hview :)
  rw [restyle_of_contains hc, (hclean.map Node.apartFromStyling).matchedRules id]
  refine ⟨{ mid with
    finalStyle := node.finalStyle.cascade (d.matchedRules id) node.inlineStyle (d.sheetStack id)
    matched := some (d.matchedRules id) }, ?_, rfl, hinline, rfl⟩
  rw [node?_modify, if_pos rfl, applyRules, node?_modify, if_pos rfl, hmid,
    (hmatch.map Node.apartFromStyling).sheetStack, ← hinline, ← hfinal]
  rfl

/-- **Every other node** keeps all but its dirty mark and its part in listening. -/
theorem node?_restyle_of_ne (d : Document) {id j : NodeId} (hj : j ≠ id) :
    ((d.restyle id).1.node? j).map Node.apartFromMatching =
      (d.node? j).map Node.apartFromMatching := by
  cases hc : d.contains id with
  | false => rw [restyle_of_not_contains hc]
  | true =>
    rw [restyle_of_contains hc, node?_modify, if_neg (Ne.symm hj), applyRules, node?_modify,
      if_neg (Ne.symm hj), ((keeps_unmarked d id).trans (keeps_rematch _ id)).nodes j]

/-! ## Listeners -/

/-- Restyling registers the same listeners as matching. -/
theorem listenersOf_restyle {d : Document} {id : NodeId} (hc : d.contains id = true)
    (holder : NodeId) : (d.restyle id).1.listenersOf holder =
      ((d.unmarked id).rematch id).1.listenersOf holder := by
  rw [restyle_of_contains hc]
  refine Keeps.listenersOf ((keeps_modify _ id ?_).modify id ?_) holder
  all_goals exact fun _ => rfl

/-- Restyling a node leaves the listeners of all other leaves alone. -/
theorem listenersExcept_restyle (d : Document) (id holder : NodeId) :
    (d.restyle id).1.listenersExcept holder id = d.listenersExcept holder id := by
  cases hc : d.contains id with
  | false => rw [restyle_of_not_contains hc]
  | true =>
    have hclean : Keeps Node.listeners d (d.unmarked id) := keeps_modify d id fun _ => rfl
    rw [listenersExcept, listenersOf_restyle hc, ← listenersExcept, listenersExcept_rematch,
      listenersExcept, hclean.listenersOf, ← listenersExcept]

end Document
end StyleCascade
