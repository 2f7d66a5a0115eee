import StyleCascade.Proofs.Deliveries
import StyleCascade.Proofs.ListenerCover

/-!
# Styles laid over a view

A view collects the styles that are laid over its own until it is told to go back to normal.
In a run of reports each of them stays accounted for (`Document.Accounted`): some listener for
the leaf gave it, and of the listeners for the leaf with the same subject at least one matches.
A report that turns the match of one listener is made where its selector is listened to, since
the leaf is covered; the group there then either has another member that matches, or puts the
leaf back (`Document.Accounted.hear`).  A report of the leaf itself reaches no group for it, and
can turn a state of the subject.
-/
namespace StyleCascade

/-- A report of changed states, with what it changes in the view of the node. -/
structure Report where
  node : NodeId
  states : StateMap
  view : Component → Component := id

/-- The keys of the styles that lie over a view's own after some updates, in the order in which
they came. -/
def overlaid (keys : List String) (updates : List ViewUpdate) : List String :=
  updates.foldl (fun keys update =>
    match update with
    | .apply key _ => keys ++ [key]
    | .restore => []) keys

/-- What lies over a view was laid there just now, or before without a return to normal. -/
theorem of_mem_overlaid {key : String} {keys : List String} {updates : List ViewUpdate}
    (h : key ∈ overlaid keys updates) :
    (∃ style, .apply key style ∈ updates) ∨ (key ∈ keys ∧ .restore ∉ updates) := by
  induction updates generalizing keys with
  | nil => exact Or.inr ⟨h, List.not_mem_nil⟩
  | cons update rest ih =>
    rcases ih h with ⟨style, hstyle⟩ | ⟨hkey, hrest⟩
    · exact Or.inl ⟨style, List.mem_cons_of_mem _ hstyle⟩
    · cases update with
      | apply k style =>
        rcases List.mem_append.mp hkey with hkey | hkey
        · exact Or.inr ⟨hkey, by simpa using hrest⟩
        · obtain rfl := List.mem_singleton.mp hkey
          exact Or.inl ⟨style, List.mem_cons_self⟩
      | restore => cases hkey

namespace Document

variable {d e : Document} {leaf : NodeId} {keys : List String}

/-- Takes in a report. -/
def hear (d : Document) (r : Report) : Document × List Delivery :=
  (d.changeView r.node r.view).changeStates r.node r.states

/-- Takes in reports one after the other; `keys` are those of the styles that lie over the view
of `leaf`. -/
def hearAll (leaf : NodeId) (d : Document) (keys : List String) :
    List Report → Document × List String
  | [] => (d, keys)
  | r :: rest => hearAll leaf (d.hear r).1 (overlaid keys (received leaf (d.hear r).2)) rest

/-- Every style laid over the view of `leaf` is that of a registered listener, and of the
listeners for the leaf with the same subject one matches now.  If `own` holds, as once the leaf
itself has reported, one that asks for a state of the subject will do. -/
def Accounted (d : Document) (leaf : NodeId) (own : Prop) (keys : List String) : Prop :=
  ∀ key ∈ keys, ∃ holder, ∃ l ∈ d.listenersFor holder leaf, l.pseudoKey = key ∧
    ∃ other, ∃ m ∈ d.listenersFor other leaf, m.group = l.group ∧
      (d.matchesLive m.selector leaf = true ∨ own ∧ m.selector.subject.hasState = true)

/-! ## One report -/

/-- The document in which a report has been taken down, and nothing handed over yet. -/
def noted (d : Document) (r : Report) : Document :=
  (d.changeView r.node r.view).recordStates r.node r.states

theorem reportsAt_noted (d : Document) (r : Report) : ReportsAt r.node d (d.noted r) where
  keeps := (keeps_changeView d r.node r.view).trans (keeps_recordStates _ r.node r.states)
  fits hne part := by
    rw [noted, fits_recordStates_of_ne hne, fits, fits, changeView, node?_modify, if_neg hne]

theorem keeps_hear (d : Document) (r : Report) : Keeps Node.apartFromViews d (d.hear r).1 :=
  (keeps_changeView d r.node r.view).trans (keeps_changeStates _ r.node r.states)

theorem listenersFor_hear (d : Document) (r : Report) (holder leaf : NodeId) :
    (d.hear r).1.listenersFor holder leaf = d.listenersFor holder leaf :=
  listenersFor_congr (((keeps_hear d r).map Node.listeners).listenersOf holder) leaf

theorem listenersOf_noted (d : Document) (r : Report) (holder : NodeId) :
    (d.noted r).listenersOf holder = d.listenersOf holder :=
  ((reportsAt_noted d r).keeps.map Node.listeners).listenersOf holder

theorem matchesLive_hear (d : Document) (r : Report) (s : Selector) (id : NodeId) :
    (d.hear r).1.matchesLive s id = (d.noted r).matchesLive s id :=
  matchesLive_changeStates _ r.node r.states s id

/-- A view that exists still does if the report does not take it away. -/
theorem hasView_noted {r : Report} (hview : d.hasView leaf = true)
    (hstays : r.node = leaf → ∀ c : Component, c.realized = true → (r.view c).realized = true) :
    (d.noted r).hasView leaf = true := by
  have hrecord : Keeps Node.component (d.changeView r.node r.view) (d.noted r) :=
    keeps_modify _ r.node fun _ => rfl
  rw [hrecord.hasView, hasView, changeView, node?_modify]
  split
  · rename_i hnode
    obtain ⟨n, hn, hcomponent⟩ := (Option.any_eq_true _ _).mp hview
    obtain ⟨c, hc, hrealized⟩ := (Option.any_eq_true _ _).mp hcomponent
    simp [hn, hc, hstays hnode c hrealized]
  · exact hview

theorem hasView_hear {r : Report} (hview : d.hasView leaf = true)
    (hstays : r.node = leaf → ∀ c : Component, c.realized = true → (r.view c).realized = true) :
    (d.hear r).1.hasView leaf = true :=
  (((keeps_apartFromPending_changeStates _ r.node r.states).map Node.component).hasView leaf).trans
    (hasView_noted hview hstays)

theorem received_hear {r : Report} (hview : (d.noted r).hasView leaf = true) :
    received leaf (d.hear r).2 = updatesFor leaf ((d.noted r).updatesFrom r.node) :=
  (received_changeStates _ r.node r.states).trans (if_pos hview)

/-- A report turns nothing on the subject of a listener unless it is made there and the subject
has a state. -/
theorem fits_noted {r : Report} {part : SimpleSelector}
    (hturn : ¬(r.node = leaf ∧ part.hasState = true)) :
    (d.noted r).fits leaf part = d.fits leaf part := by
  by_cases hnode : r.node = leaf
  · have hstateless : part.hasState = false := by simpa using fun hstate => hturn ⟨hnode, hstate⟩
    rw [fits_of_stateless _ _ hstateless, fits_of_stateless _ _ hstateless,
      (reportsAt_noted d r).fitsShape]
  · exact (reportsAt_noted d r).fits hnode part

/-- **What one report leaves over a view is accounted for.** -/
theorem Accounted.hear {own : Prop} {r : Report} (hd : d.Accounted leaf own keys)
    (hcovered : d.Covered leaf) (hview : (d.noted r).hasView leaf = true)
    (hown : r.node = leaf → own) :
    (d.hear r).1.Accounted leaf own (overlaid keys (received leaf (d.hear r).2)) := by
  intro key hkey
  rw [received_hear hview] at hkey
  simp only [listenersFor_hear, matchesLive_hear]
  have hnoted : ∀ holder, (d.noted r).listenersFor holder leaf = d.listenersFor holder leaf :=
    fun holder => listenersFor_congr (listenersOf_noted d r holder) leaf
  rcases of_mem_overlaid hkey with ⟨style, hstyle⟩ | ⟨hkey, hkept⟩
  · -- Laid there just now: its own listener matches.
    obtain ⟨l, hl, hpseudo, hmatch⟩ :=
      exists_of_apply_mem_updatesFrom (mem_updatesFor_iff.mp hstyle)
    rw [hnoted] at hl
    exact ⟨r.node, l, hl, hpseudo, r.node, l, hl, rfl, Or.inl hmatch⟩
  · obtain ⟨holder, l, hl, hpseudo, other, m, hm, hgroup, hmatch | hstate⟩ := hd key hkey
    case inr => exact ⟨holder, l, hl, hpseudo, other, m, hm, hgroup, Or.inr hstate⟩
    by_cases hstill : (d.noted r).matchesLive m.selector leaf = true
    · exact ⟨holder, l, hl, hpseudo, other, m, hm, hgroup, Or.inl hstill⟩
    by_cases hturn : r.node = leaf ∧ m.selector.subject.hasState = true
    · exact ⟨holder, l, hl, hpseudo, other, m, hm, hgroup, Or.inr ⟨hown hturn.1, hturn.2⟩⟩
    -- The report turned the match of `m` off; the group that heard it has another member.
    obtain ⟨twin, htwin, htwinGroup⟩ := hcovered.exists_of_matchesLive_ne (reportsAt_noted d r) hm
      (fits_noted hturn) (fun heq => hstill (heq.trans hmatch))
    rw [← hnoted] at htwin
    have hkept : (leaf, .restore) ∉ (d.noted r).updatesFrom r.node :=
      fun hrestore => hkept (mem_updatesFor_iff.mpr hrestore)
    obtain ⟨x, hx, hxgroup, hxmatch⟩ := exists_matchesLive_of_restore_notMem hkept htwin
    rw [hnoted] at hx
    exact ⟨holder, l, hl, hpseudo, r.node, x, hx, hxgroup.trans (htwinGroup.trans hgroup),
      Or.inl hxmatch⟩

/-! ## A run of reports -/

theorem Covered.hear (hd : d.Covered leaf) (r : Report) : (d.hear r).1.Covered leaf :=
  hd.congr (((keeps_hear d r).map fun n => (n.parent, n.face)).sameSurroundings leaf)
    fun holder => listenersFor_hear d r holder leaf

theorem Accounted.hearAll {own : Prop} {reports : List Report} (hd : d.Accounted leaf own keys)
    (hcovered : d.Covered leaf) (hview : d.hasView leaf = true)
    (hstays : ∀ r ∈ reports, r.node = leaf →
      ∀ c : Component, c.realized = true → (r.view c).realized = true)
    (hown : ∀ r ∈ reports, r.node = leaf → own) :
    (d.hearAll leaf keys reports).1.Accounted leaf own (d.hearAll leaf keys reports).2 := by
  induction reports generalizing d keys with
  | nil => exact hd
  | cons r rest ih =>
    have hr := hstays r List.mem_cons_self
    exact ih (hd.hear hcovered (hasView_noted hview hr) (hown r List.mem_cons_self))
      (hcovered.hear r) (hasView_hear hview hr)
      (fun q hq => hstays q (List.mem_cons_of_mem _ hq))
      fun q hq => hown q (List.mem_cons_of_mem _ hq)

/-- **No style lies over a view without account.**  After a run of reports that starts when the
marked nodes have been restyled, every style laid over the view of a leaf since it last went back
to normal is that of a registered listener; and of the listeners for the leaf with the same
subject, wherever they are held, one matches now, unless the leaf itself has reported and one of
them asks for a state of the subject.  The view has to stay in the meantime. -/
theorem exists_listener_of_mem_hearAll (hd : d.Reachable)
    (hview : d.restyleDirty.1.hasView leaf = true) {reports : List Report}
    (hstays : ∀ r ∈ reports, r.node = leaf →
      ∀ c : Component, c.realized = true → (r.view c).realized = true)
    {key : String} (hkey : key ∈ (d.restyleDirty.1.hearAll leaf [] reports).2) :
    ∃ holder, ∃ l ∈ (d.restyleDirty.1.hearAll leaf [] reports).1.listenersFor holder leaf,
      l.pseudoKey = key ∧
      ∃ other, ∃ m ∈ (d.restyleDirty.1.hearAll leaf [] reports).1.listenersFor other leaf,
        m.group = l.group ∧
        ((d.restyleDirty.1.hearAll leaf [] reports).1.matchesLive m.selector leaf = true ∨
          (∃ r ∈ reports, r.node = leaf) ∧ m.selector.subject.hasState = true) := by
  have hc : d.contains leaf = true := by
    rw [← (keeps_restyleDirty d).contains]
    obtain ⟨n, hn, -⟩ := (Option.any_eq_true _ _).mp hview
    rw [contains, hn]
    rfl
  have hstart : d.restyleDirty.1.Accounted leaf (∃ r ∈ reports, r.node = leaf) [] :=
    fun key hkey => by cases hkey
  exact hstart.hearAll (covered_restyleDirty hd hc) hview hstays
    (fun r hr hnode => ⟨r, hr, hnode⟩) key hkey

/-! ## Styles that outlast their match -/

/-- Only nodes of the document hold listeners. -/
theorem mem_handles_of_mem_listenersFor {holder : NodeId} {l : Listener}
    (h : l ∈ d.listenersFor holder leaf) : holder ∈ d.handles :=
  mem_handles_of_contains (contains_of_mem_listenersOf (List.mem_filter.mp h).1)

/-- The selector `button:hover label`. -/
def hoverButtonLabel : Selector where
  subject := ⟨.element, "label", none⟩
  links := [⟨.descendant, ⟨.element, "button", some "hover"⟩⟩]

/-- The selector `button:active label:hover`. -/
def activeButtonHoverLabel : Selector where
  subject := ⟨.element, "label", some "hover"⟩
  links := [⟨.descendant, ⟨.element, "button", some "active"⟩⟩]

/-- A label with a view, in a button, under one rule for each selector. -/
def overlaidSample (selectors : List Selector) (view : Component) : Document :=
  Document.new.performAll [.addSheet (redSheet selectors), .create "button", .append .root ⟨1⟩,
    .create "label", .append ⟨1⟩ ⟨2⟩, .bind ⟨2⟩ view]

/-- The button reports that it is active and hovered, and then that it is hovered only. -/
def releasedRun : Document × List String :=
  (overlaidSample [activeButtonLabel, hoverButtonLabel] {}).restyleDirty.1.hearAll ⟨2⟩ []
    [⟨⟨1⟩, [("active", true), ("hover", true)], id⟩, ⟨⟨1⟩, [("active", false)], id⟩]

/-- The button reports that it is active, and then the label, which was hovered, that it is not. -/
def leftRun : Document × List String :=
  (overlaidSample [activeButtonHoverLabel]
      { states := [("hover", true)] }).restyleDirty.1.hearAll ⟨2⟩ []
    [⟨⟨1⟩, [("active", true)], id⟩, ⟨⟨2⟩, [("hover", false)], id⟩]

/-- The style for active buttons still lies over the label, on account of the one for hovered
buttons. -/
theorem exists_listener_of_mem_hearAll_releasedRun :
    "button:active label" ∈ releasedRun.2 ∧
      ∃ holder, ∃ l ∈ releasedRun.1.listenersFor holder ⟨2⟩, l.pseudoKey = "button:active label" ∧
        ∃ other, ∃ m ∈ releasedRun.1.listenersFor other ⟨2⟩, m.group = l.group ∧
          (releasedRun.1.matchesLive m.selector ⟨2⟩ = true ∨
            (∃ r ∈ [(⟨⟨1⟩, [("active", true), ("hover", true)], id⟩ : Report),
              ⟨⟨1⟩, [("active", false)], id⟩], r.node = ⟨2⟩) ∧
              m.selector.subject.hasState = true) := by
  have hkey : "button:active label" ∈ releasedRun.2 := by decide +kernel
  refine ⟨hkey, exists_listener_of_mem_hearAll (reachable_performAll {} _) (by decide +kernel)
    (fun r hr _ c hc => ?_) hkey⟩
  rcases List.mem_pair.mp hr with rfl | rfl <;> exact hc

/-- No listener for the leaf that gives the style with this key matches. -/
def NoneMatches (d : Document) (leaf : NodeId) (key : String) : Prop :=
  ∀ holder, ∀ l ∈ d.listenersFor holder leaf, l.pseudoKey = key →
    d.matchesLive l.selector leaf = false

theorem noneMatches_of_handles {key : String}
    (h : ∀ holder ∈ d.handles, ∀ l ∈ d.listenersFor holder leaf, l.pseudoKey = key →
      d.matchesLive l.selector leaf = false) : d.NoneMatches leaf key :=
  fun holder l hl => h holder (mem_handles_of_mem_listenersFor hl) l hl

/-- A style can outlast the match of its listeners: when another member of the group matches,
and when the leaf itself reports that a state of the subject is off. -/
theorem noneMatches_of_mem_hearAll :
    ((overlaidSample [activeButtonLabel, hoverButtonLabel] {}).Reachable ∧
        releasedRun.1.hasView ⟨2⟩ = true ∧ "button:active label" ∈ releasedRun.2 ∧
        releasedRun.1.NoneMatches ⟨2⟩ "button:active label") ∧
      (overlaidSample [activeButtonHoverLabel] { states := [("hover", true)] }).Reachable ∧
        leftRun.1.hasView ⟨2⟩ = true ∧ "button:active label:hover" ∈ leftRun.2 ∧
        leftRun.1.NoneMatches ⟨2⟩ "button:active label:hover" := by
  refine ⟨⟨reachable_performAll {} _, by decide +kernel, by decide +kernel, ?_⟩,
    reachable_performAll {} _, by decide +kernel, by decide +kernel, ?_⟩
  · exact noneMatches_of_handles (by decide +kernel)
  · exact noneMatches_of_handles (by decide +kernel)

end Document
end StyleCascade
