import StyleCascade.Proofs.Reachability

/-!
# The meaning of selectors

A selector matches a node if its parts can be given nodes, the node itself for the subject,
such that every part fits its node and the node of every link stands to the one before it
as the combinator says: as its parent, or as a strict ancestor (`Document.Meets`).  The
search along the list of ancestors finds such nodes whenever there are any, whatever the
links (`IsForest.allFit_iff`), so matching by shape, matching with states and matching in
the cascade are what this says (`Document.matches_iff_meets`).
-/
namespace StyleCascade

/-! ## What fits a node -/

namespace Node

/-- The node goes by the name that a simple selector asks for. -/
def GoesBy (n : Node) (part : SimpleSelector) : Prop :=
  match part.kind with
  | .id => n.cssId = some part.name
  | .className => part.name ∈ n.classes
  | .element => n.tag = part.name

/-- A state is on: it has been reported to be; or no report names it, and a view that exists
says so; or there is neither a report of any state nor such a view. -/
inductive StateOn (n : Node) (state : String) : Prop
  | reported (h : Keyed.lookup Prod.fst state n.reported = some (state, true))
  | viewed {c : Component} (hreported : Keyed.lookup Prod.fst state n.reported = none)
      (hc : n.component = some c) (hrealized : c.realized = true)
      (h : Keyed.lookup Prod.fst state c.states = some (state, true))
  | unknown (hreported : n.reported = [])
      (hview : ∀ c, n.component = some c → c.realized = false)

theorem fitsShape_iff (n : Node) (part : SimpleSelector) :
    n.fitsShape part = true ↔ n.GoesBy part := by
  rw [fitsShape, GoesBy]
  cases part.kind <;> simp

theorem allowsState_of_stateOn {n : Node} {state : String} (h : n.StateOn state) :
    n.allowsState state = true := by
  rw [allowsState]
  cases h with
  | reported h => rw [h]
  | viewed hreported hc hrealized h => simp [hreported, hc, hrealized, h]
  | unknown hreported hview =>
    have hnone : Keyed.lookup Prod.fst state n.reported = none := by
      rw [hreported]
      rfl
    rw [hnone]
    cases hc : n.component with
    | none => simp [hreported]
    | some c => simp [hview c hc, hreported]

theorem stateOn_of_allowsState {n : Node} {state : String} (h : n.allowsState state = true) :
    n.StateOn state := by
  rw [allowsState] at h
  split at h
  · rename_i name value hreport
    obtain ⟨-, rfl⟩ := Keyed.mem_of_lookup Prod.fst hreport
    exact .reported (h ▸ hreport)
  · rename_i hreport
    split at h
    · rename_i c hc
      split at h
      · rename_i hrealized
        cases hlookup : Keyed.lookup Prod.fst state c.states with
        | none =>
          rw [hlookup] at h
          cases h
        | some entry =>
          obtain ⟨name, value⟩ := entry
          obtain ⟨-, rfl⟩ := Keyed.mem_of_lookup Prod.fst hlookup
          rw [hlookup] at h
          obtain rfl : value = true := h
          exact .viewed hreport hc hrealized hlookup
      · rename_i hrealized
        refine .unknown (List.isEmpty_iff.mp h) fun c' hc' => ?_
        obtain rfl := Option.some.inj (hc.symm.trans hc')
        simpa using hrealized
    · rename_i hc
      refine .unknown (List.isEmpty_iff.mp h) fun c hc' => ?_
      rw [hc] at hc'
      cases hc'

theorem fits_iff (n : Node) (part : SimpleSelector) :
    n.fits part = true ↔ n.GoesBy part ∧ ∀ state, part.state = some state → n.StateOn state := by
  rw [fits, Bool.and_eq_true, fitsShape_iff]
  refine and_congr_right fun _ => ?_
  rw [Option.all_eq_true]
  constructor
  · exact fun h state hstate => stateOn_of_allowsState (h state hstate)
  · exact fun h state hstate => allowsState_of_stateOn (h state hstate)

end Node

/-! ## What a selector asks for -/

namespace Document

/-- A node has the name that a simple selector asks for. -/
def HasName (d : Document) (id : NodeId) (part : SimpleSelector) : Prop :=
  ∃ n, d.node? id = some n ∧ n.GoesBy part

/-- A node has the name and the state that a simple selector asks for. -/
def HasNameAndState (d : Document) (id : NodeId) (part : SimpleSelector) : Prop :=
  ∃ n, d.node? id = some n ∧ n.GoesBy part ∧
    ∀ state, part.state = some state → n.StateOn state

/-- Where the left one of two nodes stands whose parts a combinator joins. -/
def Joined (d : Document) : Combinator → NodeId → NodeId → Prop
  | .child, left, right => d.IsParent left right
  | .descendant, left, right => d.IsAncestor left right

/-- Nodes for the links of a selector, one for each, nearest first: every part fits its node,
and the combinators join each node to the one before it, the first one to `below`. -/
inductive Chain (d : Document) (Fits : NodeId → SimpleSelector → Prop) :
    NodeId → List SelectorLink → List NodeId → Prop
  | nil (below : NodeId) : Chain d Fits below [] []
  | cons {below id : NodeId} {link : SelectorLink} {links : List SelectorLink}
      {nodes : List NodeId} (hjoin : d.Joined link.combinator id below)
      (hfit : Fits id link.part) (hrest : Chain d Fits id links nodes) :
      Chain d Fits below (link :: links) (id :: nodes)

/-- What a selector asks of its subject: it fits, and there are nodes for the links. -/
def Meets (d : Document) (Fits : NodeId → SimpleSelector → Prop) (s : Selector) (id : NodeId) :
    Prop :=
  Fits id s.subject ∧ ∃ nodes, d.Chain Fits id s.links nodes

variable {d : Document}

theorem fitsShape_iff (id : NodeId) (part : SimpleSelector) :
    d.fitsShape id part = true ↔ d.HasName id part := by
  rw [fitsShape_eq_true_iff]
  exact exists_congr fun n => and_congr_right fun _ => n.fitsShape_iff part

theorem fits_iff (id : NodeId) (part : SimpleSelector) :
    d.fits id part = true ↔ d.HasNameAndState id part := by
  rw [fits_eq_true_iff]
  exact exists_congr fun n => and_congr_right fun _ => n.fits_iff part

/-! ## The search finds the nodes -/

namespace IsForest

variable (hd : d.IsForest)
include hd

/-- What stands behind an ancestor in the list are its own ancestors. -/
theorem ancestors_of_append {id a : NodeId} {nearer further : List NodeId}
    (h : d.ancestors id = nearer ++ a :: further) : further = d.ancestors a := by
  induction nearer generalizing id with
  | nil =>
    cases hp : d.parent? id with
    | none =>
      rw [ancestors_of_parent?_eq_none hp] at h
      cases h
    | some parent =>
      rw [hd.ancestors_eq hp] at h
      obtain ⟨rfl, rfl⟩ := List.cons.inj h
      rfl
  | cons b nearer ih =>
    cases hp : d.parent? id with
    | none =>
      rw [ancestors_of_parent?_eq_none hp] at h
      cases h
    | some parent =>
      rw [hd.ancestors_eq hp] at h
      exact ih (List.cons.inj h).2

/-- **The search along the ancestors** succeeds exactly if there are nodes for the links. -/
theorem allFit_iff {fits : NodeId → SimpleSelector → Bool}
    {Fits : NodeId → SimpleSelector → Prop}
    (hfits : ∀ id part, fits id part = true ↔ Fits id part) (links : List SelectorLink)
    (id : NodeId) :
    SelectorLink.allFit fits links (d.ancestors id) = true ↔
      ∃ nodes, d.Chain Fits id links nodes := by
  -- By induction on the links: each moves the search up to the node it has been given.
  induction links generalizing id with
  | nil => exact ⟨fun _ => ⟨[], .nil id⟩, fun _ => rfl⟩
  | cons link links ih =>
    obtain ⟨combinator, part⟩ := link
    cases combinator with
    | child =>
      rw [SelectorLink.allFit_child_iff]
      constructor
      · rintro ⟨a, further, heq, hfit, hrest⟩
        have hnearest : d.ancestors id = [] ++ a :: further := heq
        obtain rfl := hd.ancestors_of_append hnearest
        obtain ⟨nodes, hnodes⟩ := (ih a).mp hrest
        have hparent : d.parent? id = some a := by
          cases hp : d.parent? id with
          | none =>
            rw [ancestors_of_parent?_eq_none hp] at heq
            cases heq
          | some parent =>
            rw [hd.ancestors_eq hp] at heq
            exact congrArg some (List.cons.inj heq).1
        exact ⟨a :: nodes, .cons hparent ((hfits a part).mp hfit) hnodes⟩
      · rintro ⟨_, _ | ⟨hjoin, hfit, hrest⟩⟩
        rename_i a nodes
        exact ⟨a, d.ancestors a, hd.ancestors_eq hjoin, (hfits a part).mpr hfit,
          (ih a).mpr ⟨nodes, hrest⟩⟩
    | descendant =>
      rw [SelectorLink.allFit_descendant_iff]
      constructor
      · rintro ⟨nearer, a, further, heq, hfit, hrest⟩
        obtain rfl := hd.ancestors_of_append heq
        obtain ⟨nodes, hnodes⟩ := (ih a).mp hrest
        have habove : d.IsAncestor a id := hd.mem_ancestors_iff.mp (by rw [heq]; simp)
        exact ⟨a :: nodes, .cons habove ((hfits a part).mp hfit) hnodes⟩
      · rintro ⟨_, _ | ⟨hjoin, hfit, hrest⟩⟩
        rename_i a nodes
        obtain ⟨nearer, further, heq⟩ := List.append_of_mem (hd.mem_ancestors_iff.mpr hjoin)
        obtain rfl := hd.ancestors_of_append heq
        exact ⟨nearer, a, d.ancestors a, heq, (hfits a part).mpr hfit, (ih a).mpr ⟨nodes, hrest⟩⟩

theorem matchesShape_iff (s : Selector) (id : NodeId) :
    d.matchesShape s id = true ↔ d.Meets d.HasName s id := by
  rw [matchesShape, Bool.and_eq_true, fitsShape_iff, hd.allFit_iff fitsShape_iff]
  rfl

theorem matchesLive_iff (s : Selector) (id : NodeId) :
    d.matchesLive s id = true ↔ d.Meets d.HasNameAndState s id := by
  rw [matchesLive, Bool.and_eq_true, fits_iff, hd.allFit_iff fits_iff]
  rfl

end IsForest

/-! ## Matching in the cascade -/

/-- Where no part above the subject has a state, the cascade matches as the states are. -/
theorem cascadeMatch_of_not_dependent {s : Selector} (h : s.isStateDependent = false)
    (id : NodeId) : d.cascadeMatch s id = if d.matchesLive s id then .plain else .none := by
  rw [cascadeMatch, matchesLive, h]
  cases d.fits id s.subject <;> simp

/-- Otherwise the subject has to fit with its state, and all by shape. -/
theorem cascadeMatch_of_dependent {s : Selector} (h : s.isStateDependent = true) (id : NodeId) :
    d.cascadeMatch s id =
      if d.fits id s.subject && d.matchesShape s id then .pseudo else .none := by
  rw [cascadeMatch, matchesShape, h]
  cases hfits : d.fits id s.subject with
  | false => simp
  | true => simp [fitsShape_of_fits hfits]

/-- **Matching is what selectors mean.**  By shape and with states, a selector matches exactly
if there are nodes for its parts.  In the cascade it matches as the states are if no part above
the subject has one; otherwise the subject has to fit with its state, and all by shape. -/
theorem matches_iff_meets (hd : d.Reachable) (s : Selector) (id : NodeId) :
    (d.matchesShape s id = true ↔ d.Meets d.HasName s id) ∧
      (d.matchesLive s id = true ↔ d.Meets d.HasNameAndState s id) ∧
      ((∀ link ∈ s.links, link.part.state = none) →
        (d.cascadeMatch s id = .plain ↔ d.matchesLive s id = true) ∧
          d.cascadeMatch s id ≠ .pseudo) ∧
      ((∃ link ∈ s.links, link.part.state ≠ none) →
        (d.cascadeMatch s id = .pseudo ↔
          d.HasNameAndState id s.subject ∧ d.matchesShape s id = true) ∧
          d.cascadeMatch s id ≠ .plain) := by
  refine ⟨hd.isForest.matchesShape_iff s id, hd.isForest.matchesLive_iff s id,
    fun hstateless => ?_, fun ⟨link, hlink, hstate⟩ => ?_⟩
  · have hdep : s.isStateDependent = false := by
      refine List.any_eq_false.mpr fun link hlink => ?_
      simp [SimpleSelector.hasState, hstateless link hlink]
    rw [cascadeMatch_of_not_dependent hdep]
    cases d.matchesLive s id <;> simp
  · have hdep : s.isStateDependent = true := by
      refine List.any_eq_true.mpr ⟨link, hlink, ?_⟩
      exact Option.isSome_iff_ne_none.mpr hstate
    rw [cascadeMatch_of_dependent hdep, ← fits_iff, ← Bool.and_eq_true]
    cases d.fits id s.subject && d.matchesShape s id <;> simp

/-- A label in a list that has reported not to be active. -/
def inactiveSample : Document :=
  Document.new.perform (.create "list")
    |>.perform (.append .root ⟨1⟩)
    |>.perform (.create "label")
    |>.perform (.append ⟨1⟩ ⟨2⟩)
    |>.perform (.recordStates ⟨1⟩ [("active", false)])

/-- The selector `list:active > label`. -/
def labelOfActive : Selector where
  subject := ⟨.element, "label", none⟩
  links := [⟨.child, ⟨.element, "list", some "active"⟩⟩]

/-- The label of an inactive list is one by shape, and not with states. -/
theorem matches_iff_meets_inactiveSample :
    inactiveSample.Reachable ∧
      inactiveSample.Meets inactiveSample.HasName labelOfActive ⟨2⟩ ∧
      ¬inactiveSample.Meets inactiveSample.HasNameAndState labelOfActive ⟨2⟩ ∧
      inactiveSample.cascadeMatch labelOfActive ⟨2⟩ = .pseudo := by
  have hreach : inactiveSample.Reachable :=
    .perform (.perform (.perform (.perform (.perform (.new {}) trivial) trivial) trivial) trivial)
      trivial
  obtain ⟨hshape, hlive, -, hcascade⟩ := matches_iff_meets hreach labelOfActive ⟨2⟩
  refine ⟨hreach, hshape.mp (by decide), fun h => ?_, ?_⟩
  · exact absurd (hlive.mpr h) (by decide)
  · refine (hcascade ⟨_, List.mem_singleton.mpr rfl, by decide⟩).1.mpr ⟨?_, by decide⟩
    exact (fits_iff _ _).mp (by decide)

end Document
end StyleCascade
