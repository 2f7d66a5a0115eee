import Mathlib.Data.List.Basic
import StyleCascade.Proofs.Frames

/-!
# What matching reads

Which rules match a node is read off the node, its strict ancestors and the sheets that
apply to it.  Two documents in which these look the same give the node the same matched
rules and ask for the same listeners (`SameSurroundings.matchedRules`,
`SameSurroundings.neededListeners`).  States count as well, unless no rule asks for a
state of its subject: then names alone decide (`SameSurroundings.cascadeMatch_of_stateless`).
-/
namespace StyleCascade

/-! ## Links along a list of ancestors -/

theorem anyAbove_eq_true_iff {test : NodeId → List NodeId → Bool} {above : List NodeId} :
    anyAbove test above = true ↔
      ∃ nearer id further, above = nearer ++ id :: further ∧ test id further = true := by
  induction above with
  | nil => simp [anyAbove]
  | cons a rest ih =>
    rw [anyAbove, Bool.or_eq_true, ih]
    constructor
    · rintro (h | ⟨nearer, id, further, rfl, h⟩)
      · exact ⟨[], a, rest, rfl, h⟩
      · exact ⟨a :: nearer, id, further, rfl, h⟩
    · rintro ⟨nearer, id, further, heq, h⟩
      cases nearer with
      | nil =>
        obtain ⟨rfl, rfl⟩ := List.cons.inj heq
        exact Or.inl h
      | cons b nearer =>
        obtain ⟨-, rfl⟩ := List.cons.inj heq
        exact Or.inr ⟨nearer, id, further, rfl, h⟩

namespace SelectorLink

variable {fits fits' : NodeId → SimpleSelector → Bool}

theorem allFit_child_iff {part : SimpleSelector} {links : List SelectorLink}
    {above : List NodeId} :
    allFit fits (⟨.child, part⟩ :: links) above = true ↔
      ∃ id further, above = id :: further ∧ fits id part = true ∧
        allFit fits links further = true := by
  cases above with
  | nil => simp [allFit]
  | cons id further =>
    rw [allFit, Bool.and_eq_true]
    constructor
    · rintro ⟨hfit, hrest⟩
      exact ⟨id, further, rfl, hfit, hrest⟩
    · rintro ⟨id', further', heq, hfit, hrest⟩
      obtain ⟨rfl, rfl⟩ := List.cons.inj heq
      exact ⟨hfit, hrest⟩

theorem allFit_descendant_iff {part : SimpleSelector} {links : List SelectorLink}
    {above : List NodeId} :
    allFit fits (⟨.descendant, part⟩ :: links) above = true ↔
      ∃ nearer id further, above = nearer ++ id :: further ∧ fits id part = true ∧
        allFit fits links further = true := by
  rw [allFit, anyAbove_eq_true_iff]
  simp only [Bool.and_eq_true]

/-- Whatever fits ancestor by ancestor in one way, and so does in another, fits as a
whole in the other way. -/
theorem allFit_mono {links : List SelectorLink} {above : List NodeId}
    (h : ∀ id ∈ above, ∀ link ∈ links, fits id link.part = true → fits' id link.part = true)
    (hfit : allFit fits links above = true) : allFit fits' links above = true := by
  induction links generalizing above with
  | nil => rfl
  | cons link links ih =>
    obtain ⟨combinator, part⟩ := link
    cases combinator with
    | child =>
      obtain ⟨id, further, rfl, hid, hrest⟩ := allFit_child_iff.mp hfit
      refine allFit_child_iff.mpr ⟨id, further, rfl, ?_, ih (fun a ha link hl => ?_) hrest⟩
      · exact h id List.mem_cons_self _ List.mem_cons_self hid
      · exact h a (List.mem_cons_of_mem _ ha) link (List.mem_cons_of_mem _ hl)
    | descendant =>
      obtain ⟨nearer, id, further, rfl, hid, hrest⟩ := allFit_descendant_iff.mp hfit
      refine allFit_descendant_iff.mpr
        ⟨nearer, id, further, rfl, ?_, ih (fun a ha link hl => ?_) hrest⟩
      · exact h id (by simp) _ List.mem_cons_self hid
      · exact h a (by simp [ha]) link (List.mem_cons_of_mem _ hl)

theorem allFit_congr {links : List SelectorLink} {above : List NodeId}
    (h : ∀ id ∈ above, ∀ link ∈ links, fits id link.part = fits' id link.part) :
    allFit fits links above = allFit fits' links above := by
  rw [Bool.eq_iff_iff]
  constructor
  · exact allFit_mono fun id hid link hl hfit => (h id hid link hl).symm.trans hfit
  · exact allFit_mono fun id hid link hl hfit => (h id hid link hl).trans hfit

end SelectorLink

/-! ## Surroundings -/

/-- The node reduced to its names and its own sheet. -/
def Node.face (n : Node) : Node :=
  { tag := n.tag, cssId := n.cssId, classes := n.classes, sheet := n.sheet }

namespace Document

/-- `id` has the same strict ancestors in `d` and `e`, it and they have the same names and
sheets, and the sheets and environment of the documents are the same. -/
structure SameSurroundings (d e : Document) (id : NodeId) : Prop where
  sheets : e.sheets = d.sheets
  media : e.media = d.media
  ancestors : e.ancestors id = d.ancestors id
  faces : ∀ a ∈ id :: d.ancestors id, (e.node? a).map Node.face = (d.node? a).map Node.face

theorem above_congr {d e : Document} (h : ∀ id, e.parent? id = d.parent? id) (steps : Nat)
    (id : NodeId) : e.above steps id = d.above steps id := by
  induction steps generalizing id with
  | zero => rfl
  | succ steps ih =>
    rw [above, above, h]
    cases d.parent? id with
    | none => rfl
    | some parent => exact congrArg (parent :: ·) (ih parent)

namespace Keeps

variable {d e : Document}

theorem parent? (h : Keeps (·.parent) d e) (id : NodeId) : e.parent? id = d.parent? id :=
  bind_eq_of_map (h.nodes id)

theorem ancestors (h : Keeps (·.parent) d e) (id : NodeId) :
    e.ancestors id = d.ancestors id := by
  rw [Document.ancestors, Document.ancestors, h.size, above_congr h.parent?]

theorem sameSurroundings (h : Keeps (fun n => (n.parent, n.face)) d e) (id : NodeId) :
    SameSurroundings d e id where
  sheets := h.sheets
  media := h.media
  ancestors := (h.map Prod.fst).ancestors id
  faces a _ := (h.map Prod.snd).nodes a

/-- A test of nodes whose outcome is kept has the same outcome on a node that may exist. -/
theorem any {test : Node → Bool} (h : Keeps test d e) (id : NodeId) :
    (e.node? id).any test = (d.node? id).any test := by
  have hid := congrArg (Option.any (fun b => b)) (h.nodes id)
  rwa [Option.any_map, Option.any_map] at hid

end Keeps

namespace SameSurroundings

variable {d e f : Document} {id : NodeId}

theorem trans (h : SameSurroundings d e id) (h' : SameSurroundings e f id) :
    SameSurroundings d f id where
  sheets := h'.sheets.trans h.sheets
  media := h'.media.trans h.media
  ancestors := h'.ancestors.trans h.ancestors
  faces a ha := (h'.faces a (by rwa [h.ancestors])).trans (h.faces a ha)

theorem nearestSheet? (h : SameSurroundings d e id) :
    e.nearestSheet? id = d.nearestSheet? id := by
  have hone : ∀ a ∈ id :: d.ancestors id,
      (e.node? a).bind (·.sheet) = (d.node? a).bind (·.sheet) := by
    intro a ha
    have hface := congrArg (Option.bind · Node.sheet) (h.faces a ha)
    simp only [Option.bind_map] at hface
    exact hface
  rw [Document.nearestSheet?, Document.nearestSheet?, h.ancestors]
  generalize id :: d.ancestors id = chain at hone
  induction chain with
  | nil => rfl
  | cons a rest ih =>
    rw [List.findSome?_cons, List.findSome?_cons, hone a List.mem_cons_self,
      ih fun b hb => hone b (List.mem_cons_of_mem _ hb)]

theorem sheetStack (h : SameSurroundings d e id) : e.sheetStack id = d.sheetStack id := by
  rw [Document.sheetStack, Document.sheetStack, h.sheets, h.nearestSheet?]

theorem activeRules (h : SameSurroundings d e id) : e.activeRules id = d.activeRules id := by
  rw [Document.activeRules, Document.activeRules, h.sheetStack, h.media]

theorem fitsShape (h : SameSurroundings d e id) {a : NodeId} (ha : a ∈ id :: d.ancestors id)
    (part : SimpleSelector) : e.fitsShape a part = d.fitsShape a part := by
  have hface := congrArg (Option.any (·.fitsShape part)) (h.faces a ha)
  simp only [Option.any_map] at hface
  exact hface

theorem matchesShape (h : SameSurroundings d e id) (s : Selector) :
    e.matchesShape s id = d.matchesShape s id := by
  rw [Document.matchesShape, Document.matchesShape, h.ancestors,
    h.fitsShape List.mem_cons_self]
  refine congrArg (_ && ·) (SelectorLink.allFit_congr fun a ha link _ => ?_)
  exact h.fitsShape (List.mem_cons_of_mem _ ha) link.part

/-! ### Matching -/

/-- Documents that agree on what fits give the same match. -/
theorem cascadeMatch (h : SameSurroundings d e id)
    (hfits : ∀ a part, e.fits a part = d.fits a part) (s : Selector) :
    e.cascadeMatch s id = d.cascadeMatch s id := by
  have hshape : SelectorLink.allFit e.fitsShape s.links (d.ancestors id) =
      SelectorLink.allFit d.fitsShape s.links (d.ancestors id) :=
    SelectorLink.allFit_congr fun a ha link _ =>
      h.fitsShape (List.mem_cons_of_mem _ ha) link.part
  have hlive : SelectorLink.allFit e.fits s.links (d.ancestors id) =
      SelectorLink.allFit d.fits s.links (d.ancestors id) :=
    SelectorLink.allFit_congr fun a _ link _ => hfits a link.part
  rw [Document.cascadeMatch, Document.cascadeMatch, h.ancestors, hfits, hshape, hlive]

end SameSurroundings

theorem fitsShape_eq_true_iff {d : Document} {id : NodeId} {part : SimpleSelector} :
    d.fitsShape id part = true ↔ ∃ n, d.node? id = some n ∧ n.fitsShape part = true :=
  Option.any_eq_true _ _

theorem fits_eq_true_iff {d : Document} {id : NodeId} {part : SimpleSelector} :
    d.fits id part = true ↔ ∃ n, d.node? id = some n ∧ n.fits part = true :=
  Option.any_eq_true _ _

/-- What fits with its state fits by shape. -/
theorem fitsShape_of_fits {d : Document} {id : NodeId} {part : SimpleSelector}
    (h : d.fits id part = true) : d.fitsShape id part = true := by
  obtain ⟨n, hn, hfits⟩ := fits_eq_true_iff.mp h
  rw [Node.fits, Bool.and_eq_true] at hfits
  exact fitsShape_eq_true_iff.mpr ⟨n, hn, hfits.1⟩

theorem fits_of_stateless (d : Document) (id : NodeId) {part : SimpleSelector}
    (h : part.hasState = false) : d.fits id part = d.fitsShape id part := by
  have hnone : part.state = none := by simpa [SimpleSelector.hasState] using h
  rw [fits, fitsShape]
  simp [Node.fits, hnone]

/-- Without a state on the subject, names alone decide how a selector matches. -/
theorem cascadeMatch_of_stateless (d : Document) (id : NodeId) {s : Selector}
    (hs : s.subject.hasState = false) :
    d.cascadeMatch s id =
      if d.matchesShape s id then (if s.isStateDependent then .pseudo else .plain) else .none := by
  rw [cascadeMatch, matchesShape, fits_of_stateless d id hs]
  cases hdep : s.isStateDependent with
  | true => cases d.fitsShape id s.subject <;> simp
  | false =>
    have hlinks : SelectorLink.allFit d.fits s.links (d.ancestors id) =
        SelectorLink.allFit d.fitsShape s.links (d.ancestors id) := by
      refine SelectorLink.allFit_congr fun a _ link hl => fits_of_stateless d a ?_
      have hnone := List.any_eq_false.mp hdep link hl
      simpa using hnone
    rw [hlinks]
    cases d.fitsShape id s.subject <;> simp

namespace SameSurroundings

variable {d e : Document} {id : NodeId}

theorem cascadeMatch_of_stateless (h : SameSurroundings d e id) {s : Selector}
    (hs : s.subject.hasState = false) : e.cascadeMatch s id = d.cascadeMatch s id := by
  rw [Document.cascadeMatch_of_stateless e id hs, Document.cascadeMatch_of_stateless d id hs,
    h.matchesShape]

/-- The rules that match a node are settled by its surroundings and by how each selector
matches. -/
theorem matchedRules (h : SameSurroundings d e id)
    (hmatch : ∀ rule ∈ d.activeRules id, ∀ s ∈ rule.selectors,
      e.cascadeMatch s id = d.cascadeMatch s id) :
    e.matchedRules id = d.matchedRules id := by
  rw [Document.matchedRules, Document.matchedRules, h.activeRules]
  refine congrArg MatchedRule.sort (List.filterMap_congr fun rule hr => ?_)
  have hfilter : ∀ m : Match, rule.selectors.filter (fun s => e.cascadeMatch s id = m) =
      rule.selectors.filter (fun s => d.cascadeMatch s id = m) := by
    intro m
    refine List.filter_congr fun s hs => ?_
    rw [hmatch rule hr s hs]
  rw [matchRule?, matchRule?, hfilter, hfilter]

/-- So are the listeners that it asks for. -/
theorem neededListeners (h : SameSurroundings d e id)
    (hmatch : ∀ rule ∈ d.activeRules id, ∀ s ∈ rule.selectors,
      e.cascadeMatch s id = d.cascadeMatch s id) :
    e.neededListeners id = d.neededListeners id := by
  rw [Document.neededListeners, Document.neededListeners, h.activeRules]
  refine List.flatMap_congr fun rule hr => List.flatMap_congr fun s hs => ?_
  have hholders : (d.ancestors id).filter (fun a => s.stateParts.any (e.fitsShape a)) =
      (d.ancestors id).filter (fun a => s.stateParts.any (d.fitsShape a)) := by
    refine List.filter_congr fun a ha => ?_
    exact List.any_congr rfl fun part => h.fitsShape (List.mem_cons_of_mem _ ha) part
  rw [cascadeListeners, cascadeListeners, hmatch rule hr s hs, h.ancestors, hholders]

end SameSurroundings

/-! ## Restyling reads what it keeps -/

/-- Nothing that restyling may change is read by matching. -/
theorem Keeps.cascadeMatch {d e : Document} (h : Keeps Node.apartFromStyling d e) (id : NodeId)
    (s : Selector) : e.cascadeMatch s id = d.cascadeMatch s id :=
  (h.map fun n => (n.parent, n.face)).sameSurroundings id |>.cascadeMatch
    (fun a part => (h.map (·.fits part)).any a) s

end Document
end StyleCascade
