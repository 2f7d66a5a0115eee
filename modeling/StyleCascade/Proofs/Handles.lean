import StyleCascade.Engine
import StyleCascade.Proofs.Reachability
import StyleCascade.Proofs.TreeOrder

/-!
# Handles

A document gives out a new handle for every node that is made, and slots are only ever
added: no handle is given out twice (`Document.nodup_created`).  An engine that builds a
tree performs actions on its document and nothing else (`Engine.runsTo_build`), so what
holds in every run holds of built documents too.  `Document.isForest_of_run` sums up what a
run says about the tree.
-/
namespace StyleCascade
namespace Document

variable {d e f : Document}

/-! ## Slots -/

/-- **Slots are added by making nodes**, and by nothing else. -/
theorem size_perform (d : Document) (a : Action) :
    (d.perform a).slots.size = d.slots.size + if a matches .create _ then 1 else 0 := by
  cases a with
  | create tag => exact Array.size_push _
  | append parent child => exact (keeps_append d parent child).size
  | removeChild parent child => exact (keeps_removeChild d parent child).size
  | remove id =>
    rw [perform, remove_eq]
    split
    · rfl
    · exact ((prunes_dropAll _ _).size).trans (keeps_detach d id).size
  | _ =>
    refine (links_perform ?_).1
    exact fun h => h

/-- Handles that are given out point behind the slots that are there. -/
theorem size_le_of_mem_created {actions : List Action} {id : NodeId}
    (h : id ∈ d.created actions) : d.slots.size ≤ id.index := by
  induction actions generalizing d with
  | nil => cases h
  | cons a rest ih =>
    have hrest : id ∈ (d.perform a).created rest → d.slots.size ≤ id.index := by
      intro hid
      have hsize := size_perform d a
      have hle := ih hid
      omega
    cases a with
    | create tag =>
      rcases List.mem_cons.mp h with rfl | h
      · exact le_rfl
      · exact hrest h
    | _ => exact hrest h

/-- **No handle is given out twice.** -/
theorem nodup_created (d : Document) (actions : List Action) : (d.created actions).Nodup := by
  induction actions generalizing d with
  | nil => exact List.nodup_nil
  | cons a rest ih =>
    cases a with
    | create tag =>
      refine List.nodup_cons.mpr ⟨fun h => ?_, ih _⟩
      have hle := size_le_of_mem_created h
      rw [size_perform, create] at hle
      simp only [ite_true] at hle
      omega
    | _ => exact ih _

theorem created_append (d : Document) (first second : List Action) :
    d.created (first ++ second) = d.created first ++ (d.performAll first).created second := by
  induction first generalizing d with
  | nil => rfl
  | cons a rest ih =>
    cases a with
    | create tag => exact congrArg ((d.create tag).1 :: ·) (ih _)
    | _ => exact ih _

/-! ## What a run has led to -/

/-- Some run leads from `d` to `e` and gives out `ids`. -/
def RunsTo (d e : Document) (ids : List NodeId) : Prop :=
  ∃ actions, e = d.performAll actions ∧ ids = d.created actions

namespace RunsTo

variable {ids ids' : List NodeId}

theorem refl (d : Document) : RunsTo d d [] :=
  ⟨[], rfl, rfl⟩

theorem trans (h : RunsTo d e ids) (h' : RunsTo e f ids') : RunsTo d f (ids ++ ids') := by
  obtain ⟨first, rfl, rfl⟩ := h
  obtain ⟨second, rfl, rfl⟩ := h'
  exact ⟨first ++ second, (performAll_append d first second).symm,
    (created_append d first second).symm⟩

theorem perform (d : Document) (a : Action) : RunsTo d (d.perform a) (d.created [a]) :=
  ⟨[a], rfl, rfl⟩

end RunsTo
end Document

/-! ## Building -/

namespace Engine

open Document (RunsTo)

theorem document_read (e : Engine) (reading : Reading StyleSheet) :
    (e.read reading).2.document = e.document := by
  rw [read]
  dsimp only
  split <;> rfl

/-- A setting that may be absent is an action or nothing. -/
theorem runsTo_elim (d : Document) (action : String → Action) (text? : Option String)
    (hnone : ∀ text, d.created [action text] = []) :
    RunsTo d (text?.elim d fun text => d.perform (action text)) [] := by
  cases text? with
  | none => exact .refl d
  | some text => exact hnone text ▸ .perform d (action text)

/-- Making a node is a run that gives out its handle. -/
theorem runsTo_createNode (e : Engine) (parent : NodeId) (tree : Json) :
    RunsTo e.document (e.createNode parent tree).2.document [(e.createNode parent tree).1] := by
  have hmake : ∀ tag, RunsTo e.document
      ((e.document.create tag).2.append parent (e.document.create tag).1).1
      [(e.document.create tag).1] := fun tag =>
    (RunsTo.perform e.document (.create tag)).trans
      (.perform _ (.append parent (e.document.create tag).1))
  have hname : ∀ (d : Document) (id : NodeId) (cssId classes : Option String),
      RunsTo d (classes.elim (cssId.elim d (d.setId id))
        ((cssId.elim d (d.setId id)).setClasses id)) [] := fun d id cssId classes =>
    (runsTo_elim d (.setId id) cssId fun _ => rfl).trans
      (runsTo_elim _ (.setClasses id) classes fun _ => rfl)
  exact (hmake _).trans (hname _ _ _ _)

theorem runsTo_giveSheet (e : Engine) (id : NodeId) (tree : Json) :
    RunsTo e.document (e.giveSheet id tree).2.document [] := by
  rw [giveSheet]
  split
  · exact .refl _
  · rename_i sheet _
    have hread := e.document_read (Session.readSheet sheet)
    split
    · rename_i heq
      rw [heq] at hread
      exact hread ▸ .refl _
    · rename_i heq
      rw [heq] at hread
      exact hread ▸ .perform _ (.setSheet id _)

theorem runsTo_giveStyle (e : Engine) (id : NodeId) (tree : Json) :
    RunsTo e.document (e.giveStyle id tree).2.document [] := by
  rw [giveStyle]
  split
  · exact .refl _
  · rename_i members _
    rw [setInline]
    dsimp only
    split <;> exact .perform _ (.replaceInline id (Declaration.ofMembers members))
  · exact .refl _

/-- Builds that are runs make a run one after the other. -/
theorem runsTo_buildEach {build : Engine → Json → Except StyleError NodeId × Engine}
    (hbuild : ∀ e tree, ∃ ids, RunsTo e.document (build e tree).2.document ids)
    (trees : List Json) (e : Engine) :
    ∃ ids, RunsTo e.document (buildEach build e trees).2.document ids := by
  induction trees generalizing e with
  | nil => exact ⟨[], .refl _⟩
  | cons tree rest ih =>
    obtain ⟨ids, hfirst⟩ := hbuild e tree
    rw [buildEach]
    split
    · rename_i heq
      rw [heq] at hfirst
      exact ⟨ids, hfirst⟩
    · rename_i heq
      rw [heq] at hfirst
      obtain ⟨more, hrest⟩ := ih _
      exact ⟨ids ++ more, hfirst.trans hrest⟩

/-- A build is a run that gives out the handle it answers with. -/
theorem runsTo_buildLevels (levels : Nat) (parent : NodeId) (e : Engine) (tree : Json) :
    ∃ ids, RunsTo e.document (buildLevels levels parent e tree).2.document ids ∧
      ∀ id, (buildLevels levels parent e tree).1 = .ok id → id ∈ ids := by
  induction levels generalizing parent e tree with
  | zero => exact ⟨[], .refl _, fun _ h => by cases h⟩
  | succ levels ih =>
    cases tree with
    | object members =>
      rw [buildLevels]
      have hmade := e.runsTo_createNode parent (.object members)
      generalize e.createNode parent (.object members) = made at hmade ⊢
      obtain ⟨id, made⟩ := made
      have hsheet := hmade.trans (made.runsTo_giveSheet id (.object members))
      dsimp only at hsheet ⊢
      -- A fault in any of the three steps ends the run there.
      split
      · rename_i heq
        rw [heq] at hsheet
        exact ⟨_, hsheet, fun _ h => by cases h⟩
      · rename_i sheeted heq
        rw [heq] at hsheet
        have hstyle := hsheet.trans (sheeted.runsTo_giveStyle id (.object members))
        split
        · rename_i heq
          rw [heq] at hstyle
          exact ⟨_, hstyle, fun _ h => by cases h⟩
        · rename_i styled heq
          rw [heq] at hstyle
          obtain ⟨more, hchildren⟩ := runsTo_buildEach (fun e tree => (ih id e tree).imp
            fun _ h => h.1) (childTrees (.object members)) styled
          have hall := hstyle.trans hchildren
          split
          · rename_i heq
            rw [heq] at hall
            exact ⟨_, hall, fun _ h => by cases h⟩
          · rename_i heq
            rw [heq] at hall
            refine ⟨_, hall, fun x hx => ?_⟩
            obtain rfl := Except.ok.inj hx
            simp
    | _ => exact ⟨[], .refl _, fun _ h => by cases h⟩

end Engine

namespace Document

/-- **The tree in every run.**  Whatever is done to a new document, with whatever handles:
children and parents mirror each other without duplicates, under a root without parent
(`IsForest`); both ends of a link exist; the walk up from any node ends; a subtree lists its
node and the descendants once each, parents before children and these in their order; and no
handle is given out twice.  A build by an engine is such a run, too. -/
theorem isForest_of_run (media : MediaEnvironment) (actions : List Action) :
    let d := (Document.new media).performAll actions
    d.IsForest ∧
      (∀ parent child, child ∈ d.children parent →
        d.contains parent = true ∧ d.contains child = true) ∧
      (∀ id, ∃ steps, (Option.bind · d.parent?)^[steps] (some id) = none) ∧
      (∀ id, d.contains id = true →
        (∀ x, x ∈ d.subtree id ↔ d.contains x = true ∧ (x = id ∨ d.IsAncestor id x)) ∧
        (d.subtree id).Nodup ∧
        ∀ x ∈ d.subtree id, (x :: d.children x).Sublist (d.subtree id)) ∧
      (.root :: (Document.new media).created actions).Nodup ∧
      ∀ (e : Engine) (parent : NodeId) (tree : Json), ∃ more : List Action,
        (e.build parent tree).2.document = e.document.performAll more ∧
        ∀ id, (e.build parent tree).1 = .ok id → id ∈ e.document.created more := by
  intro d
  have hd : d.IsForest := (reachable_performAll media actions).isForest
  refine ⟨hd, fun parent child hchild => ?_, hd.exists_walk_end, fun id _ => ?_, ?_,
    fun e parent tree => ?_⟩
  · have hparent := (hd.mem_children_iff parent child).mp hchild
    exact ⟨hd.contains_parent hparent, contains_of_parent? hparent⟩
  · refine ⟨fun x => ?_, hd.nodup_subtree id, fun x hx => hd.sublist_subtree_of_mem hx⟩
    rw [hd.mem_subtree_iff, hd.mem_ancestors_iff]
  · refine List.nodup_cons.mpr ⟨fun h => ?_, nodup_created _ actions⟩
    -- The root has the one slot of a new document.
    have hle := size_le_of_mem_created h
    simp [Document.new, NodeId.root] at hle
  · obtain ⟨ids, ⟨more, hmore, rfl⟩, hid⟩ := e.runsTo_buildLevels _ parent tree
    exact ⟨more, hmore, hid⟩

/-- A run with handles of nodes that are above, removed or missing. -/
def reusingRun : List Action :=
  [.create "list", .append .root ⟨1⟩, .create "item", .append ⟨1⟩ ⟨2⟩, .append ⟨2⟩ ⟨1⟩,
    .create "item", .append ⟨1⟩ ⟨3⟩, .remove ⟨2⟩, .create "item", .append ⟨1⟩ ⟨4⟩,
    .append ⟨1⟩ ⟨2⟩, .append ⟨9⟩ ⟨4⟩]

/-- The list keeps the two items that are left, in order, and the removed one has the only
handle of its kind. -/
theorem isForest_of_run_reusingRun :
    Document.new.created reusingRun = [⟨1⟩, ⟨2⟩, ⟨3⟩, ⟨4⟩] ∧
      (.root :: Document.new.created reusingRun).Nodup ∧
      (Document.new.performAll reusingRun).contains ⟨1⟩ = true ∧
      (Document.new.performAll reusingRun).children ⟨1⟩ = [⟨3⟩, ⟨4⟩] ∧
      (⟨1⟩ :: (Document.new.performAll reusingRun).children ⟨1⟩).Sublist
        ((Document.new.performAll reusingRun).subtree ⟨1⟩) := by
  obtain ⟨-, -, -, hsubtree, hnodup, -⟩ := isForest_of_run {} reusingRun
  have hc : (Document.new.performAll reusingRun).contains ⟨1⟩ = true := by decide +kernel
  obtain ⟨hmem, -, hsublist⟩ := hsubtree ⟨1⟩ hc
  exact ⟨by decide +kernel, hnodup, hc, by decide +kernel,
    hsublist ⟨1⟩ ((hmem ⟨1⟩).mpr ⟨hc, Or.inl rfl⟩)⟩

end Document
end StyleCascade
