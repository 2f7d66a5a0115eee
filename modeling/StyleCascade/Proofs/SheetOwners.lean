import StyleCascade.Proofs.Attachments

/-!
# Owners of sheets

A node owns its own sheet, and the root owns the sheets of the document.  The index of owners
does not say on which of the two accounts the root is in it, and taking a sheet from the root,
where it was the root's own, ends both.  So the document's account has to be followed along a run
(`Document.claimAfter`): adding a sheet opens it, and only that kind of change to the sheet of the
root closes it.  In every run the owners of a sheet are then exactly the nodes whose own sheet it
is, and the root while the account is open (`Document.mem_ownersOf_iff_of_run`).
-/
namespace StyleCascade
namespace Document

variable {d e : Document} {id j : NodeId} {serial : Nat} {claimed : Bool}

/-- Whether the sheet with this number is the node's own. -/
def hasOwn (d : Document) (serial : Nat) (id : NodeId) : Bool :=
  (d.ownSheet? id).any (·.serial = serial)

/-- Whether the document makes the root an owner of a sheet after an action, given whether it did
so before. -/
def claimAfter (serial : Nat) (d : Document) (claimed : Bool) : Action → Bool
  | .addSheet shared => claimed || shared.serial = serial
  | .setSheet id _ => claimed && !(id = .root && d.hasOwn serial .root)
  | _ => claimed

/-- Whether the document makes the root an owner of a sheet after a run. -/
def claimAfterAll (serial : Nat) : Document → Bool → List Action → Bool
  | _, claimed, [] => claimed
  | d, claimed, a :: rest =>
    claimAfterAll serial (d.perform a) (d.claimAfter serial claimed a) rest

/-- The owners of a sheet are the nodes whose own sheet it is, and the root if the document makes
it one. -/
def OwnersAre (d : Document) (serial : Nat) (claimed : Bool) : Prop :=
  ∀ id, (serial, id) ∈ d.owners ↔ d.hasOwn serial id = true ∨ (id = .root ∧ claimed = true)

theorem mem_ownersOf_iff : id ∈ d.ownersOf serial ↔ (serial, id) ∈ d.owners := by
  rw [ownersOf, (List.mergeSort_perm _ _).mem_iff, List.mem_map]
  constructor
  · rintro ⟨⟨s, i⟩, hmem, rfl⟩
    obtain ⟨hmem, hs⟩ := List.mem_filter.mp hmem
    have hserial : s = serial := by simpa using hs
    exact hserial ▸ hmem
  · intro hmem
    exact ⟨(serial, id), List.mem_filter.mpr ⟨hmem, by simp⟩, rfl⟩

/-! ## What leaves the owners alone -/

theorem owners_modify (d : Document) (id : NodeId) (f : Node → Node) :
    (d.modify id f).owners = d.owners :=
  rfl

theorem owners_foldl {α : Type} {step : Document → α → Document}
    (hstep : ∀ d a, (step d a).owners = d.owners) (l : List α) (d : Document) :
    (l.foldl step d).owners = d.owners := by
  induction l generalizing d with
  | nil => rfl
  | cons a rest ih => exact (ih (step d a)).trans (hstep d a)

theorem owners_markDirty (d : Document) (ids : List NodeId) : (d.markDirty ids).owners = d.owners :=
  owners_foldl (fun d id => owners_modify d id _) ids d

theorem owners_removeChild (d : Document) (parent child : NodeId) :
    (d.removeChild parent child).1.owners = d.owners := by
  rw [removeChild]
  split
  · exact owners_markDirty _ _
  · rfl

theorem owners_detach (d : Document) (child : NodeId) : (d.detach child).owners = d.owners := by
  rw [detach]
  split
  · exact owners_removeChild d _ child
  · rfl

theorem owners_append (d : Document) (parent child : NodeId) :
    (d.append parent child).1.owners = d.owners := by
  rw [append]
  split
  · split
    · rfl
    · exact (owners_markDirty _ _).trans (owners_detach d child)
  · rfl

theorem owners_releaseListeners (d : Document) (leaf : NodeId) :
    (d.releaseListeners leaf).owners = d.owners :=
  owners_foldl (fun d holder => owners_modify d holder _) _ _

theorem owners_addListener (d : Document) (holder : NodeId) (l : Listener) :
    (d.addListener holder l).owners = d.owners := by
  rw [addListener]
  split <;> rfl

theorem owners_rematch (d : Document) (id : NodeId) : (d.rematch id).1.owners = d.owners :=
  calc (d.rematch id).1.owners
      = ((d.releaseListeners id).markDirty (d.unsettled id)).owners :=
        owners_foldl (fun d (pair : NodeId × Listener) => owners_addListener d pair.1 pair.2) _ _
    _ = (d.releaseListeners id).owners := owners_markDirty _ _
    _ = d.owners := owners_releaseListeners d id

theorem owners_restyle (d : Document) (id : NodeId) : (d.restyle id).1.owners = d.owners := by
  cases hc : d.contains id with
  | false => rw [restyle_of_not_contains hc]
  | true =>
    rw [restyle_of_contains hc]
    exact owners_rematch (d.unmarked id) id

theorem owners_deliver (d : Document) (id : NodeId) (u : ViewUpdate) :
    (d.deliver id u).1.owners = d.owners := by
  rw [deliver]
  split
  · rfl
  · split <;> rfl

theorem owners_deliverAll (d : Document) (updates : List (NodeId × ViewUpdate)) :
    (d.deliverAll updates).1.owners = d.owners := by
  induction updates generalizing d with
  | nil => rfl
  | cons update rest ih => exact (ih _).trans (owners_deliver d update.1 update.2)

theorem owners_bind (d : Document) (id : NodeId) (component : Component) :
    (d.bind id component).1.owners = d.owners := by
  rw [bind]
  split
  · rfl
  · split <;> rfl

/-- **Only sheets and removals** change the owners. -/
theorem owners_perform (d : Document) (a : Action) (hadd : ∀ shared, a ≠ .addSheet shared)
    (hset : ∀ id sheet, a ≠ .setSheet id sheet) (hremove : ∀ id, a ≠ .remove id) :
    (d.perform a).owners = d.owners := by
  cases a with
  | addSheet shared => exact absurd rfl (hadd shared)
  | setSheet id sheet => exact absurd rfl (hset id sheet)
  | remove id => exact absurd rfl (hremove id)
  | append parent child => exact owners_append d parent child
  | removeChild parent child => exact owners_removeChild d parent child
  | setId id text => exact owners_markDirty _ _
  | setClasses id text => exact owners_markDirty _ _
  | replaceInline id style => exact owners_restyle _ id
  | updateInline id style => exact owners_restyle _ id
  | bind id component => exact owners_bind d id component
  | changeStates id states => exact owners_deliverAll _ _
  | rematch id => exact owners_rematch d id
  | restyle id => exact owners_restyle d id
  | restyleDirty => exact owners_foldl owners_restyle _ _
  | create | setMedia | unbind | changeView | recordStates | applyRules => rfl

/-! ## What changes them -/

theorem mem_owners_removeOwner (d : Document) (shared : SharedSheet) (id j : NodeId) :
    (serial, j) ∈ (d.removeOwner shared id).owners ↔
      (serial, j) ∈ d.owners ∧ ¬(j = id ∧ shared.serial = serial) := by
  rw [removeOwner, List.mem_filter, decide_eq_true_eq, ne_eq, Prod.mk.injEq, and_comm (a := j = id),
    eq_comm (a := serial)]

theorem mem_owners_addOwner (d : Document) (shared : SharedSheet) (id j : NodeId) :
    (serial, j) ∈ (d.addOwner shared id).owners ↔
      (serial, j) ∈ d.owners ∨ (j = id ∧ shared.serial = serial) := by
  rw [addOwner]
  split
  · rename_i hmem
    constructor
    · exact Or.inl
    · rintro (h | ⟨rfl, rfl⟩)
      · exact h
      · exact hmem
  · rw [List.mem_append, List.mem_singleton, Prod.mk.injEq, and_comm (a := j = id),
      eq_comm (a := serial)]

/-- The owners once the sheet that a node had, if any, has been taken from it. -/
theorem mem_owners_elim_removeOwner (d : Document) (sheet : Option SharedSheet) (id j : NodeId) :
    (serial, j) ∈ (sheet.elim d (d.removeOwner · id)).owners ↔
      (serial, j) ∈ d.owners ∧ ¬(j = id ∧ sheet.any (·.serial = serial) = true) := by
  cases sheet with
  | none => simp
  | some old => simpa using mem_owners_removeOwner d old id j

/-- The owners once a node has been given a sheet, if any. -/
theorem mem_owners_elim_addOwner (d : Document) (sheet : Option SharedSheet) (id j : NodeId) :
    (serial, j) ∈ (sheet.elim d (d.addOwner · id)).owners ↔
      (serial, j) ∈ d.owners ∨ (j = id ∧ sheet.any (·.serial = serial) = true) := by
  cases sheet with
  | none => simp
  | some new => simpa using mem_owners_addOwner d new id j

theorem hasOwn_eq_of_ownSheet? (h : e.ownSheet? id = d.ownSheet? id) :
    e.hasOwn serial id = d.hasOwn serial id := by
  rw [hasOwn, hasOwn, h]

theorem hasOwn_of_node? {node : Node} (h : d.node? id = some node) :
    d.hasOwn serial id = node.sheet.any (·.serial = serial) := by
  rw [hasOwn, ownSheet?, h, Option.bind_some]

theorem OwnersAre.congr (hd : d.OwnersAre serial claimed) (howners : e.owners = d.owners)
    (hsheets : ∀ id, e.ownSheet? id = d.ownSheet? id) : e.OwnersAre serial claimed := by
  intro id
  rw [howners, hasOwn_eq_of_ownSheet? (hsheets id)]
  exact hd id

theorem OwnersAre.addSheet (hd : d.OwnersAre serial claimed) (shared : SharedSheet) :
    (d.addSheet shared).OwnersAre serial (claimed || shared.serial = serial) := by
  intro id
  have howners : (d.addSheet shared).owners = (d.addOwner shared .root).owners := rfl
  have hown : (d.addSheet shared).hasOwn serial id = d.hasOwn serial id :=
    hasOwn_eq_of_ownSheet? (attached_addSheet d shared id).1
  rw [howners, mem_owners_addOwner, hd id, hown, or_assoc, ← and_or_left, Bool.or_eq_true,
    decide_eq_true_eq]

/-- A node that is given a sheet owns that one and no longer the one it had. -/
theorem mem_owners_setSheet {node : Node} (hn : d.node? id = some node)
    (sheet : Option SharedSheet) (j : NodeId) :
    (serial, j) ∈ (d.setSheet id sheet).owners ↔
      ((serial, j) ∈ d.owners ∧ ¬(j = id ∧ d.hasOwn serial id = true)) ∨
        (j = id ∧ sheet.any (·.serial = serial) = true) := by
  rw [setSheet, hn, hasOwn_of_node? hn, ← mem_owners_elim_removeOwner, ← mem_owners_elim_addOwner]
  exact iff_of_eq (congrArg ((serial, j) ∈ ·) (owners_markDirty _ _))

theorem hasOwn_setSheet {node : Node} (hn : d.node? id = some node)
    (sheet : Option SharedSheet) (j : NodeId) :
    (d.setSheet id sheet).hasOwn serial j =
      if j = id then sheet.any (·.serial = serial) else d.hasOwn serial j := by
  have hc : d.contains id = true := contains_of_node? hn
  obtain ⟨owners, heq⟩ := exists_setSheet_eq hc sheet
  have hmark := (keeps_markDirty ({ d with owners }.modify id fun n => { n with sheet })
    (({ d with owners }.modify id fun n => { n with sheet }).subtree id)).map Node.sheet
  rw [heq, markSubtreeDirty, hasOwn_eq_of_ownSheet? (ownSheet?_eq_of_map j (hmark.nodes j))]
  split
  · rename_i hj
    subst hj
    have hafter : ({ d with owners }.modify j fun n => { n with sheet }).node? j =
        some { node with sheet } := by
      rw [node?_modify, if_pos rfl]
      exact congrArg (Option.map _) hn
    exact hasOwn_of_node? hafter
  · rename_i hj
    refine hasOwn_eq_of_ownSheet? ?_
    rw [ownSheet?, node?_modify, if_neg (Ne.symm hj)]
    rfl

theorem OwnersAre.setSheet (hd : d.OwnersAre serial claimed) (hroot : d.contains .root = true)
    (id : NodeId) (sheet : Option SharedSheet) :
    (d.setSheet id sheet).OwnersAre serial
      (claimed && !(id = .root && d.hasOwn serial .root)) := by
  cases hn : d.node? id with
  | none =>
    have hc : d.contains id = false := by rw [contains, hn]; rfl
    have hid : id ≠ .root := by
      rintro rfl
      rw [hroot] at hc
      cases hc
    rw [setSheet_of_not_contains hc]
    simpa [hid] using hd
  | some node =>
    intro j
    rw [mem_owners_setSheet hn, hasOwn_setSheet hn, hd j]
    by_cases hj : j = id
    · -- The node itself: what it had counts no longer, whatever it was in the index for.
      subst hj
      rw [if_pos rfl]
      by_cases hr : j = .root
      · subst hr
        cases d.hasOwn serial .root <;> simp [or_comm]
      · simp [hr]
    · have hother : ¬(j = .root ∧ id = .root) := fun h => hj (h.1.trans h.2.symm)
      by_cases hr : j = .root <;> simp_all

/-- A node that is dropped owns nothing any more. -/
theorem mem_owners_dropNode (d : Document) (id j : NodeId) :
    (serial, j) ∈ (d.dropNode id).owners ↔
      (serial, j) ∈ d.owners ∧ ¬(j = id ∧ d.hasOwn serial id = true) := by
  rw [dropNode]
  split
  · rename_i hnone
    have hown : d.hasOwn serial id = false := by rw [hasOwn, ownSheet?, hnone]; rfl
    simp [hown]
  · rename_i node hn
    rw [hasOwn_of_node? hn, owners_foldl (fun d (l : Listener) => owners_modify d l.leaf _)]
    exact mem_owners_elim_removeOwner (d.drop id) node.sheet id j

theorem hasOwn_dropNode (d : Document) (id j : NodeId) :
    (d.dropNode id).hasOwn serial j = if j = id then false else d.hasOwn serial j := by
  have hprune : Prunes Node.sheet [id] d (d.dropNode id) := prunes_dropNode d id fun _ _ => rfl
  split
  · rename_i hj
    rw [hasOwn, ownSheet?, hprune.node?_eq_none (List.mem_singleton.mpr hj)]
    rfl
  · rename_i hj
    refine hasOwn_eq_of_ownSheet? (ownSheet?_eq_of_map j (hprune.nodes_of_notMem ?_))
    exact fun hmem => hj (List.mem_singleton.mp hmem)

theorem OwnersAre.dropNode (hd : d.OwnersAre serial claimed) (hid : id ≠ .root) :
    (d.dropNode id).OwnersAre serial claimed := by
  intro j
  rw [mem_owners_dropNode, hasOwn_dropNode, hd j]
  by_cases hj : j = id
  · subst hj
    simp [hid]
  · simp [hj]

theorem OwnersAre.dropAll (hd : d.OwnersAre serial claimed) {removed : List NodeId}
    (hroot : .root ∉ removed) : (d.dropAll removed).OwnersAre serial claimed := by
  have hreleased : (removed.foldl releaseListeners d).OwnersAre serial claimed :=
    hd.congr (owners_foldl owners_releaseListeners removed d) fun id =>
      ownSheet?_eq_of_map id (((keeps_releaseAll d removed).map Node.sheet).nodes id)
  rw [Document.dropAll]
  generalize removed.foldl releaseListeners d = released at hreleased ⊢
  clear hd
  induction removed generalizing released with
  | nil => exact hreleased
  | cons id rest ih =>
    obtain ⟨hid, hrest⟩ := not_or.mp (List.mem_cons.not.mp hroot)
    exact ih hrest _ (hreleased.dropNode (Ne.symm hid))

theorem OwnersAre.remove (hd : d.OwnersAre serial claimed) (hforest : d.IsForest) (id : NodeId) :
    (d.remove id).1.OwnersAre serial claimed := by
  rw [remove_eq]
  split
  · exact hd
  · rename_i h
    have hdetach : (d.detach id).OwnersAre serial claimed :=
      hd.congr (owners_detach d id) fun j =>
        ownSheet?_eq_of_map j (((keeps_detach d id).map Node.sheet).nodes j)
    exact hdetach.dropAll ((hforest.detach id).root_notMem_subtree fun hid => h (Or.inl hid))

/-! ## Runs -/

/-- **What one action does to the owners.** -/
theorem OwnersAre.perform (hd : d.OwnersAre serial claimed) (hforest : d.IsForest) (a : Action) :
    (d.perform a).OwnersAre serial (d.claimAfter serial claimed a) := by
  cases a with
  | addSheet shared => exact hd.addSheet shared
  | setSheet id sheet => exact hd.setSheet hforest.root_exists id sheet
  | remove id => exact hd.remove hforest id
  | bind id component =>
    exact hd.congr (owners_bind d id component) fun j =>
      ownSheet?_eq_of_map j (((keeps_bind d id component).map Node.sheet).nodes j)
  | changeStates id states =>
    exact hd.congr (owners_deliverAll _ _) fun j =>
      ownSheet?_eq_of_map j (((keeps_changeStates d id states).map Node.sheet).nodes j)
  | _ =>
    refine hd.congr (owners_perform d _ ?_ ?_ ?_) (sameAttachments_perform ?_).own
    all_goals simp [Action.IsAttaching]

theorem OwnersAre.performAll (hd : d.OwnersAre serial claimed) (hforest : d.IsForest)
    (actions : List Action) :
    (d.performAll actions).OwnersAre serial (d.claimAfterAll serial claimed actions) := by
  induction actions generalizing d claimed with
  | nil => exact hd
  | cons a rest ih => exact ih (hd.perform hforest a) (hforest.perform a)

theorem ownersAre_new (media : MediaEnvironment) (serial : Nat) :
    (Document.new media).OwnersAre serial false := by
  intro id
  have hown : (Document.new media).hasOwn serial id = false := by
    rw [hasOwn, ownSheet?, node?_new]
    split <;> rfl
  have howners : (Document.new media).owners = [] := rfl
  simp [hown, howners]

/-- Whether the document has a sheet with this number. -/
def hasSheet (d : Document) (serial : Nat) : Bool :=
  d.sheets.any (·.serial = serial)

theorem hasSheet_perform (d : Document) (a : Action) :
    (d.perform a).hasSheet serial =
      (d.hasSheet serial || a.addedSheets.any (·.serial = serial)) := by
  rw [hasSheet, sheets_perform, List.any_append]
  rfl

/-- The document makes the root an owner only of sheets that it has. -/
theorem hasSheet_of_claimAfterAll (hd : claimed = true → d.hasSheet serial = true)
    (actions : List Action) (h : d.claimAfterAll serial claimed actions = true) :
    (d.performAll actions).hasSheet serial = true := by
  induction actions generalizing d claimed with
  | nil => exact hd h
  | cons a rest ih =>
    refine ih (fun hclaimed => ?_) h
    rw [hasSheet_perform, Bool.or_eq_true]
    cases a with
    | addSheet shared =>
      refine (Bool.or_eq_true _ _ ▸ hclaimed).imp hd fun hserial => ?_
      simpa [Action.addedSheets] using hserial
    | setSheet id sheet => exact Or.inl (hd (Bool.and_eq_true _ _ ▸ hclaimed).1)
    | _ => exact Or.inl (hd hclaimed)

/-- The document goes on making the root an owner of what it has, as long as the root is given
no sheet of its own. -/
theorem claimAfterAll_eq_hasSheet (hd : claimed = d.hasSheet serial) {actions : List Action}
    (hactions : ∀ sheet, .setSheet .root sheet ∉ actions) :
    d.claimAfterAll serial claimed actions = (d.performAll actions).hasSheet serial := by
  induction actions generalizing d claimed with
  | nil => exact hd
  | cons a rest ih =>
    refine ih ?_ fun sheet hmem => hactions sheet (List.mem_cons_of_mem _ hmem)
    rw [hasSheet_perform, ← hd]
    cases a with
    | addSheet shared => simp [claimAfter, Action.addedSheets]
    | setSheet id sheet =>
      have hid : id ≠ .root := by
        rintro rfl
        exact hactions sheet List.mem_cons_self
      simp [claimAfter, Action.addedSheets, hid]
    | _ => exact (Bool.or_false _).symm

/-- **The owners of a sheet** are the existing nodes whose own sheet it is; and the root, while it
owns the sheet on the account of the document, which it does only if the document has the sheet,
and as long as it does in a run that gives the root no sheet of its own. -/
theorem mem_ownersOf_iff_of_run (media : MediaEnvironment) (actions : List Action) (serial : Nat) :
    (∀ id, id ∈ ((new media).performAll actions).ownersOf serial ↔
      ((new media).performAll actions).hasOwn serial id = true ∨
        (id = .root ∧ (new media).claimAfterAll serial false actions = true)) ∧
    ((new media).claimAfterAll serial false actions = true →
      ((new media).performAll actions).hasSheet serial = true) ∧
    ((∀ sheet, .setSheet .root sheet ∉ actions) →
      (new media).claimAfterAll serial false actions =
        ((new media).performAll actions).hasSheet serial) := by
  refine ⟨fun id => ?_, hasSheet_of_claimAfterAll (fun h => ?_) actions,
    claimAfterAll_eq_hasSheet rfl⟩
  case refine_2 => cases h
  rw [mem_ownersOf_iff]
  exact (ownersAre_new media serial).performAll (isForest_new media) actions id

/-- A sheet that the root has from the document, and then as its own until it is taken away. -/
def rootSheetRun : List Action :=
  [.addSheet (redSheet []), .setSheet .root (some (redSheet [])), .setSheet .root none]

/-- The root is no owner of a sheet that the document still has, once the sheet has been taken
from the root, where it was the root's own too. -/
theorem root_notMem_ownersOf_rootSheetRun :
    (Document.new.performAll rootSheetRun).hasSheet 0 = true ∧
      .root ∉ (Document.new.performAll rootSheetRun).ownersOf 0 := by
  refine ⟨by decide +kernel, ?_⟩
  rw [mem_ownersOf_iff]
  decide +kernel

end Document
end StyleCascade
