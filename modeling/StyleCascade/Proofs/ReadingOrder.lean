import Mathlib.Data.List.Induction
import StyleCascade.Proofs.ListenerCover
import StyleCascade.Proofs.ReportFrame

/-!
# The order in which listeners are registered

Matching a leaf reads the rules that are active for it, sheet by sheet, and the selectors of
each rule in their order.  Every registry then holds the listeners for the leaf in this order
(`Document.IsForest.inReadingOrder_neededAt`), and nothing but matching the leaf again or removing
nodes changes that (`Document.listenersFor_perform`).  So in every run the listeners for a leaf
stand as they were read when the leaf was matched last (`Document.inReadingOrder_of_run`).
-/
namespace StyleCascade

/-- Writing entries one after the other leaves their keys in the order of first occurrences. -/
theorem Keyed.pairwise_idxOf_upsertAll {α κ : Type} [DecidableEq κ] (key : α → κ)
    (added : List α) : ((upsertAll key [] added).map key).Pairwise fun a b =>
      (added.map key).idxOf a < (added.map key).idxOf b := by
  induction added using List.reverseRecOn with
  | nil => exact List.Pairwise.nil
  | append_singleton added a ih =>
    have hlast : upsertAll key [] (added ++ [a]) = upsert key a (upsertAll key [] added) := by
      rw [upsertAll, List.foldl_concat]
      rfl
    have hmem : ∀ k ∈ (upsertAll key [] added).map key, k ∈ added.map key := by
      intro k hk
      simpa using (mem_map_key_upsertAll key).mp hk
    have hold : ((upsertAll key [] added).map key).Pairwise fun a' b =>
        ((added ++ [a]).map key).idxOf a' < ((added ++ [a]).map key).idxOf b := by
      refine ih.imp_of_mem fun {k k'} hk hk' hlt => ?_
      rwa [List.map_append, List.idxOf_append_of_mem (hmem k hk),
        List.idxOf_append_of_mem (hmem k' hk')]
    rw [hlast, map_key_upsert]
    split
    · exact hold
    · rename_i hnew
      refine List.pairwise_append.mpr ⟨hold, List.pairwise_singleton .., fun k hk k' hk' => ?_⟩
      obtain rfl := List.mem_singleton.mp hk'
      have hnotMem : key a ∉ added.map key := fun h => hnew (by
        rw [mem_map_key_upsertAll]
        exact .inr h)
      rw [List.map_append, List.idxOf_append_of_mem (hmem k hk),
        List.idxOf_append_of_notMem hnotMem]
      exact Nat.lt_add_right _ (List.idxOf_lt_length_of_mem (hmem k hk))

/-- Listeners whose keys stand in a list, in the order of their first places there. -/
structure InReadingOrder (reading : List ListenerKey) (listeners : List Listener) : Prop where
  mem : ∀ l ∈ listeners, l.key ∈ reading
  ordered : listeners.Pairwise fun l m => reading.idxOf l.key < reading.idxOf m.key

theorem InReadingOrder.sublist {reading : List ListenerKey} {listeners listeners' : List Listener}
    (h : InReadingOrder reading listeners) (hsub : listeners'.Sublist listeners) :
    InReadingOrder reading listeners' where
  mem l hl := h.mem l (hsub.subset hl)
  ordered := h.ordered.sublist hsub

namespace Document

variable {d e : Document} {leaf holder id : NodeId}

/-- The keys that listeners for a leaf can have, in the order in which matching the leaf reads
them: sheet by sheet from the lowest priority up, rule by rule, selector by selector. -/
def readingOrder (d : Document) (leaf : NodeId) : List ListenerKey :=
  (d.activeRules leaf).flatMap fun rule => rule.selectors.map fun s => ⟨s, leaf, rule.order⟩

/-- Whether matching the leaf asks the holder for a listener of this key. -/
def asksFor (d : Document) (holder leaf : NodeId) (key : ListenerKey) : Bool :=
  d.cascadeMatch key.selector leaf = .pseudo && holder ∈ d.ancestors leaf &&
    key.selector.stateParts.any (d.fitsShape holder)

/-- A node of a list without repetitions is found in it once at most. -/
theorem filter_eq_of_nodup {nodes : List NodeId} (h : nodes.Nodup) (test : NodeId → Bool) :
    (nodes.filter test).filter (· = holder) =
      if holder ∈ nodes ∧ test holder = true then [holder] else [] := by
  induction nodes with
  | nil => simp
  | cons x rest ih =>
    obtain ⟨hx, hrest⟩ := List.nodup_cons.mp h
    by_cases hxh : x = holder
    · subst hxh
      cases htest : test x <;> simp [htest, ih hrest, hx]
    · cases htest : test x <;> simp [htest, ih hrest, hxh, Ne.symm hxh]

/-- In a forest, a selector asks a holder for one listener at most. -/
theorem IsForest.map_key_cascadeListeners (hd : d.IsForest) (rule : StyleRule) (s : Selector) :
    (((d.cascadeListeners rule s leaf).filter (·.1 = holder)).map (·.2)).map Listener.key =
      [⟨s, leaf, rule.order⟩].filter (d.asksFor holder leaf) := by
  have hnodup : (d.ancestors leaf).Nodup := (List.nodup_cons.mp (hd.nodup_above _ leaf)).2
  rw [cascadeListeners]
  by_cases hmatch : d.cascadeMatch s leaf = .pseudo
  · rw [if_pos hmatch, List.filter_map, List.map_map, List.map_map]
    simp only [Function.comp_def, filter_eq_of_nodup hnodup]
    by_cases hasks : holder ∈ d.ancestors leaf ∧ s.stateParts.any (d.fitsShape holder) = true
    · have hask : d.asksFor holder leaf ⟨s, leaf, rule.order⟩ = true := by
        simp [asksFor, hmatch, hasks]
      rw [if_pos hasks, List.filter_cons_of_pos hask]
      rfl
    · have hask : d.asksFor holder leaf ⟨s, leaf, rule.order⟩ = false := by
        simpa [asksFor, hmatch] using hasks
      rw [if_neg hasks, List.filter_cons_of_neg (by simp [hask])]
      rfl
  · rw [if_neg hmatch]
    simp [asksFor, hmatch]

/-- The listeners that a leaf asks for are read off its reading order. -/
theorem IsForest.map_key_neededAt (hd : d.IsForest) (leaf holder : NodeId) :
    (d.neededAt leaf holder).map Listener.key =
      (d.readingOrder leaf).filter (d.asksFor holder leaf) := by
  simp only [neededAt, neededListeners, readingOrder, List.filter_flatMap, List.map_flatMap]
  refine List.flatMap_congr fun rule _ => ?_
  rw [List.map_eq_flatMap, List.filter_flatMap]
  exact List.flatMap_congr fun s _ => hd.map_key_cascadeListeners rule s

/-- Written in turn, the listeners that a leaf asks for stand in its reading order. -/
theorem IsForest.inReadingOrder_neededAt (hd : d.IsForest) (leaf holder : NodeId) :
    InReadingOrder (d.readingOrder leaf)
      (Keyed.upsertAll Listener.key [] (d.neededAt leaf holder)) := by
  have hkeys := hd.map_key_neededAt leaf holder
  have hread : ∀ l ∈ Keyed.upsertAll Listener.key [] (d.neededAt leaf holder),
      l.key ∈ d.readingOrder leaf ∧ d.asksFor holder leaf l.key = true := by
    intro l hl
    have hneeded := (Keyed.mem_of_mem_upsertAll Listener.key hl).resolve_left List.not_mem_nil
    have hkey := List.mem_map_of_mem (f := Listener.key) hneeded
    rw [hkeys] at hkey
    exact List.mem_filter.mp hkey
  refine ⟨fun l hl => (hread l hl).1, ?_⟩
  have hordered := Keyed.pairwise_idxOf_upsertAll Listener.key (d.neededAt leaf holder)
  rw [hkeys, List.pairwise_map] at hordered
  exact hordered.imp_of_mem fun {l m} hl hm hlt =>
    idxOf_lt_of_filter (hread l hl).2 (hread m hm).2 hlt

/-! ## Matching a leaf -/

/-- A holder's listeners for a leaf are those that the leaf asks for, each written once. -/
def HoldsNeeded (d : Document) (leaf holder : NodeId) : Prop :=
  d.listenersFor holder leaf = Keyed.upsertAll Listener.key [] (d.neededAt leaf holder)

/-- Whether an action matches a leaf. -/
def rereads (d : Document) (leaf : NodeId) : Action → Bool
  | .rematch id | .restyle id | .replaceInline id _ | .updateInline id _ => id = leaf
  | .restyleDirty => leaf ∈ d.dirtyNodes
  | _ => false

/-- Nobody listens for a node that does not exist. -/
theorem ListenersIndexed.listenersFor_of_not_contains (hd : d.ListenersIndexed)
    (h : d.contains leaf = false) (holder : NodeId) : d.listenersFor holder leaf = [] := by
  refine List.filter_eq_nil_iff.mpr fun l hl hleaf => ?_
  have hmem := (hd holder leaf).mpr ⟨l, hl, by simpa using hleaf⟩
  rw [holdersOf_of_not_contains h] at hmem
  cases hmem

theorem neededAt_of_not_contains (h : d.contains leaf = false) (holder : NodeId) :
    d.neededAt leaf holder = [] := by
  refine List.map_eq_nil_iff.mpr (List.filter_eq_nil_iff.mpr fun pair hpair => ?_)
  rw [(of_mem_neededListeners hpair).2.2] at h
  cases h

section Matching

variable (hforest : d.IsForest) (hindexed : d.ListenersIndexed)
include hforest hindexed

theorem holdsNeeded_rematch_self (leaf holder : NodeId) :
    (d.rematch leaf).1.HoldsNeeded leaf holder := by
  rw [HoldsNeeded, hforest.listenersFor_rematch_self hindexed,
    ((keeps_rematch d leaf).map Node.apartFromStyling).neededAt]

theorem holdsNeeded_restyle_self (leaf holder : NodeId) :
    (d.restyle leaf).1.HoldsNeeded leaf holder := by
  cases hc : d.contains leaf with
  | true =>
    rw [HoldsNeeded, hforest.listenersFor_restyle_self hindexed hc, (keeps_restyle d leaf).neededAt]
  | false =>
    rw [restyle_of_not_contains hc, HoldsNeeded, neededAt_of_not_contains hc,
      hindexed.listenersFor_of_not_contains hc]
    rfl

theorem HoldsNeeded.restyle (hd : d.HoldsNeeded leaf holder) (id : NodeId) :
    (d.restyle id).1.HoldsNeeded leaf holder := by
  by_cases hleaf : leaf = id
  · subst hleaf
    exact holdsNeeded_restyle_self hforest hindexed leaf holder
  · rw [HoldsNeeded, listenersFor_restyle_of_ne d hleaf, (keeps_restyle d id).neededAt]
    exact hd

theorem holdsNeeded_restyle_modify (leaf holder : NodeId) (style : Node → Declaration) :
    ((d.modify leaf fun n => { n with inlineStyle := style n }).restyle leaf).1.HoldsNeeded
      leaf holder := by
  have hkeeps : Keeps (fun n => (n.links, n.listening)) d
      (d.modify leaf fun n => { n with inlineStyle := style n }) := keeps_modify d leaf fun _ => rfl
  exact holdsNeeded_restyle_self ((hkeeps.map Prod.fst).isForest hforest)
    ((hkeeps.map Prod.snd).listenersIndexed hindexed) leaf holder

theorem holdsNeeded_foldl_restyle {turns : List NodeId} (hleaf : leaf ∈ turns) :
    (turns.foldl (fun d id => (d.restyle id).1) d).HoldsNeeded leaf holder := by
  induction turns generalizing d with
  | nil => cases hleaf
  | cons turn rest ih =>
    have hforest' := hforest.perform (.restyle turn)
    have hindexed' := hindexed.perform (.restyle turn)
    rcases List.mem_cons.mp hleaf with rfl | hleaf
    · exact foldl_restyle hforest' hindexed' (·.HoldsNeeded leaf holder) HoldsNeeded.restyle
        (holdsNeeded_restyle_self hforest hindexed leaf holder) rest
    · exact ih hforest' hindexed' hleaf

/-- **An action that matches a leaf** leaves its holders with what it asks for. -/
theorem holdsNeeded_perform {a : Action} (ha : d.rereads leaf a = true) :
    (d.perform a).HoldsNeeded leaf holder := by
  cases a with
  | rematch id =>
    obtain rfl : id = leaf := by simpa [rereads] using ha
    exact holdsNeeded_rematch_self hforest hindexed id holder
  | restyle id =>
    obtain rfl : id = leaf := by simpa [rereads] using ha
    exact holdsNeeded_restyle_self hforest hindexed id holder
  | replaceInline id style =>
    obtain rfl : id = leaf := by simpa [rereads] using ha
    exact holdsNeeded_restyle_modify hforest hindexed id holder _
  | updateInline id style =>
    obtain rfl : id = leaf := by simpa [rereads] using ha
    exact holdsNeeded_restyle_modify hforest hindexed id holder _
  | restyleDirty =>
    have hmem : leaf ∈ d.dirtyNodes := by simpa [rereads] using ha
    exact holdsNeeded_foldl_restyle hforest hindexed hmem
  | _ => cases ha

end Matching

/-! ## Other actions -/

theorem listenersFor_remove (hindexed : d.ListenersIndexed) (id leaf holder : NodeId) :
    (d.remove id).1.listenersFor holder leaf = d.listenersFor holder leaf ∨
      (d.remove id).1.listenersFor holder leaf = [] := by
  rw [remove_eq]
  split
  · exact .inl rfl
  · rename_i hallowed
    by_cases hleaf : leaf ∈ (d.detach id).subtree id
    · have hafter := hindexed.perform (.remove id)
      rw [perform, remove_eq, if_neg hallowed] at hafter
      have hgone : ((d.detach id).dropAll ((d.detach id).subtree id)).contains leaf = false := by
        rw [contains, (prunes_dropAll _ _).node?_eq_none hleaf]
        rfl
      exact .inr (hafter.listenersFor_of_not_contains hgone holder)
    · rw [listenersFor_dropAll _ hleaf]
      split
      · exact .inr rfl
      · exact .inl (listenersFor_congr
          (((keeps_detach d id).map Node.listeners).listenersOf holder) leaf)

theorem listenersFor_foldl_restyle_of_notMem {turns : List NodeId} (hleaf : leaf ∉ turns)
    (d : Document) (holder : NodeId) :
    (turns.foldl (fun d id => (d.restyle id).1) d).listenersFor holder leaf =
      d.listenersFor holder leaf := by
  induction turns generalizing d with
  | nil => rfl
  | cons turn rest ih =>
    obtain ⟨hne, hrest⟩ := not_or.mp (List.mem_cons.not.mp hleaf)
    rw [List.foldl_cons, ih hrest, listenersFor_restyle_of_ne d hne]

theorem listenersFor_restyle_modify_of_ne (d : Document) (h : leaf ≠ id) (holder : NodeId)
    (style : Node → Declaration) :
    ((d.modify id fun n => { n with inlineStyle := style n }).restyle id).1.listenersFor
      holder leaf = d.listenersFor holder leaf := by
  have hkeeps : Keeps Node.listeners d
      (d.modify id fun n => { n with inlineStyle := style n }) := keeps_modify d id fun _ => rfl
  rw [listenersFor_restyle_of_ne _ h, listenersFor_congr (hkeeps.listenersOf holder)]

/-- **An action that does not match a leaf** leaves its listeners on a holder as they are, or
takes them all away. -/
theorem listenersFor_perform (hindexed : d.ListenersIndexed) {a : Action}
    (ha : d.rereads leaf a = false) (holder : NodeId) :
    (d.perform a).listenersFor holder leaf = d.listenersFor holder leaf ∨
      (d.perform a).listenersFor holder leaf = [] := by
  have hkept : Keeps Node.listeners d (d.perform a) →
      (d.perform a).listenersFor holder leaf = d.listenersFor holder leaf ∨
        (d.perform a).listenersFor holder leaf = [] :=
    fun h => .inl (listenersFor_congr (h.listenersOf holder) leaf)
  cases a with
  | create tag => exact .inl (listenersFor_congr (listenersOf_create d tag holder) leaf)
  | append parent child => exact hkept ((keeps_append d parent child).map Node.listeners)
  | removeChild parent child =>
    exact hkept ((keeps_removeChild d parent child).map Node.listeners)
  | remove id => exact listenersFor_remove hindexed id leaf holder
  | setId id text => exact hkept ((keeps_setId d id text).map Node.listeners)
  | setClasses id text => exact hkept ((keeps_setClasses d id text).map Node.listeners)
  | addSheet sheet =>
    refine .inl (listenersFor_congr ?_ leaf)
    rw [perform, listenersOf, node?_addSheet, Option.map_map]
    rfl
  | setSheet id sheet => exact hkept ((keeps_setSheet d id sheet).map Node.listeners)
  | setMedia media =>
    refine .inl (listenersFor_congr ?_ leaf)
    rw [perform, listenersOf, node?_setMedia, Option.map_map]
    rfl
  | replaceInline id style =>
    have hne : leaf ≠ id := by simpa [rereads, eq_comm] using ha
    exact .inl (listenersFor_restyle_modify_of_ne d hne holder _)
  | updateInline id style =>
    have hne : leaf ≠ id := by simpa [rereads, eq_comm] using ha
    exact .inl (listenersFor_restyle_modify_of_ne d hne holder _)
  | bind id component => exact hkept ((keeps_bind d id component).map Node.listeners)
  | unbind id => exact hkept ((keeps_unbind d id).map Node.listeners)
  | changeView id f => exact hkept ((keeps_changeView d id f).map Node.listeners)
  | recordStates id states => exact hkept ((keeps_recordStates d id states).map Node.listeners)
  | changeStates id states => exact hkept ((keeps_changeStates d id states).map Node.listeners)
  | rematch id =>
    have hne : leaf ≠ id := by simpa [rereads, eq_comm] using ha
    exact .inl (listenersFor_rematch_of_ne d hne holder)
  | applyRules id rules => exact hkept (keeps_modify d id fun _ => rfl)
  | restyle id =>
    have hne : leaf ≠ id := by simpa [rereads, eq_comm] using ha
    exact .inl (listenersFor_restyle_of_ne d hne holder)
  | restyleDirty =>
    have hnot : leaf ∉ d.dirtyNodes := by simpa [rereads] using ha
    exact .inl (listenersFor_foldl_restyle_of_notMem hnot d holder)

/-! ## Runs -/

/-- The document in which a leaf has just been matched for the last time in a run. -/
def lastReading? (leaf : NodeId) : Document → List Action → Option Document
  | _, [] => none
  | d, a :: rest => (lastReading? leaf (d.perform a) rest).or
      (if d.rereads leaf a then some (d.perform a) else none)

/-- Along a run, the listeners for a leaf on a holder are those of its last match or are gone; as
long as it is not matched, they are those from the start or are gone. -/
theorem listenersFor_performAll (hforest : d.IsForest) (hindexed : d.ListenersIndexed)
    (leaf holder : NodeId) (actions : List Action) :
    (d.performAll actions).listenersFor holder leaf = [] ∨
      (lastReading? leaf d actions = none ∧
        (d.performAll actions).listenersFor holder leaf = d.listenersFor holder leaf) ∨
      ∃ read, lastReading? leaf d actions = some read ∧ read.IsForest ∧
        read.HoldsNeeded leaf holder ∧
        (d.performAll actions).listenersFor holder leaf = read.listenersFor holder leaf := by
  induction actions generalizing d with
  | nil => exact .inr (.inl ⟨rfl, rfl⟩)
  | cons a rest ih =>
    have hrest : d.performAll (a :: rest) = (d.perform a).performAll rest := rfl
    rw [hrest, lastReading?]
    rcases ih (hforest.perform a) (hindexed.perform a) with
      hnil | ⟨hnone, hsame⟩ | ⟨read, hread, hholds, hsame⟩
    · exact .inl hnil
    · rw [hnone, Option.none_or]
      cases ha : d.rereads leaf a with
      | true =>
        exact .inr (.inr ⟨d.perform a, if_pos rfl, hforest.perform a,
          holdsNeeded_perform hforest hindexed ha, hsame⟩)
      | false =>
        rcases listenersFor_perform hindexed ha holder with hkept | hnil
        · exact .inr (.inl ⟨if_neg Bool.false_ne_true, hsame.trans hkept⟩)
        · exact .inl (hsame.trans hnil)
    · rw [hread, Option.some_or]
      exact .inr (.inr ⟨read, rfl, hholds, hsame⟩)

/-- **In every run, the listeners for a leaf stand as they were read last**: as soon as a holder
has one, the leaf has been matched, and they are in the reading order of its last match. -/
theorem inReadingOrder_of_run {media : MediaEnvironment} {actions : List Action} {l : Listener}
    (hl : l ∈ ((new media).performAll actions).listenersOf holder) :
    ∃ read, lastReading? l.leaf (new media) actions = some read ∧
      InReadingOrder (read.readingOrder l.leaf)
        (((new media).performAll actions).listenersFor holder l.leaf) := by
  have hmem : l ∈ ((new media).performAll actions).listenersFor holder l.leaf :=
    List.mem_filter.mpr ⟨hl, decide_eq_true rfl⟩
  rcases listenersFor_performAll (isForest_new media) (listenersIndexed_new media) l.leaf holder
    actions with hnil | ⟨-, hsame⟩ | ⟨read, hread, hforest, hholds, hsame⟩
  · rw [hnil] at hmem
    cases hmem
  · rw [hsame, listenersFor, listenersOf_new] at hmem
    cases hmem
  · refine ⟨read, hread, ?_⟩
    rw [hsame, hholds]
    exact hforest.inReadingOrder_neededAt l.leaf holder

end Document
end StyleCascade
