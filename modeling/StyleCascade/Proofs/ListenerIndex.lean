import StyleCascade.Proofs.LastWrite
import StyleCascade.Proofs.Surroundings

/-!
# Registries of listeners and their index

A listener stands in the registry of its holder, and its leaf keeps the holder in an
index.  This module says what each operation does to both, and that the index names
exactly the holders of a leaf's listeners (`Document.ListenersIndexed`).  Matching a
node then leaves it with the listeners that it asks for and no others
(`Document.listenersFor_rematch_self`), and the listeners of other leaves as they were
(`Document.listenersExcept_rematch`).
-/
namespace StyleCascade
namespace Document

/-- The nodes that `leaf` knows to hold listeners for it. -/
def holdersOf (d : Document) (leaf : NodeId) : List NodeId :=
  ((d.node? leaf).map (·.holders)).getD []

/-- The listeners on `holder` whose leaf is `leaf`, in the order of the registry. -/
def listenersFor (d : Document) (holder leaf : NodeId) : List Listener :=
  (d.listenersOf holder).filter (·.leaf = leaf)

/-- The listeners on `holder` for all leaves but `leaf`, in the order of the registry. -/
def listenersExcept (d : Document) (holder leaf : NodeId) : List Listener :=
  (d.listenersOf holder).filter (·.leaf ≠ leaf)

/-- The listeners that `leaf` asks `holder` to hold. -/
def neededAt (d : Document) (leaf holder : NodeId) : List Listener :=
  ((d.neededListeners leaf).filter (·.1 = holder)).map (·.2)

/-- A leaf's index names exactly the nodes that hold a listener for it. -/
def ListenersIndexed (d : Document) : Prop :=
  ∀ holder leaf, holder ∈ d.holdersOf leaf ↔ ∃ l ∈ d.listenersOf holder, l.leaf = leaf

theorem Keeps.listenersOf {d e : Document} (h : Keeps (·.listeners) d e) (id : NodeId) :
    e.listenersOf id = d.listenersOf id :=
  h.field id

theorem Keeps.holdersOf {d e : Document} (h : Keeps (·.holders) d e) (id : NodeId) :
    e.holdersOf id = d.holdersOf id :=
  h.field id

theorem listenersOf_of_not_contains {d : Document} {id : NodeId} (h : d.contains id = false) :
    d.listenersOf id = [] := by
  have hnone : d.node? id = none := by simpa [contains] using h
  rw [listenersOf, hnone]
  rfl

theorem holdersOf_of_not_contains {d : Document} {id : NodeId} (h : d.contains id = false) :
    d.holdersOf id = [] := by
  have hnone : d.node? id = none := by simpa [contains] using h
  rw [holdersOf, hnone]
  rfl

/-! ## Releasing -/

theorem listenersOf_releaseListeners (d : Document) (leaf holder : NodeId) :
    (d.releaseListeners leaf).listenersOf holder =
      if holder ∈ d.holdersOf leaf then (d.listenersOf holder).filter (·.leaf ≠ leaf)
      else d.listenersOf holder := by
  refine (field_foldl_filter Node.listeners (d.holdersOf leaf)
    (d.modify leaf fun n => { n with holders := [] }) holder fun _ => by rfl).trans ?_
  rw [(keeps_modify d leaf fun _ => by rfl : Keeps (·.listeners) d _).field]
  rfl

/-- The listeners for one leaf are among those for all leaves but another. -/
theorem listenersFor_of_listenersExcept {d e : Document} {id leaf holder : NodeId} (h : leaf ≠ id)
    (hkept : e.listenersExcept holder id = d.listenersExcept holder id) :
    e.listenersFor holder leaf = d.listenersFor holder leaf := by
  have hamong : ∀ x : Document, x.listenersFor holder leaf =
      (x.listenersExcept holder id).filter (·.leaf = leaf) := by
    intro x
    rw [listenersFor, listenersExcept, List.filter_filter]
    refine List.filter_congr fun l _ => ?_
    by_cases hl : l.leaf = leaf
    · simp [hl, h]
    · simp [hl]
  rw [hamong, hamong, hkept]

/-- Releasing a leaf leaves the listeners of all others alone. -/
theorem listenersExcept_releaseListeners (d : Document) (id holder : NodeId) :
    (d.releaseListeners id).listenersExcept holder id = d.listenersExcept holder id := by
  rw [listenersExcept, listenersOf_releaseListeners]
  split
  · rw [List.filter_filter]
    simp [listenersExcept]
  · rfl

theorem listenersFor_releaseListeners_of_ne (d : Document) {id leaf : NodeId} (h : leaf ≠ id)
    (holder : NodeId) :
    (d.releaseListeners id).listenersFor holder leaf = d.listenersFor holder leaf :=
  listenersFor_of_listenersExcept h (listenersExcept_releaseListeners d id holder)

theorem holdersOf_releaseListeners (d : Document) (leaf j : NodeId) :
    (d.releaseListeners leaf).holdersOf j = if j = leaf then [] else d.holdersOf j := by
  have hkept : Keeps (·.holders) (d.modify leaf fun n => { n with holders := [] })
      (d.releaseListeners leaf) :=
    Keeps.foldl (fun d holder => keeps_modify d holder fun _ => by rfl) _ _
  rw [hkept.holdersOf]
  refine (field_modify Node.holders (g := fun _ => []) d leaf j fun _ => by rfl).trans ?_
  by_cases hj : j = leaf
  · subst hj
    cases hc : d.contains j with
    | true => simp
    | false =>
      rw [if_neg (by simp), if_pos rfl]
      exact holdersOf_of_not_contains hc
  · have hne : ¬leaf = j := fun h => hj h.symm
    simp [hj, hne, holdersOf]

/-- Once released, a leaf has no listener anywhere. -/
theorem ListenersIndexed.listenersOf_releaseListeners {d : Document} (hd : d.ListenersIndexed)
    (leaf holder : NodeId) :
    (d.releaseListeners leaf).listenersOf holder =
      (d.listenersOf holder).filter (·.leaf ≠ leaf) := by
  rw [Document.listenersOf_releaseListeners]
  split
  · rfl
  · rename_i hnot
    refine (List.filter_eq_self.mpr fun l hl => ?_).symm
    simpa using fun he => hnot ((hd holder leaf).mpr ⟨l, hl, he⟩)

theorem ListenersIndexed.releaseListeners {d : Document} (hd : d.ListenersIndexed)
    (leaf : NodeId) : (d.releaseListeners leaf).ListenersIndexed := by
  intro holder j
  rw [holdersOf_releaseListeners, hd.listenersOf_releaseListeners]
  by_cases hj : j = leaf
  · subst hj
    simp
  · rw [if_neg hj, hd holder j]
    constructor
    · rintro ⟨l, hl, rfl⟩
      exact ⟨l, List.mem_filter.mpr ⟨hl, by simpa using hj⟩, rfl⟩
    · rintro ⟨l, hl, rfl⟩
      exact ⟨l, (List.mem_filter.mp hl).1, rfl⟩

/-! ## Registering -/

theorem listenersOf_addListener (d : Document) (holder : NodeId) (l : Listener) (j : NodeId) :
    (d.addListener holder l).listenersOf j =
      if holder = j ∧ d.contains j then Keyed.upsert Listener.key l (d.listenersOf j)
      else d.listenersOf j := by
  rw [addListener]
  split
  · refine ((keeps_modify _ l.leaf fun _ => by rfl : Keeps Node.listeners _ _).listenersOf j).trans
      ?_
    exact field_modify Node.listeners (g := Keyed.upsert Listener.key l) d holder j fun _ => by rfl
  · rename_i hnot
    rw [if_neg]
    rintro ⟨rfl, hc⟩
    exact hnot hc

theorem mem_holdersOf_addListener (d : Document) (holder : NodeId) (l : Listener)
    (j x : NodeId) :
    x ∈ (d.addListener holder l).holdersOf j ↔
      x ∈ d.holdersOf j ∨
        (x = holder ∧ l.leaf = j ∧ d.contains holder = true ∧ d.contains j = true) := by
  rw [addListener]
  by_cases hc : d.contains holder = true
  · rw [if_pos hc]
    have hkept : Keeps Node.holders d (d.modify holder fun n =>
        { n with listeners := Keyed.upsert Listener.key l n.listeners }) :=
      keeps_modify d holder fun _ => rfl
    have hfield := field_modify Node.holders
      (g := fun holders => if holder ∈ holders then holders else holders ++ [holder])
      (d.modify holder fun n => { n with listeners := Keyed.upsert Listener.key l n.listeners })
      l.leaf j (f := fun n =>
        { n with holders := if holder ∈ n.holders then n.holders else n.holders ++ [holder] })
      fun _ => rfl
    rw [holdersOf, hfield, hkept.field, hkept.contains]
    by_cases hj : l.leaf = j ∧ d.contains j = true
    · rw [if_pos hj]
      split
      · rename_i hmem
        constructor
        · exact Or.inl
        · rintro (h | ⟨rfl, -⟩)
          · exact h
          · exact hmem
      · rw [List.mem_append, List.mem_singleton]
        exact or_congr Iff.rfl ⟨fun hx => ⟨hx, hj.1, hc, hj.2⟩, fun hx => hx.1⟩
    · rw [if_neg hj]
      constructor
      · exact Or.inl
      · rintro (h | ⟨-, hleaf, -, hin⟩)
        · exact h
        · exact absurd ⟨hleaf, hin⟩ hj
  · rw [if_neg hc]
    constructor
    · exact Or.inl
    · rintro (h | ⟨-, -, hin, -⟩)
      · exact h
      · exact absurd hin hc

theorem ListenersIndexed.addListener {d : Document} (hd : d.ListenersIndexed) (holder : NodeId)
    {l : Listener} (hleaf : d.contains l.leaf = true) :
    (d.addListener holder l).ListenersIndexed := by
  intro j leaf
  rw [mem_holdersOf_addListener, hd j leaf, listenersOf_addListener]
  by_cases hj : holder = j ∧ d.contains j = true
  · obtain ⟨rfl, hc⟩ := hj
    rw [if_pos ⟨rfl, hc⟩]
    constructor
    · rintro (⟨m, hm, rfl⟩ | ⟨-, rfl, -⟩)
      · have hkey : m.key ∈ (Keyed.upsert Listener.key l (d.listenersOf holder)).map
            Listener.key := by
          rw [Keyed.map_key_upsert]
          split
          · exact List.mem_map_of_mem hm
          · exact List.mem_append_left _ (List.mem_map_of_mem hm)
        obtain ⟨m', hm', he⟩ := List.mem_map.mp hkey
        exact ⟨m', hm', congrArg ListenerKey.leaf he⟩
      · exact ⟨l, (Keyed.mem_of_lookup Listener.key
          (Keyed.lookup_upsert_self Listener.key l _)).1, rfl⟩
    · rintro ⟨m, hm, rfl⟩
      rcases Keyed.mem_of_mem_upsert Listener.key hm with rfl | hm
      · exact Or.inr ⟨rfl, rfl, hc, hleaf⟩
      · exact Or.inl ⟨m, hm, rfl⟩
  · rw [if_neg hj]
    constructor
    · rintro (h | ⟨rfl, -, hc, -⟩)
      · exact h
      · exact absurd ⟨rfl, hc⟩ hj
    · exact Or.inl

/-- A run of registrations writes to each existing holder what is addressed to it. -/
theorem listenersOf_addListeners (needed : List (NodeId × Listener)) (d : Document)
    {holder : NodeId} (hc : d.contains holder = true) :
    (needed.foldl (fun d (holder, l) => d.addListener holder l) d).listenersOf holder =
      Keyed.upsertAll Listener.key (d.listenersOf holder)
        ((needed.filter (·.1 = holder)).map (·.2)) := by
  induction needed generalizing d with
  | nil => rfl
  | cons pair rest ih =>
    obtain ⟨j, l⟩ := pair
    have hc' : (d.addListener j l).contains holder = true := by
      rw [(keeps_addListener d j l).contains, hc]
    rw [List.foldl_cons, ih _ hc', listenersOf_addListener]
    by_cases hj : j = holder
    · rw [if_pos ⟨hj, hc⟩, List.filter_cons_of_pos (by simpa using hj), List.map_cons,
        Keyed.upsertAll_cons]
    · rw [if_neg fun h => hj h.1, List.filter_cons_of_neg (by simpa using hj)]

/-! ## Matching -/

/-- A node asks for listeners on strict ancestors only, for itself, and only if it exists. -/
theorem of_mem_neededListeners {d : Document} {id : NodeId} {pair : NodeId × Listener}
    (h : pair ∈ d.neededListeners id) :
    pair.1 ∈ d.ancestors id ∧ pair.2.leaf = id ∧ d.contains id = true := by
  obtain ⟨rule, -, h⟩ := List.mem_flatMap.mp h
  obtain ⟨s, -, h⟩ := List.mem_flatMap.mp h
  rw [cascadeListeners] at h
  split at h
  · rename_i hpseudo
    obtain ⟨holder, hh, rfl⟩ := List.mem_map.mp h
    refine ⟨(List.mem_filter.mp hh).1, rfl, ?_⟩
    have hfits : d.fits id s.subject = true := by
      by_contra hnot
      rw [cascadeMatch, if_pos (by simpa using hnot)] at hpseudo
      cases hpseudo
    cases hn : d.node? id with
    | none => rw [fits, hn] at hfits; cases hfits
    | some n => rw [contains, hn]; rfl
  · cases h

theorem leaf_of_mem_neededAt {d : Document} {leaf holder : NodeId} {l : Listener}
    (h : l ∈ d.neededAt leaf holder) : l.leaf = leaf := by
  obtain ⟨pair, hpair, rfl⟩ := List.mem_map.mp h
  exact (of_mem_neededListeners (List.mem_filter.mp hpair).1).2.1

/-- A node asks nothing of a node that is not above it. -/
theorem neededAt_of_notMem {d : Document} {leaf holder : NodeId}
    (h : holder ∉ d.ancestors leaf) : d.neededAt leaf holder = [] := by
  refine List.map_eq_nil_iff.mpr (List.filter_eq_nil_iff.mpr fun pair hpair => ?_)
  have hne : pair.1 ≠ holder := fun he => h (he ▸ (of_mem_neededListeners hpair).1)
  simpa using hne

/-- Matching a node releases its listeners and writes those it needs. -/
theorem listenersOf_rematch (d : Document) (id : NodeId) {holder : NodeId}
    (hc : d.contains holder = true) :
    (d.rematch id).1.listenersOf holder =
      Keyed.upsertAll Listener.key ((d.releaseListeners id).listenersOf holder)
        (d.neededAt id holder) := by
  have hmark := (keeps_markDirty (d.releaseListeners id) (d.unsettled id)).map Node.listeners
  have hcontains : ((d.releaseListeners id).markDirty (d.unsettled id)).contains holder =
      true := by
    rw [hmark.contains, (keeps_releaseListeners d id).contains, hc]
  rw [← hmark.listenersOf]
  exact listenersOf_addListeners (d.neededListeners id) _ hcontains

/-- **A matched node has the listeners that it asks for, and no others.** -/
theorem ListenersIndexed.listenersFor_rematch_self {d : Document} (hd : d.ListenersIndexed)
    (id : NodeId) {holder : NodeId} (hc : d.contains holder = true) :
    (d.rematch id).1.listenersFor holder id =
      Keyed.upsertAll Listener.key [] (d.neededAt id holder) := by
  -- What is left after the release has other leaves, so it shares no key with what is needed.
  have hdisjoint : ∀ l ∈ d.neededAt id holder,
      l.key ∉ ((d.listenersOf holder).filter (·.leaf ≠ id)).map Listener.key := by
    intro l hl hmem
    obtain ⟨m, hm, he⟩ := List.mem_map.mp hmem
    have hleaf : m.leaf = id :=
      (congrArg ListenerKey.leaf he).trans (leaf_of_mem_neededAt hl)
    simp [hleaf] at hm
  rw [listenersFor, listenersOf_rematch d id hc, hd.listenersOf_releaseListeners,
    Keyed.upsertAll_of_disjoint Listener.key hdisjoint, List.filter_append, List.filter_filter]
  have hold : (d.listenersOf holder).filter
      (fun l => decide (l.leaf = id) && decide (l.leaf ≠ id)) = [] := by
    refine List.filter_eq_nil_iff.mpr fun l _ => ?_
    simp
  rw [hold, List.nil_append]
  refine List.filter_eq_self.mpr fun l hl => ?_
  rcases Keyed.mem_of_mem_upsertAll Listener.key hl with hl | hl
  · cases hl
  · simpa using leaf_of_mem_neededAt hl

/-- Matching a node leaves the listeners of all other leaves alone. -/
theorem listenersExcept_rematch (d : Document) (id holder : NodeId) :
    (d.rematch id).1.listenersExcept holder id = d.listenersExcept holder id := by
  cases hc : d.contains holder with
  | false =>
    have hc' : (d.rematch id).1.contains holder = false := by
      rw [(keeps_rematch d id).contains, hc]
    rw [listenersExcept, listenersExcept, listenersOf_of_not_contains hc,
      listenersOf_of_not_contains hc']
  | true =>
    rw [listenersExcept, listenersOf_rematch d id hc,
      Keyed.filter_upsertAll_of_false Listener.key]
    · exact listenersExcept_releaseListeners d id holder
    · intro l hl m hm
      have hleaf : m.leaf = id := (congrArg ListenerKey.leaf hm).trans (leaf_of_mem_neededAt hl)
      simp [hleaf]

theorem listenersFor_rematch_of_ne (d : Document) {id leaf : NodeId} (h : leaf ≠ id)
    (holder : NodeId) : (d.rematch id).1.listenersFor holder leaf = d.listenersFor holder leaf :=
  listenersFor_of_listenersExcept h (listenersExcept_rematch d id holder)

end Document
end StyleCascade
