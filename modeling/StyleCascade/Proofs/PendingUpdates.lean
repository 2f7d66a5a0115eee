import StyleCascade.Proofs.Attachments
import StyleCascade.Proofs.Handles

/-!
# Updates that wait

What happens to the updates for one node is a sequence of events: updates are addressed to the
node, and views that are bound to it receive updates (`Document.viewEvents`).  In every run the
update that waits on the node is the one that was addressed last, unless a view has received
something since (`ViewEvent.outstanding?`); and what a view receives was addressed last, with
nothing received in between (`ViewEvent.Prompt`).  `Document.Chronicle` puts both together, and is
kept by every action.
-/
namespace StyleCascade

/-- What happens to the updates for one node. -/
inductive ViewEvent
  /-- An update is addressed to the node. -/
  | addressed (update : ViewUpdate)
  /-- A view that is bound to the node receives an update. -/
  | handed (update : ViewUpdate)
deriving Repr

namespace ViewEvent

def addressed? : ViewEvent → Option ViewUpdate
  | addressed update => some update
  | handed _ => none

def handed? : ViewEvent → Option ViewUpdate
  | addressed _ => none
  | handed update => some update

/-- The update that was addressed last, unless a view has received something since. -/
def outstanding? (events : List ViewEvent) : Option ViewUpdate :=
  events.getLast?.bind addressed?

/-- What a view receives has been addressed just before. -/
def Prompt (events : List ViewEvent) : Prop :=
  ∀ before update after, events = before ++ handed update :: after →
    ∃ earlier, before = earlier ++ [addressed update]

variable {events : List ViewEvent} {update : ViewUpdate}

@[simp] theorem outstanding?_append_singleton (events : List ViewEvent) (event : ViewEvent) :
    outstanding? (events ++ [event]) = event.addressed? := by
  simp [outstanding?]

theorem eq_append_of_outstanding? (h : outstanding? events = some update) :
    ∃ earlier, events = earlier ++ [addressed update] := by
  obtain ⟨event, hlast, hevent⟩ := Option.bind_eq_some_iff.mp h
  obtain ⟨earlier, rfl⟩ := List.getLast?_eq_some_iff.mp hlast
  cases event with
  | addressed u =>
    obtain rfl := Option.some.inj hevent
    exact ⟨earlier, rfl⟩
  | handed u => cases hevent

theorem prompt_nil : Prompt [] := by
  intro before update after h
  cases before <;> cases h

/-- One more event leaves a sequence prompt if what it hands over was outstanding. -/
theorem Prompt.append_singleton (h : Prompt events) {event : ViewEvent}
    (hevent : ∀ update, event.handed? = some update → outstanding? events = some update) :
    Prompt (events ++ [event]) := by
  intro before update after heq
  rcases List.eq_nil_or_concat after with rfl | ⟨rest, last, rfl⟩
  · obtain ⟨rfl, hlast⟩ := List.append_inj' heq rfl
    obtain rfl := List.singleton_inj.mp hlast
    exact eq_append_of_outstanding? (hevent update rfl)
  · rw [List.concat_eq_append, ← List.cons_append, ← List.append_assoc] at heq
    exact h before update rest (List.append_inj' heq rfl).1

end ViewEvent

open ViewEvent

namespace Document

variable {d e : Document} {n : NodeId} {events : List ViewEvent}

/-! ## What happens in a run -/

/-- The events for `n` when updates are handed over in turn. -/
def updateEvents (n : NodeId) (d : Document) : List (NodeId × ViewUpdate) → List ViewEvent
  | [] => []
  | (id, update) :: rest =>
    (if id = n then [addressed update] else []) ++
      (received n (d.deliver id update).2).map handed ++
      updateEvents n (d.deliver id update).1 rest

/-- The updates that an action calls for. -/
def updatesOf (d : Document) : Action → List (NodeId × ViewUpdate)
  | .changeStates id states => (d.recordStates id states).updatesFrom id
  | _ => []

/-- What views receive in an action. -/
def deliveriesOf (d : Document) : Action → List Delivery
  | .bind id component => (d.bind id component).2
  | .changeStates id states => (d.changeStates id states).2
  | _ => []

/-- The events for `n` in an action. -/
def eventsOf (n : NodeId) (d : Document) : Action → List ViewEvent
  | .bind id component => (received n (d.bind id component).2).map handed
  | .changeStates id states =>
    updateEvents n (d.recordStates id states) ((d.recordStates id states).updatesFrom id)
  | _ => []

/-- What the actions of a run give, one after the other. -/
def gathered {α : Type} (step : Document → Action → List α) : Document → List Action → List α
  | _, [] => []
  | d, a :: rest => step d a ++ gathered step (d.perform a) rest

/-- The events for `n` in a run. -/
def viewEvents (n : NodeId) : Document → List Action → List ViewEvent :=
  gathered (eventsOf n)

/-! ## Events and deliveries -/

theorem filterMap_map_handed (updates : List ViewUpdate) :
    (updates.map handed).filterMap handed? = updates ∧
      (updates.map handed).filterMap addressed? = [] := by
  induction updates with
  | nil => exact ⟨rfl, rfl⟩
  | cons update rest ih => exact ⟨congrArg (update :: ·) ih.1, ih.2⟩

theorem received_append (first second : List Delivery) :
    received n (first ++ second) = received n first ++ received n second := by
  simp [received]

/-- The events for a node are the updates for it, and what its view receives. -/
theorem filterMap_updateEvents (d : Document) (updates : List (NodeId × ViewUpdate)) :
    (updateEvents n d updates).filterMap addressed? = updatesFor n updates ∧
      (updateEvents n d updates).filterMap handed? = received n (d.deliverAll updates).2 := by
  induction updates generalizing d with
  | nil => exact ⟨rfl, rfl⟩
  | cons head rest ih =>
    obtain ⟨id, update⟩ := head
    obtain ⟨haddressed, hhanded⟩ := ih (d.deliver id update).1
    have hall : (d.deliverAll ((id, update) :: rest)).2 =
        (d.deliver id update).2 ++ ((d.deliver id update).1.deliverAll rest).2 := rfl
    simp only [updateEvents, List.filterMap_append, haddressed, hhanded, filterMap_map_handed, hall,
      received_append]
    by_cases hid : id = n <;> simp [hid, updatesFor, addressed?, handed?]

theorem filterMap_eventsOf (d : Document) (a : Action) :
    (eventsOf n d a).filterMap addressed? = updatesFor n (d.updatesOf a) ∧
      (eventsOf n d a).filterMap handed? = received n (d.deliveriesOf a) := by
  cases a with
  | bind id component => exact (filterMap_map_handed _).symm
  | changeStates id states => exact filterMap_updateEvents _ _
  | _ => exact ⟨rfl, rfl⟩

theorem filterMap_viewEvents (d : Document) (actions : List Action) :
    (d.viewEvents n actions).filterMap addressed? = updatesFor n (d.gathered updatesOf actions) ∧
      (d.viewEvents n actions).filterMap handed? =
        received n (d.gathered deliveriesOf actions) := by
  induction actions generalizing d with
  | nil => exact ⟨rfl, rfl⟩
  | cons a rest ih =>
    obtain ⟨haddressed, hhanded⟩ := filterMap_eventsOf (n := n) d a
    obtain ⟨haddressed', hhanded'⟩ := ih (d.perform a)
    rw [viewEvents] at haddressed' hhanded' ⊢
    simp only [gathered, List.filterMap_append, updatesFor_append, received_append]
    exact ⟨congrArg₂ _ haddressed haddressed', congrArg₂ _ hhanded hhanded'⟩

/-! ## What waits -/

/-- The events account for what waits on `n`, if the node exists; if it cannot have existed yet,
nothing has happened. -/
structure Chronicle (n : NodeId) (d : Document) (events : List ViewEvent) : Prop where
  waiting : d.contains n = true → d.waiting? n = outstanding? events
  unborn : d.slots.size ≤ n.index → events = []
  prompt : Prompt events

theorem contains_eq_false_of_size_le (h : d.slots.size ≤ n.index) : d.contains n = false := by
  rw [contains, node?, Array.getElem?_eq_none h]
  rfl

theorem waiting?_of_not_contains (h : d.contains n = false) : d.waiting? n = none := by
  have hnone : d.node? n = none := by simpa [contains] using h
  rw [waiting?, hnone]
  rfl

theorem chronicle_new (media : MediaEnvironment) (n : NodeId) :
    Chronicle n (Document.new media) [] where
  waiting _ := by
    rw [waiting?, node?_new]
    split <;> rfl
  unborn _ := rfl
  prompt := prompt_nil

/-- Nothing happens for `n`, and what waits on it stays. -/
theorem Chronicle.congr (h : Chronicle n d events)
    (hcontains : e.contains n = true → d.contains n = true ∨ d.slots.size ≤ n.index)
    (hwaiting : e.contains n = true → e.waiting? n = d.waiting? n)
    (hsize : d.slots.size ≤ e.slots.size) : Chronicle n e events where
  waiting hn := by
    rw [hwaiting hn]
    rcases hcontains hn with hold | hnew
    · exact h.waiting hold
    · rw [waiting?_of_not_contains (contains_eq_false_of_size_le hnew), h.unborn hnew]
      rfl
  unborn hle := h.unborn (hsize.trans hle)
  prompt := h.prompt

theorem size_deliver (d : Document) (id : NodeId) (update : ViewUpdate) :
    (d.deliver id update).1.slots.size = d.slots.size :=
  (keeps_apartFromPending_deliver d id update).size

/-- **One update**: it is addressed; the view receives it, or it waits. -/
theorem Chronicle.deliver (h : Chronicle n d events) {id : NodeId} (hid : d.contains id = true)
    (update : ViewUpdate) :
    Chronicle n (d.deliver id update).1
      (events ++ ((if id = n then [addressed update] else []) ++
        (received n (d.deliver id update).2).map handed)) := by
  have hcontains := (keeps_apartFromPending_deliver d id update).contains n
  rw [received_deliver]
  by_cases hn : id = n
  · subst hn
    have haddressed : Prompt (events ++ [addressed update]) := h.prompt.append_singleton nofun
    have hborn : ¬d.slots.size ≤ id.index := fun hle => by
      rw [contains_eq_false_of_size_le hle] at hid
      cases hid
    refine ⟨fun _ => ?_, fun hle => absurd (size_deliver d id update ▸ hle) hborn, ?_⟩
    · rw [waiting?_deliver, if_pos rfl, hid]
      cases d.hasView id <;> simp [outstanding?, addressed?]
    · cases d.hasView id
      · simpa using haddressed
      · have hhanded : Prompt (events ++ [addressed update] ++ [handed update]) := by
          refine haddressed.append_singleton fun u hu => ?_
          obtain rfl := Option.some.inj hu
          exact outstanding?_append_singleton events (addressed update)
        simpa using hhanded
  · simp only [hn, if_false, false_and, List.map_nil, List.append_nil]
    refine h.congr (fun hc => Or.inl (hcontains ▸ hc)) (fun _ => ?_) (size_deliver d id update).ge
    rw [waiting?_deliver, if_neg hn]

theorem Chronicle.deliverAll (h : Chronicle n d events) {updates : List (NodeId × ViewUpdate)}
    (hupdates : ∀ update ∈ updates, d.contains update.1 = true) :
    Chronicle n (d.deliverAll updates).1 (events ++ updateEvents n d updates) := by
  induction updates generalizing d events with
  | nil => simpa [updateEvents, Document.deliverAll] using h
  | cons head rest ih =>
    obtain ⟨id, update⟩ := head
    have hdeliver := h.deliver (hupdates _ List.mem_cons_self) update
    have hrest := ih hdeliver fun other hother => by
      rw [(keeps_apartFromPending_deliver d id update).contains]
      exact hupdates other (List.mem_cons_of_mem _ hother)
    simpa [updateEvents, Document.deliverAll] using hrest

/-- **A view that is bound** receives what waits, if it is realized. -/
theorem deliveries_bind (d : Document) (id : NodeId) (component : Component) :
    (d.bind id component).2 =
      if component.realized then (d.waiting? id).toList.map (Delivery.mk id) else [] := by
  rw [bind]
  cases hid : d.node? id with
  | none => simp [waiting?, hid]
  | some node => cases component.realized <;> simp [waiting?, hid]

theorem waiting?_bind (d : Document) (id : NodeId) (component : Component) :
    (d.bind id component).1.waiting? n =
      if id = n ∧ component.realized = true then none else d.waiting? n := by
  rw [bind]
  cases hid : d.node? id with
  | none =>
    by_cases hn : id = n
    · subst hn
      simp [waiting?, hid]
    · simp [hn]
  | some node =>
    by_cases hn : id = n
    · subst hn
      cases hreal : component.realized <;> simp [waiting?, node?_modify, hid]
    · cases hreal : component.realized <;> simp [waiting?, node?_modify, hn]

/-- When a view is bound, either it receives nothing and what waits stays, or it receives just
what waited. -/
theorem received_bind_cases (d : Document) (id : NodeId) (component : Component) :
    (received n (d.bind id component).2 = [] ∧
        (d.bind id component).1.waiting? n = d.waiting? n) ∨
      ∃ update, d.waiting? n = some update ∧
        received n (d.bind id component).2 = [update] ∧
        (d.bind id component).1.waiting? n = none := by
  rw [deliveries_bind, waiting?_bind]
  by_cases hn : id = n
  · subst hn
    cases component.realized <;> cases hwaiting : d.waiting? id <;> simp [received]
  · refine Or.inl ⟨?_, if_neg fun h => hn h.1⟩
    split <;> simp [received, hn]

theorem Chronicle.bind (h : Chronicle n d events) (id : NodeId) (component : Component) :
    Chronicle n (d.bind id component).1 (events ++ eventsOf n d (.bind id component)) := by
  have hkeeps := keeps_bind d id component
  rw [eventsOf]
  rcases received_bind_cases (n := n) d id component with
    ⟨hnone, hsame⟩ | ⟨update, hwaiting, hone, hnow⟩
  · rw [hnone, List.map_nil, List.append_nil]
    exact h.congr (fun hc => Or.inl (hkeeps.contains n ▸ hc)) (fun _ => hsame) hkeeps.size.ge
  · have hc : d.contains n = true := by
      by_contra hnot
      rw [waiting?_of_not_contains (by simpa using hnot)] at hwaiting
      cases hwaiting
    rw [hone]
    refine ⟨fun _ => ?_, fun hle => ?_, h.prompt.append_singleton fun u hu => ?_⟩
    · rw [hnow]
      exact (outstanding?_append_singleton events (handed update)).symm
    · rw [contains_eq_false_of_size_le (hkeeps.size ▸ hle)] at hc
      cases hc
    · obtain rfl := Option.some.inj hu
      exact (h.waiting hc).symm.trans hwaiting

/-- An update goes to a node that exists. -/
theorem contains_of_mem_updatesFrom (hd : d.ListenersIndexed) {holder : NodeId}
    {update : NodeId × ViewUpdate} (h : update ∈ d.updatesFrom holder) :
    d.contains update.1 = true := by
  obtain ⟨leaf, update⟩ := update
  have hlistener : ∃ l ∈ d.listenersOf holder, l.leaf = leaf := by
    cases update with
    | apply key style =>
      obtain ⟨l, hl, -⟩ := exists_of_apply_mem_updatesFrom h
      obtain ⟨hl, hleaf⟩ := List.mem_filter.mp hl
      exact ⟨l, hl, by simpa using hleaf⟩
    | restore =>
      obtain ⟨l, hl, hleaf, -⟩ := restore_mem_updatesFrom_iff.mp h
      exact ⟨l, hl, hleaf⟩
  exact contains_of_mem_holdersOf ((hd holder leaf).mpr hlistener)

theorem Chronicle.changeStates (h : Chronicle n d events) (hd : d.ListenersIndexed) (id : NodeId)
    (states : StateMap) :
    Chronicle n (d.changeStates id states).1
      (events ++ eventsOf n d (.changeStates id states)) := by
  have hrecord := keeps_recordStates d id states
  have hrecorded : Chronicle n (d.recordStates id states) events :=
    h.congr (fun hc => Or.inl (hrecord.contains n ▸ hc))
      (fun _ => (sameAttachments_perform (a := .recordStates id states) fun h => h).waiting n)
      hrecord.size.ge
  exact hrecorded.deliverAll fun update hupdate =>
    contains_of_mem_updatesFrom (hd.perform (.recordStates id states)) hupdate

/-- What waits on a node that stays is changed by views and reports only. -/
theorem waiting?_perform {a : Action} (hbind : ∀ id component, a ≠ .bind id component)
    (hchange : ∀ id states, a ≠ .changeStates id states) (hn : (d.perform a).contains n = true) :
    (d.perform a).waiting? n = d.waiting? n := by
  cases a with
  | bind id component => exact absurd rfl (hbind id component)
  | changeStates id states => exact absurd rfl (hchange id states)
  | remove id => exact (attached_remove hn).2
  | addSheet shared => exact (attached_addSheet d shared n).2
  | setSheet id sheet =>
    exact waiting?_eq_of_map n (((keeps_setSheet d id sheet).map Node.pending).nodes n)
  | _ =>
    refine (sameAttachments_perform ?_).waiting n
    exact fun h => h

/-- **No slot is used again**: a node that exists after an action existed before, or its slot is
new. -/
theorem contains_or_size_le_of_contains_perform {a : Action}
    (h : (d.perform a).contains n = true) : d.contains n = true ∨ d.slots.size ≤ n.index := by
  by_cases ha : a.IsRelinking
  · cases a with
    | create tag =>
      rw [perform, contains, node?_create] at h
      split at h
      · rename_i hn
        exact Or.inr (congrArg NodeId.index hn).ge
      · exact Or.inl h
    | append parent child => exact Or.inl ((keeps_append d parent child).contains n ▸ h)
    | removeChild parent child => exact Or.inl ((keeps_removeChild d parent child).contains n ▸ h)
    | remove id =>
      obtain ⟨removed, hprune⟩ := exists_prunes_remove d id
      exact Or.inl (hprune.contains (hprune.notMem_of_contains h) ▸ h)
    | _ => exact ha.elim
  · have hlinks := congrArg Option.isSome ((links_perform (d := d) ha).2 n)
    rw [Option.isSome_map, Option.isSome_map] at hlinks
    exact Or.inl (hlinks.symm.trans h)

/-- **One action** adds its events to those that account for what waits. -/
theorem Chronicle.perform (h : Chronicle n d events) (hd : d.ListenersIndexed) (a : Action) :
    Chronicle n (d.perform a) (events ++ eventsOf n d a) := by
  have hquiet : (∀ id component, a ≠ .bind id component) →
      (∀ id states, a ≠ .changeStates id states) → Chronicle n (d.perform a) (events ++ []) := by
    intro hbind hchange
    rw [List.append_nil]
    exact h.congr contains_or_size_le_of_contains_perform (waiting?_perform hbind hchange)
      (by rw [size_perform]; omega)
  cases a with
  | bind id component => exact h.bind id component
  | changeStates id states => exact h.changeStates hd id states
  | _ => exact hquiet nofun nofun

theorem Chronicle.performAll (h : Chronicle n d events) (hd : d.ListenersIndexed)
    (actions : List Action) :
    Chronicle n (d.performAll actions) (events ++ d.viewEvents n actions) := by
  induction actions generalizing d events with
  | nil => simpa [viewEvents, gathered, Document.performAll] using h
  | cons a rest ih =>
    have hrest := ih (h.perform hd a) (hd.perform a)
    rwa [List.append_assoc] at hrest

/-- **Updates are handed over once and in time.**  After any run of actions, the update that waits
on a node is the one that was addressed to it last, unless a view has received something since.  A
realized view that is bound to the node then receives that one update, or nothing.  Whatever a
view of the node has received, in the run, was addressed to the node just before.  The events are
the updates that the reports of the run called for and what views received, both in order. -/
theorem waiting?_eq_outstanding?_of_run (media : MediaEnvironment) (actions : List Action)
    (n : NodeId) :
    let d := (Document.new media).performAll actions
    let events := (Document.new media).viewEvents n actions
    (d.waiting? n = if d.contains n then outstanding? events else none) ∧
      (∀ component, (d.bind n component).2 =
        if d.contains n = true ∧ component.realized = true then
          (outstanding? events).toList.map (Delivery.mk n)
        else []) ∧
      (∀ before update after, events = before ++ handed update :: after →
        ∃ earlier, before = earlier ++ [addressed update]) ∧
      events.filterMap addressed? =
        updatesFor n ((Document.new media).gathered updatesOf actions) ∧
      events.filterMap handed? =
        received n ((Document.new media).gathered deliveriesOf actions) := by
  intro d events
  have h : Chronicle n d events :=
    (chronicle_new media n).performAll (listenersIndexed_new media) actions
  have hwaiting : d.waiting? n = if d.contains n then outstanding? events else none := by
    cases hc : d.contains n with
    | false => exact waiting?_of_not_contains hc
    | true => exact h.waiting hc
  refine ⟨hwaiting, fun component => ?_, h.prompt, filterMap_viewEvents _ actions⟩
  rw [deliveries_bind, hwaiting]
  cases d.contains n <;> cases component.realized <;> simp

/-- A run in which the view of a label is realized after it has been bound, is then taken away,
and another one is bound. -/
def rebindingRun : List Action :=
  [.addSheet (redSheet [activeButtonLabel]), .create "button", .append .root ⟨1⟩,
    .create "label", .append ⟨1⟩ ⟨2⟩, .restyleDirty, .bind ⟨2⟩ { realized := false },
    .changeStates ⟨1⟩ [("active", true)], .changeView ⟨2⟩ fun c => { c with realized := true },
    .changeStates ⟨1⟩ [("active", false)], .unbind ⟨2⟩, .changeStates ⟨1⟩ [("active", true)],
    .changeStates ⟨1⟩ [("active", false)], .bind ⟨2⟩ {}]

/-- Two updates are replaced by later ones before a view could receive them. -/
example : (Document.new.viewEvents ⟨2⟩ rebindingRun).map (·.handed?.isSome) =
    [false, false, true, false, false, true] := by
  decide +kernel

end Document
end StyleCascade
