import StyleCascade.Proofs.Sessions

/-!
# Every caller is told the result of its own call

In every session, whatever the order of its steps, the requests in their pipe are those of the
calls that have been made and not served (`queue`), and in the other pipe there is at most one
reply, the one the thread waits for (`Awaits`).  Every step keeps this
(`Connection.Coherent.exists_step`), and where no step is possible nothing is left in the pipes:
all calls have been made, the handler has been asked what they ask, in their order, and every
caller has been told what it should be (`Connection.settled_of_run`).
-/
namespace StyleCascade.Channel

variable {σ : Type}

/-- The start of a session. -/
def Session.start (state : σ) (calls : List DatedCall) : Session σ :=
  { ahead := calls, state }

/-- How a session should end. -/
structure Session.Settled (h : Handler σ) (state : σ) (calls : List DatedCall)
    (s : Session σ) : Prop where
  ahead_eq : s.ahead = []
  awaited_eq : s.awaited = none
  failure_eq : s.failure = none
  /-- Every caller has been told the result of its own call. -/
  outcomes_eq : s.outcomes = h.outcomes state calls
  /-- The handler has been asked what the delivered calls ask, in their order, and nothing else. -/
  state_eq : s.state = h.after state (asked (delivered calls))
  /-- No byte is left unread. -/
  requests_eq : s.requests.bytes = .empty
  replies_eq : s.replies.bytes = .empty

/-! ## The invariant -/

/-- What the thread waits for, with `queue` the calls that have still to be served, `replies` the
bytes of the replies that have still to be read, and `due` what the thread will be told next. -/
inductive Awaits (h : Handler σ) (state : σ) :
    Option Call → List DatedCall → ByteArray → List Outcome → Prop
  | nothing {queue : List DatedCall} (hasync : ∀ d ∈ queue, d.call.isSync = false) :
      Awaits h state none queue .empty []
  /-- The call has still to be served, after all others. -/
  | turn {front : List DatedCall} {d : DatedCall} (hasync : ∀ e ∈ front, e.call.isSync = false)
      (hsync : d.call.isSync = true) :
      Awaits h state (some d.call) (front ++ [d]) .empty
        [d.call.result (h.value (h.after state (asked front)) d.call)]
  /-- The reply has still to be read. -/
  | reply {call : Call} {payload : ByteArray} {outcome : Outcome}
      (hsize : payload.size ≤ Frame.limit)
      (houtcome : (Reply.decode payload).bind call.conclude = outcome) :
      Awaits h state (some call) [] (Frame.encode payload) [outcome]

namespace Awaits

variable {h : Handler σ} {state : σ} {queue rest : List DatedCall} {replies : ByteArray}
  {due : List Outcome} {call : Call} {d : DatedCall}

/-- A thread that waits for nothing. -/
theorem of_none (ha : Awaits h state none queue replies due) :
    (∀ d ∈ queue, d.call.isSync = false) ∧ replies = .empty ∧ due = [] := by
  cases ha with
  | nothing hasync => exact ⟨hasync, rfl, rfl⟩

/-- A reply that is there is the last one. -/
theorem queue_eq_nil (ha : Awaits h state (some call) queue replies due) (hne : replies ≠ .empty) :
    queue = [] := by
  cases ha with
  | turn => exact absurd rfl hne
  | reply => rfl

/-- A thread that waits when all calls have been served. -/
theorem of_served (ha : Awaits h state (some call) [] replies due) :
    ∃ payload, replies = Frame.encode payload ∧ payload.size ≤ Frame.limit ∧
      due = [(Reply.decode payload).bind call.conclude] := by
  generalize hqueue : [] = queue at ha
  cases ha with
  | turn => simp at hqueue
  | reply hsize houtcome => exact ⟨_, rfl, hsize, houtcome ▸ rfl⟩

/-- A call that does not wait is made behind others of that kind. -/
theorem make_async (ha : Awaits h state none queue replies due) (hasync : d.call.isSync = false) :
    Awaits h state none (queue ++ [d]) replies [] := by
  obtain ⟨hqueue, rfl, rfl⟩ := ha.of_none
  exact .nothing (List.forall_mem_append.mpr ⟨hqueue, by simpa using hasync⟩)

/-- A call that waits is made behind calls that do not. -/
theorem make_sync (ha : Awaits h state none queue replies due) (hsync : d.call.isSync = true) :
    Awaits h state (some d.call) (queue ++ [d]) replies
      [d.call.result (h.value (h.after state (asked queue)) d.call)] := by
  obtain ⟨hqueue, rfl, rfl⟩ := ha.of_none
  exact .turn hqueue hsync

/-- **Serving a call leaves every reply with its call.**  A call that does not wait gets none, and
the reply to one that does is the only one in the pipe. -/
theorem serve {awaited : Option Call} (ha : Awaits h state awaited (d :: rest) replies due)
    (hvalue : d.call.isSync = true → Reply.Sendable (h.value state d.call)) :
    Awaits h (h.after state d.call.handled?.toList) awaited rest
      (replies ++ Frame.joined ((h.awaited state d.request).map Reply.encode)) due := by
  -- The call that is waited for is the last of the queue: it is served, and replied to, exactly
  -- if no call stands before it.
  generalize hqueue : d :: rest = queue at ha
  cases ha with
  | nothing hasync =>
    subst hqueue
    obtain ⟨hd, hrest⟩ := List.forall_mem_cons.mp hasync
    rw [Handler.awaited_of_async hd]
    exact .nothing hrest
  | @turn front e hasync hsync =>
    cases front with
    | nil =>
      obtain ⟨rfl, rfl⟩ := List.cons.inj hqueue
      rw [Handler.awaited_of_sync hsync, List.map_singleton, Frame.joined, Frame.joined,
        ByteArray.append_empty, ByteArray.empty_append]
      exact .reply (size_encode_replyTo_le (hvalue hsync)) (conclude_replyTo (hvalue hsync))
    | cons first front =>
      obtain ⟨rfl, rfl⟩ := List.cons.inj hqueue
      obtain ⟨hd, hfront⟩ := List.forall_mem_cons.mp hasync
      rw [Handler.awaited_of_async hd, Handler.after_asked_cons]
      exact .turn hfront hsync
  | reply => cases hqueue

end Awaits

namespace Connection

variable {c : Connection σ} {state : σ} {calls : List DatedCall} {s t : Session σ}
  {queue : List DatedCall} {due : List Outcome}

/-- A session that has started with these calls.  What the callers have been told, what the thread
will be told next and what the calls ahead come to are together the outcomes of all calls, and so
it is with what the handler has been asked. -/
structure Coherent (c : Connection σ) (state : σ) (calls : List DatedCall) (s : Session σ)
    (queue : List DatedCall) (due : List Outcome) : Prop where
  requests_eq : s.requests.bytes = Frame.joined (queue.map DatedCall.payload)
  fits : ∀ d ∈ queue, d.Fits
  sendable : ∀ d ∈ queue ++ s.ahead, d.call.Sendable
  answers : c.handler.Answers s.state (queue ++ delivered s.ahead)
  exists_served : ∃ served, served ++ asked (queue ++ delivered s.ahead) = asked (delivered calls) ∧
    s.state = c.handler.after state served
  awaits : Awaits c.handler s.state s.awaited queue s.replies.bytes due
  told_eq : s.outcomes ++ (due ++
    c.handler.outcomes (c.handler.after s.state (asked queue)) s.ahead) =
      c.handler.outcomes state calls
  failure_eq : s.failure = none

theorem coherent_start (hcalls : ∀ d ∈ calls, d.call.Sendable)
    (hvalues : c.handler.Answers state (delivered calls)) :
    c.Coherent state calls (.start state calls) [] [] where
  requests_eq := rfl
  fits := by simp
  sendable := hcalls
  answers := hvalues
  exists_served := ⟨[], rfl, rfl⟩
  awaits := .nothing (by simp)
  told_eq := rfl
  failure_eq := rfl

namespace Coherent

/-! ### Steps of the thread -/

/-- A call that is made goes to the end of the queue. -/
theorem make (hs : c.Coherent state calls s queue due) {d : DatedCall} {rest : List DatedCall}
    (hahead : s.ahead = d :: rest) (hfree : s.awaited = none) :
    ∃ queue due, c.Coherent state calls (c.make s d rest) queue due := by
  obtain ⟨hrequests, hfits, hsendable, hanswers, hserved, hawaits, htold, hfailure⟩ := hs
  rw [hahead] at hsendable hanswers hserved htold
  rw [hfree] at hawaits
  obtain ⟨-, -, rfl⟩ := hawaits.of_none
  by_cases hd : d.Fits
  · have hbytes : ({ s.requests with
        unsent := s.requests.unsent ++ Frame.encode d.payload } : Pipe).bytes =
        Frame.joined ((queue ++ [d]).map DatedCall.payload) := by
      rw [Pipe.bytes_append_unsent, hrequests, List.map_append, Frame.joined_append,
        List.map_singleton, Frame.joined, Frame.joined, ByteArray.append_empty]
    rw [delivered_cons_of_fits hd, List.append_cons] at hanswers hserved
    rw [List.append_cons] at hsendable
    rw [Handler.outcomes, if_pos hd, ← Handler.after_asked_concat] at htold
    have hfits : ∀ e ∈ queue ++ [d], e.Fits :=
      List.forall_mem_append.mpr ⟨hfits, by simpa using hd⟩
    cases hsync : d.call.isSync with
    | false =>
      rw [c.make_of_async hd hsync]
      rw [Call.result_of_async hsync] at htold
      refine ⟨queue ++ [d], [], hbytes, hfits, hsendable, hanswers, hserved,
        hfree ▸ hawaits.make_async hsync, ?_, hfailure⟩
      simpa using htold
    | true =>
      rw [c.make_of_sync hd hsync]
      exact ⟨queue ++ [d], _, hbytes, hfits, hsendable, hanswers, hserved,
        hawaits.make_sync hsync, htold, hfailure⟩
  · rw [c.make_of_not_fits hd]
    rw [delivered_cons_of_not_fits hd] at hanswers hserved
    rw [Handler.outcomes, if_neg hd] at htold
    refine ⟨queue, [], hrequests, hfits, ?_, hanswers, hserved, hfree ▸ hawaits, ?_, hfailure⟩
    · exact fun e he =>
        hsendable e (((List.sublist_cons_self d rest).append_left queue).subset he)
    · simpa using htold

/-- A reply that has arrived is the one the thread waits for. -/
theorem receive (hs : c.Coherent state calls s queue due) {call : Call}
    (hwaits : s.awaited = some call) (hready : Frame.Ready s.replies.source) :
    ∃ queue due, c.Coherent state calls (c.receive s call) queue due := by
  obtain ⟨hrequests, hfits, hsendable, hanswers, hserved, hawaits, htold, hfailure⟩ := hs
  rw [hwaits] at hawaits
  have hne : s.replies.bytes ≠ .empty := by
    intro hempty
    have hnone : s.replies.bytes = Frame.joined [] := hempty
    obtain ⟨_, _, _, hnil, -⟩ := Frame.exists_read_of_ready (by simp) rfl hnone hready
    cases hnil
  obtain rfl := hawaits.queue_eq_nil hne
  obtain ⟨payload, hreply, hsize, rfl⟩ := hawaits.of_served
  have hjoined : s.replies.bytes = Frame.joined [payload] :=
    hreply.trans ByteArray.append_empty.symm
  obtain ⟨_, _, source, hpayload, hread, hrest, -⟩ :=
    Frame.exists_read_of_ready (by simpa using hsize) rfl hjoined hready
  obtain ⟨rfl, rfl⟩ := List.cons.inj hpayload
  have hreceive := Sender.receive_of_read (s := c.sender s) hread call
  rw [Connection.receive, hreceive]
  refine ⟨[], [], hrequests, hfits, hsendable, hanswers, hserved, ?_, ?_, hfailure⟩
  · show Awaits c.handler s.state none []
      (source.bytes ++ (s.replies.inFlight ++ s.replies.unsent)) []
    rw [hrest]
    exact .nothing (by simp)
  · simpa using htold

/-! ### Steps of the receiver -/

/-- A request that has arrived is that of the first call of the queue. -/
theorem serve (hs : c.Coherent state calls s queue due) (hready : Frame.Ready s.requests.source) :
    ∃ queue due, c.Coherent state calls (c.serve s) queue due := by
  obtain ⟨hrequests, hfits, hsendable, hanswers, hserved, hawaits, htold, hfailure⟩ := hs
  have hsizes : ∀ payload ∈ queue.map DatedCall.payload, payload.size ≤ Frame.limit := by
    simpa [DatedCall.Fits] using hfits
  obtain ⟨payload, more, source, hqueue, hread, hrest, -⟩ :=
    Frame.exists_read_of_ready hsizes rfl hrequests hready
  obtain ⟨d, rest, rfl, rfl, rfl⟩ := List.map_eq_cons_iff.mp hqueue
  obtain ⟨hvalue, hanswers⟩ := hanswers
  have hserve := Receiver.serve_payload (r := c.receiver s) rfl
    (hsendable d List.mem_cons_self) hvalue
  rw [c.serve_of_read hread, hserve]
  refine ⟨rest, due, hrest, (List.forall_mem_cons.mp hfits).2,
    (List.forall_mem_cons.mp hsendable).2, hanswers, ?_, ?_, ?_, rfl⟩
  · obtain ⟨served, hall, hstate⟩ := hserved
    refine ⟨served ++ d.call.handled?.toList, ?_, ?_⟩
    · rw [← hall, List.cons_append, asked_cons, List.append_assoc]
    · rw [Handler.after_append, ← hstate]
      rfl
  · show Awaits _ _ s.awaited rest
      ({ s.replies with unsent := s.replies.unsent ++ _ } : Pipe).bytes due
    rw [Pipe.bytes_append_unsent]
    exact hawaits.serve hvalue
  · rw [Handler.after_asked_cons] at htold
    exact htold

/-- **Every step keeps the requests and the replies in their places.** -/
theorem exists_step (hs : c.Coherent state calls s queue due) (h : c.Step s t) :
    ∃ queue due, c.Coherent state calls t queue due := by
  cases h with
  | make hahead hfree => exact hs.make hahead hfree
  | carryRequests hmoves =>
    exact ⟨queue, due, { hs with requests_eq := hmoves.bytes_eq.trans hs.requests_eq }⟩
  | serve _ _ hready => exact hs.serve hready
  | carryReplies hmoves =>
    exact ⟨queue, due, { hs with awaits := hmoves.bytes_eq ▸ hs.awaits }⟩
  | receive hwaits _ hready => exact hs.receive hwaits hready

theorem exists_steps (hs : c.Coherent state calls s queue due)
    (h : Relation.ReflTransGen c.Step s t) : ∃ queue due, c.Coherent state calls t queue due := by
  induction h with
  | refl => exact ⟨queue, due, hs⟩
  | tail _ hstep ih =>
    obtain ⟨queue, due, ht⟩ := ih
    exact ht.exists_step hstep

/-! ### Where no step is possible -/

/-- **A session stops only when everything is done.** -/
theorem done_of_stuck (hs : c.Coherent state calls s queue due) (hstuck : ∀ t, ¬c.Step s t) :
    s.ahead = [] ∧ s.awaited = none ∧ queue = [] ∧ due = [] ∧ s.requests.bytes = .empty ∧
      s.replies.bytes = .empty := by
  obtain ⟨hrequests, hreplies, hrequestsSent, hrepliesSent⟩ := c.arrived_of_stuck hstuck
  -- Whatever is in the pipes has arrived, so a call in the queue could be served.
  have hqueue : queue = [] := by
    cases hq : queue with
    | nil => rfl
    | cons d rest =>
      have hbytes := hs.requests_eq
      rw [hq, hrequests, List.map_cons, Frame.joined] at hbytes
      have hd := hs.fits d (hq ▸ List.mem_cons_self)
      exact absurd (.serve hs.failure_eq hrepliesSent (Frame.ready_of_bytes_eq hd hbytes))
        (hstuck _)
  have hawaits := hs.awaits
  rw [hqueue] at hawaits
  -- With all calls served, a thread that still waits has its reply before it.
  have hidle : s.awaited = none := by
    cases hwaits : s.awaited with
    | none => rfl
    | some call =>
      rw [hwaits] at hawaits
      obtain ⟨payload, hreply, hsize, -⟩ := hawaits.of_served
      rw [hreplies, ← ByteArray.append_empty (b := Frame.encode payload)] at hreply
      exact absurd (.receive hwaits hrequestsSent (Frame.ready_of_bytes_eq hsize hreply))
        (hstuck _)
  rw [hidle] at hawaits
  obtain ⟨-, hempty, hdue⟩ := hawaits.of_none
  have hahead : s.ahead = [] := by
    cases hahead : s.ahead with
    | nil => rfl
    | cons d rest => exact absurd (.make hahead hidle hrequestsSent) (hstuck _)
  refine ⟨hahead, hidle, hqueue, hdue, ?_, hempty⟩
  rw [hs.requests_eq, hqueue]
  rfl

end Coherent

/-- **Every caller is told the result of its own call.**  No session goes on for ever.  At any time
the callers have been told the first of the outcomes that the calls come to, the handler has been
asked the first of what they ask, and no reply is there that nobody waits for.  Where no step is
possible all callers have been told, the handler has been asked all of it, once and in the order of
the calls, and no byte is left unread.  A call that is too large is refused without a byte being
written. -/
theorem settled_of_run (c : Connection σ) {state : σ} {calls : List DatedCall}
    (hcalls : ∀ d ∈ calls, d.call.Sendable)
    (hvalues : c.handler.Answers state (delivered calls)) :
    (∀ run : Nat → Session σ, ∃ n, ¬c.Step (run n) (run (n + 1))) ∧
      ∀ s, Relation.ReflTransGen c.Step (.start state calls) s →
        s.outcomes <+: c.handler.outcomes state calls ∧
        (∃ served, served <+: asked (delivered calls) ∧ s.state = c.handler.after state served) ∧
        (s.awaited = none → s.replies.bytes = .empty) ∧
        ((∀ t, ¬c.Step s t) → s.Settled c.handler state calls) ∧
        ∀ d rest, ¬d.Fits → c.make s d rest = { s with
          ahead := rest
          outcomes := s.outcomes ++ [.error (.frameTooLarge d.payload.size)] } := by
  refine ⟨c.exists_not_step, fun s hrun => ?_⟩
  obtain ⟨queue, due, hs⟩ := (coherent_start hcalls hvalues).exists_steps hrun
  obtain ⟨served, hall, hstate⟩ := hs.exists_served
  refine ⟨⟨_, hs.told_eq⟩, ⟨served, ⟨_, hall⟩, hstate⟩,
    fun hidle => (hidle ▸ hs.awaits).of_none.2.1, fun hstuck => ?_,
    fun d rest h => c.make_of_not_fits h rest⟩
  obtain ⟨hahead, hawaited, hqueue, hdue, hrequests, hreplies⟩ := hs.done_of_stuck hstuck
  refine ⟨hahead, hawaited, hs.failure_eq, ?_, ?_, hrequests, hreplies⟩
  · have htold := hs.told_eq
    rw [hahead, hdue, List.nil_append, Handler.outcomes, List.append_nil] at htold
    exact htold
  · rw [hahead, hqueue, List.nil_append] at hall
    rw [hstate, ← hall]
    exact congrArg _ (List.append_nil served).symm

/-- A call with more arguments than a message may have bytes. -/
@[irreducible]
def largeCall : DatedCall :=
  ⟨4, .sync .executeScript (List.replicate Frame.limit .null)⟩

theorem not_fits_largeCall : ¬largeCall.Fits := by
  have hlength := Invocation.length_args_lt_size_encode largeCall.request
  have hargs : largeCall.request.args.length = Frame.limit := by
    unfold largeCall
    exact List.length_replicate
  rw [hargs] at hlength
  exact Nat.not_le_of_lt hlength

/-- Calls of every kind, one of which is given a reply of the wrong type and one of which fails in
the handler. -/
def smallCalls : List DatedCall := [
  ⟨0, .heartBeat⟩,
  ⟨1, .async .destroyPage [.integer 7]⟩,
  ⟨2, .typed .bool .executeScript [.string "1"]⟩,
  ⟨3, .sync .menuPressPage []⟩,
  ⟨5, .sync .executeScript [.null]⟩,
  ⟨6, .typed .int64 .executeScript [.integer (-1)]⟩]

/-- A connection whose pipes hold a single byte. -/
def narrow : Connection (List (Method × List Json)) where
  handler := Handler.recorder
  owner := 7
  requestCapacity := 1
  replyCapacity := 1
  requestCapacity_pos := by decide
  replyCapacity_pos := by decide

theorem fits_smallCalls : ∀ d ∈ smallCalls, d.Fits := by
  decide +kernel

theorem sendable_smallCalls : ∀ d ∈ smallCalls, d.call.Sendable := by
  have hargs : ∀ v ∈ smallCalls.flatMap (·.call.args), v.Plain ∧ v.depth ≤ 125 := by
    have h7 : (Json.integer 7).Plain := .integer (by decide) (by decide)
    have hone : (Json.integer (-1)).Plain := .integer (by decide) (by decide)
    simpa [smallCalls, Call.args, Json.depth] using ⟨h7, .string "1", .null, hone⟩
  intro d hd
  have hmem : ∀ v ∈ d.call.args, v ∈ smallCalls.flatMap (·.call.args) := fun v hv =>
    List.mem_flatMap.mpr ⟨d, hd, hv⟩
  exact ⟨fun v hv => (hargs v (hmem v hv)).1, fun v hv => (hargs v (hmem v hv)).2⟩

theorem answers_smallCalls : narrow.handler.Answers [] smallCalls := by
  have hnone : Reply.Sendable none := ⟨by simp, by simp, by decide⟩
  have htrue : Reply.Sendable (some (.bool true)) :=
    ⟨by simpa using .bool true, by simp [Json.depth], by decide +kernel⟩
  have hone : Reply.Sendable (some (.string "1")) :=
    ⟨by simpa using .string "1", by simp [Json.depth], by decide +kernel⟩
  have hminus : Reply.Sendable (some (.integer (-1))) :=
    ⟨by simpa using .integer (by decide) (by decide), by simp [Json.depth], by decide +kernel⟩
  simp only [smallCalls, Handler.Answers]
  exact ⟨fun _ => htrue, fun h => absurd h (by decide), fun _ => hone, fun _ => hnone,
    fun _ => hnone, fun _ => hminus, trivial⟩

theorem settled_of_run_largeCall :
    ∃ s, Relation.ReflTransGen narrow.Step (.start [] (largeCall :: smallCalls)) s ∧
      (∀ t, ¬narrow.Step s t) ∧
      s.outcomes = [.error (.frameTooLarge largeCall.payload.size), .ok (some (.bool true)),
        .ok none, .error (.codec .unfit), .ok none, .ok none, .ok (some (.integer (-1)))] ∧
      s.state = [(.destroyPage, [.integer 7]), (.executeScript, [.string "1"]),
        (.menuPressPage, []), (.executeScript, [.null]), (.executeScript, [.integer (-1)])] ∧
      s.replies.bytes = .empty := by
  have hlarge : ∀ v ∈ largeCall.call.args, v = .null := fun v hv => by
    rw [largeCall, Call.args] at hv
    exact List.eq_of_mem_replicate hv
  have hcalls : ∀ d ∈ largeCall :: smallCalls, d.call.Sendable := by
    refine List.forall_mem_cons.mpr ⟨⟨fun v hv => ?_, fun v hv => ?_⟩, sendable_smallCalls⟩
    · rw [hlarge v hv]
      exact .null
    · rw [hlarge v hv]
      exact Nat.zero_le _
  have hdelivered : delivered (largeCall :: smallCalls) = smallCalls := by
    rw [delivered_cons_of_not_fits not_fits_largeCall, delivered, List.filter_eq_self]
    simpa using fits_smallCalls
  have hvalues : narrow.handler.Answers [] (delivered (largeCall :: smallCalls)) := by
    rw [hdelivered]
    exact answers_smallCalls
  obtain ⟨s, hrun, hstuck⟩ := narrow.exists_stuck (.start [] (largeCall :: smallCalls))
  have hs := ((settled_of_run narrow hcalls hvalues).2 s hrun).2.2.2.1 hstuck
  refine ⟨s, hrun, hstuck, ?_, ?_, hs.replies_eq⟩
  · have hfits := fits_smallCalls
    simp only [smallCalls, List.forall_mem_cons] at hfits
    rw [hs.outcomes_eq]
    simp only [Handler.outcomes, if_neg not_fits_largeCall, smallCalls, hfits, if_true]
    rfl
  · rw [hs.state_eq, hdelivered]
    rfl

end Connection
end StyleCascade.Channel
