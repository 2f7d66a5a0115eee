import Mathlib.Data.Prod.Lex
import Mathlib.Logic.Relation
import Mathlib.Order.WellFounded
import StyleCascade.Proofs.Conversations
import StyleCascade.Proofs.Pipes

/-!
# Sessions

A session is a sender and a receiver at work at the same time, joined by two pipes, and a list
of calls that the sender's thread makes one after the other.  Its steps (`Connection.Step`) come
in any order that the waiting on either side leaves open: a side that has bytes to hand over
waits until they are on their way, and a side that reads waits until a whole message is there.

No session goes on for ever (`Connection.wellFounded_step`): every step makes a call, ends a
wait, breaks the receiver, takes a request in or brings bytes nearer to their reader.
-/
namespace StyleCascade.Channel

variable {σ : Type}

/-- How a sender and a receiver are joined. -/
structure Connection (σ : Type) where
  handler : Handler σ
  /-- The thread that the sender belongs to, and that makes the calls. -/
  owner : Nat
  /-- How many bytes the pipes hold on their way. -/
  requestCapacity : Nat
  replyCapacity : Nat
  requestCapacity_pos : 0 < requestCapacity
  replyCapacity_pos : 0 < replyCapacity

structure Session (σ : Type) where
  /-- The calls that have still to be made. -/
  ahead : List DatedCall
  /-- The call whose reply the thread waits for. -/
  awaited : Option Call := none
  /-- What the thread has been told, in the order of the calls. -/
  outcomes : List Outcome := []
  requests : Pipe := {}
  replies : Pipe := {}
  /-- The state of the handler. -/
  state : σ
  /-- What the receiver has failed with. -/
  failure : Option Error := none

namespace Connection

variable (c : Connection σ)

/-- The sender, whose requests go into one pipe and whose replies come out of the other. -/
def sender (s : Session σ) : Sender where
  owner := c.owner
  requests := { written := s.requests.unsent }
  replies := s.replies.source

/-- The receiver, which writes its replies into a pipe. -/
def receiver (s : Session σ) : Receiver σ where
  handler := c.handler
  state := s.state
  replies := { written := s.replies.unsent }

/-! ## What the two sides do -/

/-- The thread makes a call, and waits if the call asks for a reply. -/
def make (s : Session σ) (d : DatedCall) (rest : List DatedCall) : Session σ :=
  let (result, sender) := (c.sender s).send c.owner d.time d.call
  let s := { s with ahead := rest, requests.unsent := sender.requests.written }
  match result with
  | .error e => { s with outcomes := s.outcomes ++ [.error e] }
  | .ok () =>
    if d.call.isSync then { s with awaited := some d.call }
    else { s with outcomes := s.outcomes ++ [.ok none] }

/-- The receiver reads a message and serves it: a turn of its loop (`Receiver.run_eq`). -/
def serve (s : Session σ) : Session σ :=
  let (message, source) := Frame.read s.requests.source
  let s := { s with requests.arrived := source.chunks }
  match message with
  | .error e => { s with failure := some e }
  | .ok payload =>
    let (result, receiver) := (c.receiver s).serve payload
    { s with
      state := receiver.state
      replies.unsent := receiver.replies.written
      failure := match result with
        | .ok () => none
        | .error e => some e }

/-- The thread reads the next message as the reply to its call. -/
def receive (s : Session σ) (call : Call) : Session σ :=
  let (result, sender) := (c.sender s).receive call
  { s with
    awaited := none
    outcomes := s.outcomes ++ [result]
    replies.arrived := sender.replies.chunks }

/-- A step of one of the sides, or of a pipe. -/
inductive Step : Session σ → Session σ → Prop
  | make {s : Session σ} {d : DatedCall} {rest : List DatedCall} (hahead : s.ahead = d :: rest)
      (hfree : s.awaited = none) (hsent : s.requests.unsent = .empty) :
      Step s (c.make s d rest)
  | carryRequests {s : Session σ} {pipe : Pipe}
      (hmoves : Pipe.Moves c.requestCapacity s.requests pipe) : Step s { s with requests := pipe }
  | serve {s : Session σ} (halive : s.failure = none) (hsent : s.replies.unsent = .empty)
      (hready : Frame.Ready s.requests.source) : Step s (c.serve s)
  | carryReplies {s : Session σ} {pipe : Pipe}
      (hmoves : Pipe.Moves c.replyCapacity s.replies pipe) : Step s { s with replies := pipe }
  | receive {s : Session σ} {call : Call} (hwaits : s.awaited = some call)
      (hsent : s.requests.unsent = .empty) (hready : Frame.Ready s.replies.source) :
      Step s (c.receive s call)

/-! ## Single steps -/

/-- A call that waits for a reply and fits puts its message into the pipe. -/
theorem make_of_sync {s : Session σ} {d : DatedCall} (hfits : d.Fits)
    (hsync : d.call.isSync = true) (rest : List DatedCall) :
    c.make s d rest = { s with
      ahead := rest
      awaited := some d.call
      requests.unsent := s.requests.unsent ++ Frame.encode d.payload } := by
  have hsend : (c.sender s).send c.owner d.time d.call = _ := Sender.send_of_fits rfl hfits
  rw [make, hsend]
  exact if_pos hsync

/-- A call that waits for nothing and fits does so too, and is over. -/
theorem make_of_async {s : Session σ} {d : DatedCall} (hfits : d.Fits)
    (hasync : d.call.isSync = false) (rest : List DatedCall) :
    c.make s d rest = { s with
      ahead := rest
      outcomes := s.outcomes ++ [.ok none]
      requests.unsent := s.requests.unsent ++ Frame.encode d.payload } := by
  have hsend : (c.sender s).send c.owner d.time d.call = _ := Sender.send_of_fits rfl hfits
  rw [make, hsend]
  exact if_neg (by simp [hasync])

/-- A call that does not fit is refused.  It puts no byte into the pipe. -/
theorem make_of_not_fits {s : Session σ} {d : DatedCall} (h : ¬d.Fits) (rest : List DatedCall) :
    c.make s d rest = { s with
      ahead := rest
      outcomes := s.outcomes ++ [.error (.frameTooLarge d.payload.size)] } := by
  have hsend : (c.sender s).send c.owner d.time d.call = _ := Sender.send_of_not_fits h
  rw [make, hsend]
  rfl

theorem ahead_make (s : Session σ) (d : DatedCall) (rest : List DatedCall) :
    (c.make s d rest).ahead = rest := by
  by_cases hfits : d.Fits
  · cases hsync : d.call.isSync with
    | false => rw [c.make_of_async hfits hsync]
    | true => rw [c.make_of_sync hfits hsync]
  · rw [c.make_of_not_fits hfits]

/-- What the receiver does with a message of an allowed size. -/
theorem serve_of_read {s : Session σ} {payload : ByteArray} {source : Source}
    (hread : Frame.read s.requests.source = (.ok payload, source)) :
    c.serve s =
      let (result, receiver) := (c.receiver s).serve payload
      { s with
        requests.arrived := source.chunks
        state := receiver.state
        replies.unsent := receiver.replies.written
        failure := match result with
          | .ok () => none
          | .error e => some e } := by
  rw [serve, hread]
  rfl

/-! ## Every session ends -/

/-- Reading a message leaves fewer bytes to be read. -/
theorem size_bytes_lt_of_read {p : Pipe} {payload : ByteArray} {source : Source}
    (hread : Frame.read p.source = (.ok payload, source)) :
    ({ p with arrived := source.chunks } : Pipe).bytes.size < p.bytes.size := by
  have hless := Frame.size_lt_of_read hread
  rw [← Source.size_bytes, ← Source.size_bytes] at hless
  have hchunks : (⟨source.chunks, .closed⟩ : Source).bytes = source.bytes := rfl
  simp only [Pipe.bytes, Pipe.source, ByteArray.size_append, hchunks] at hless ⊢
  omega

/-- What is left to be done, the most important first: the calls that have to be made, the wait
that has to end, whether the receiver can still break, the requests it has to take in, and the
way of the bytes. -/
def remaining (s : Session σ) : Nat ×ₗ Nat ×ₗ Nat ×ₗ Nat ×ₗ Nat :=
  toLex (s.ahead.length, toLex (s.awaited.toList.length, toLex (1 - s.failure.toList.length,
    toLex (s.requests.bytes.size, s.requests.distance + s.replies.distance))))

theorem remaining_serve_lt {s : Session σ} (halive : s.failure = none) :
    remaining (c.serve s) < remaining s := by
  cases hread : Frame.read s.requests.source with
  | mk message source =>
    cases message with
    | error e =>
      rw [serve, hread]
      simp [remaining, Prod.Lex.toLex_lt_toLex, halive]
    | ok payload =>
      have hless := size_bytes_lt_of_read hread
      rw [c.serve_of_read hread]
      cases hserve : (c.receiver s).serve payload with
      | mk result receiver =>
        cases result with
        | ok => simp [remaining, Prod.Lex.toLex_lt_toLex, halive, hless]
        | error e => simp [remaining, Prod.Lex.toLex_lt_toLex, halive]

theorem remaining_lt_of_step {s t : Session σ} (h : c.Step s t) : remaining t < remaining s := by
  -- Each step lowers one place of the measure, and raises at most the ones after it: a request
  -- that is taken in may put a reply into the other pipe, but only the last place counts those.
  cases h with
  | make hahead =>
    simp only [remaining, Prod.Lex.toLex_lt_toLex, c.ahead_make, hahead, List.length_cons]
    omega
  | carryRequests hmoves =>
    have hless := hmoves.distance_lt
    simp [remaining, Prod.Lex.toLex_lt_toLex, hmoves.bytes_eq, hless]
  | serve halive => exact c.remaining_serve_lt halive
  | carryReplies hmoves =>
    have hless := hmoves.distance_lt
    simp [remaining, Prod.Lex.toLex_lt_toLex, hless]
  | receive hwaits => simp [remaining, Prod.Lex.toLex_lt_toLex, receive, hwaits]

/-- **No session goes on for ever.** -/
theorem wellFounded_step : WellFounded fun t s => c.Step s t :=
  Subrelation.wf c.remaining_lt_of_step (InvImage.wf remaining wellFounded_lt)

theorem exists_not_step (run : Nat → Session σ) : ∃ n, ¬c.Step (run n) (run (n + 1)) := by
  have : IsWellFounded (Session σ) fun t s => c.Step s t := ⟨c.wellFounded_step⟩
  exact WellFounded.not_rel_apply_succ (r := fun t s => c.Step s t) run

/-- Every session comes to a point where no step is possible. -/
theorem exists_stuck (s : Session σ) :
    ∃ t, Relation.ReflTransGen c.Step s t ∧ ∀ u, ¬c.Step t u := by
  induction s using c.wellFounded_step.induction with
  | h s ih =>
    by_cases hstuck : ∀ u, ¬c.Step s u
    · exact ⟨s, .refl, hstuck⟩
    · obtain ⟨u, hstep⟩ := not_forall_not.mp hstuck
      obtain ⟨t, hrun, ht⟩ := ih u hstep
      exact ⟨t, .head hstep hrun, ht⟩

/-- Where no step is possible, all bytes have arrived. -/
theorem arrived_of_stuck {s : Session σ} (hstuck : ∀ t, ¬c.Step s t) :
    s.requests.bytes = s.requests.source.bytes ∧ s.replies.bytes = s.replies.source.bytes ∧
      s.requests.unsent = .empty ∧ s.replies.unsent = .empty := by
  have hrequests : s.requests.unsent = .empty ∧ s.requests.inFlight = .empty := by
    by_contra h
    obtain ⟨pipe, hmoves⟩ := Pipe.exists_moves c.requestCapacity_pos _ h
    exact hstuck _ (.carryRequests hmoves)
  have hreplies : s.replies.unsent = .empty ∧ s.replies.inFlight = .empty := by
    by_contra h
    obtain ⟨pipe, hmoves⟩ := Pipe.exists_moves c.replyCapacity_pos _ h
    exact hstuck _ (.carryReplies hmoves)
  exact ⟨Pipe.bytes_of_arrived hrequests.1 hrequests.2, Pipe.bytes_of_arrived hreplies.1 hreplies.2,
    hrequests.1, hreplies.1⟩

end Connection
end StyleCascade.Channel
