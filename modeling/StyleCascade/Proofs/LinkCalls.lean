import StyleCascade.Channel.Link
import StyleCascade.Proofs.Conversations
import StyleCascade.Proofs.Pipes

/-!
# Calls over a link

A link lets the receiver serve each call as soon as it is sent.  Between two calls it is at rest
(`Link.AtRest`), and a call leaves it at rest (`Link.AtRest.call`); so a sequence of calls comes to
what it should (`Link.AtRest.callEach`), as it does in a session where both sides work at the same
time.
-/
namespace StyleCascade.Channel

variable {σ : Type}

namespace Receiver

/-- A receiver that finds nothing ends well. -/
theorem run_of_bytes_eq_empty (r : Receiver σ) {source : Source} (hbytes : source.bytes = .empty)
    (hending : source.ending = .closed) : r.run source = (.ok (), r) := by
  have hshort : source.bytes.size < 4 := by rw [hbytes]; decide
  obtain ⟨rest, hread⟩ := Source.exists_read_of_size_lt hshort
  rw [run_eq, Frame.read, hread, hending]
  rfl

/-- A receiver that finds a single message serves it, and ends as that ends. -/
theorem run_of_bytes_eq_encode (r : Receiver σ) {source : Source} {payload : ByteArray}
    (hsize : payload.size ≤ Frame.limit) (hbytes : source.bytes = Frame.encode payload)
    (hending : source.ending = .closed) : r.run source = r.serve payload := by
  rw [← ByteArray.append_empty (b := Frame.encode payload)] at hbytes
  obtain ⟨rest, hread, hrest, hend⟩ := Frame.exists_read_of_bytes_eq hsize hbytes
  rw [run_eq, hread]
  simp only
  cases hserve : r.serve payload with
  | mk result next =>
    cases result with
    | error e => rfl
    | ok => exact next.run_of_bytes_eq_empty hrest (hend.trans hending)

end Receiver

namespace Link

/-- A link with nothing on its way. -/
structure AtRest (l : Link σ) : Prop where
  requests_eq : l.sender.requests.written = .empty
  requests_room : l.sender.requests.room = none
  replies_eq : l.sender.replies.bytes = .empty
  replies_ending : l.sender.replies.ending = .closed
  written_eq : l.receiver.replies.written = .empty
  written_room : l.receiver.replies.room = none
  failure_eq : l.failure = none

variable {l : Link σ} {d : DatedCall}

/-- A call that does not fit leaves the link as it is. -/
theorem call_of_not_fits (h : ¬d.Fits) :
    l.call l.sender.owner d.time d.call = (.error (.frameTooLarge d.payload.size), l) := by
  rw [call, Sender.send_of_not_fits h]

/-- What a link does with a request: its receiver serves it, and what it replies is there to be
read. -/
theorem AtRest.exchange (hl : l.AtRest) (hfits : d.Fits) (hcall : d.call.Sendable)
    (hvalue : d.call.isSync = true →
      Reply.Sendable (l.receiver.handler.value l.receiver.state d.call)) :
    { l with sender.requests.written := Frame.encode d.payload }.exchange = { l with
      sender.replies.chunks := l.sender.replies.chunks ++ [Frame.joined
        ((l.receiver.handler.awaited l.receiver.state d.request).map Reply.encode)]
      receiver.state := l.receiver.handler.after l.receiver.state d.call.handled?.toList } := by
  have hserve := Receiver.serve_payload hl.written_room hcall hvalue
  have hbytes : (⟨[Frame.encode d.payload], .closed⟩ : Source).bytes = Frame.encode d.payload :=
    ByteArray.append_empty
  rw [← l.receiver.run_of_bytes_eq_encode hfits hbytes rfl, hl.written_eq,
    ByteArray.empty_append] at hserve
  obtain ⟨⟨owner, ⟨sent, room, refusal⟩, replies⟩, ⟨handler, state, ⟨written, _, _⟩⟩, failure⟩ := l
  obtain ⟨hsent, -, -, -, hwritten, -, hfailure⟩ := hl
  simp only at hsent hwritten hfailure hserve
  subst hsent hwritten hfailure
  simp only [Link.exchange, hserve, Option.isSome_none, Bool.false_eq_true, if_false]

/-- **A call over a link comes to what it should, and leaves the link at rest.** -/
theorem AtRest.call (hl : l.AtRest) (hfits : d.Fits) (hcall : d.call.Sendable)
    (hvalue : d.call.isSync = true →
      Reply.Sendable (l.receiver.handler.value l.receiver.state d.call)) :
    ∃ next, l.call l.sender.owner d.time d.call =
        (d.call.result (l.receiver.handler.value l.receiver.state d.call), next) ∧
      next.AtRest ∧ next.sender.owner = l.sender.owner ∧
      next.receiver.handler = l.receiver.handler ∧
      next.receiver.state = l.receiver.handler.after l.receiver.state d.call.handled?.toList := by
  have hsend := Sender.send_of_fits hl.requests_room hfits
  rw [hl.requests_eq, ByteArray.empty_append] at hsend
  have hexchange := hl.exchange hfits hcall hvalue
  rw [Link.call, hsend]
  simp only [hexchange]
  cases hsync : d.call.isSync with
  | false =>
    rw [Call.result_of_async hsync, Sender.await, if_neg (by simp [hsync])]
    refine ⟨_, rfl, { hl with replies_eq := ?_ }, rfl, rfl, rfl⟩
    rw [Handler.awaited_of_async hsync]
    exact (Source.bytes_concat ..).trans (ByteArray.append_empty.trans hl.replies_eq)
  | true =>
    rw [Handler.awaited_of_sync hsync, Sender.await, if_pos hsync, List.map_singleton]
    generalize hreply : l.receiver.handler.replyTo l.receiver.state d.request = reply
    have hbytes : (⟨l.sender.replies.chunks ++ [Frame.joined [Reply.encode reply]],
        l.sender.replies.ending⟩ : Source).bytes = Frame.encode (Reply.encode reply) ++ .empty := by
      have hreplies : (⟨l.sender.replies.chunks, l.sender.replies.ending⟩ : Source).bytes =
          .empty := hl.replies_eq
      rw [Source.bytes_concat, hreplies, ByteArray.empty_append]
      rfl
    obtain ⟨rest, hread, hrest, hending⟩ :=
      Frame.exists_read_of_bytes_eq (hreply ▸ size_encode_replyTo_le (hvalue hsync)) hbytes
    rw [Sender.receive_of_read hread, ← hreply, conclude_replyTo (hvalue hsync)]
    exact ⟨_, rfl, { hl with
      replies_eq := hrest
      replies_ending := hending.trans hl.replies_ending }, rfl, rfl, rfl⟩

/-- Makes calls one after the other on one thread. -/
def callEach (l : Link σ) (thread : Nat) : List DatedCall → List Outcome × Link σ
  | [] => ([], l)
  | d :: rest =>
    let (outcome, l) := l.call thread d.time d.call
    let (outcomes, l) := l.callEach thread rest
    (outcome :: outcomes, l)

/-- **Calls over a link come to what they should.** -/
theorem AtRest.callEach {calls : List DatedCall} (hl : l.AtRest)
    (hcalls : ∀ d ∈ calls, d.call.Sendable)
    (hvalues : l.receiver.handler.Answers l.receiver.state (delivered calls)) :
    ∃ last, l.callEach l.sender.owner calls =
        (l.receiver.handler.outcomes l.receiver.state calls, last) ∧
      last.AtRest ∧
      last.receiver.state =
        l.receiver.handler.after l.receiver.state (asked (delivered calls)) := by
  induction calls generalizing l with
  | nil => exact ⟨l, rfl, hl, rfl⟩
  | cons d rest ih =>
    obtain ⟨hd, hrest⟩ := List.forall_mem_cons.mp hcalls
    by_cases hfits : d.Fits
    · rw [delivered_cons_of_fits hfits] at hvalues ⊢
      obtain ⟨hvalue, hvalues⟩ := hvalues
      obtain ⟨next, hcall, hnext, howner, hhandler, hstate⟩ := hl.call hfits hd hvalue
      have hvalues : next.receiver.handler.Answers next.receiver.state (delivered rest) := by
        rw [hhandler, hstate]
        exact hvalues
      obtain ⟨last, heach, hlast, hend⟩ := ih hnext hrest hvalues
      rw [howner, hhandler, hstate] at heach
      rw [hhandler, hstate] at hend
      refine ⟨last, ?_, hlast, hend.trans (Handler.after_asked_cons ..).symm⟩
      simp only [Link.callEach, hcall, heach, Handler.outcomes, if_pos hfits]
    · rw [delivered_cons_of_not_fits hfits] at hvalues ⊢
      obtain ⟨last, heach, hlast, hend⟩ := ih hl hrest hvalues
      refine ⟨last, ?_, hlast, hend⟩
      simp only [Link.callEach, call_of_not_fits hfits, heach, Handler.outcomes, if_neg hfits]

end Link
end StyleCascade.Channel
