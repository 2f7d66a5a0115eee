import StyleCascade.Channel.Sender
import StyleCascade.Proofs.InvocationText
import StyleCascade.Proofs.Serving

/-!
# What calls come to

A sequence of calls settles what the handler is asked, `asked`, and what each caller is told,
`Handler.outcomes`: the calls that fit into a message are answered one after the other, each of
them by the handler as the calls before it have left it, and a call that does not fit is refused
and leaves everything as it was.

Requests and replies of one call survive their way (`decode_payload`, `conclude_replyTo`).
-/
namespace StyleCascade.Channel

variable {σ : Type}

/-- What a caller is told. -/
abbrev Outcome := Except Error (Option Json)

/-! ## Calls and their answers -/

/-- What a call asks of the handler.  A heart beat asks nothing. -/
def Call.handled? (c : Call) : Option (Method × List Json) :=
  if c.method = .heartBeat then none else some (c.method, c.args)

/-- What a caller is told if the answer is `value`. -/
def Call.result : Call → Option Json → Outcome
  | .async .., _ => .ok none
  | .sync .., value => .ok value
  | .typed .., none => .ok none
  | .typed type .., some value =>
    if type.holds value then .ok (some value) else .error (.codec .unfit)
  | .heartBeat, _ => .ok (some (.bool true))

/-- A value that is not null. -/
def nonNull : Json → Option Json
  | .null => none
  | value => some value

/-- The answer to a call: true to a heart beat, and to any other what the handler gives, where a
failure and null are nothing. -/
def Handler.value (h : Handler σ) (state : σ) (c : Call) : Option Json :=
  match c.handled? with
  | none => some (.bool true)
  | some (method, args) =>
    match (h state method args).1 with
    | .ok reply => reply.bind nonNull
    | .error _ => none

/-- A call whose arguments have a text that is read back. -/
structure Call.Sendable (c : Call) : Prop where
  plain : ∀ v ∈ c.args, v.Plain
  depth_le : ∀ v ∈ c.args, v.depth ≤ 125

/-- An answer that can be sent and has a text that is read back. -/
structure Reply.Sendable (reply : Option Json) : Prop where
  plain : ∀ v ∈ reply, v.Plain
  depth_le : ∀ v ∈ reply, v.depth ≤ Json.maxDepth
  size_le : (Reply.encode reply).size ≤ Frame.limit

/-! ## Sequences of calls -/

/-- A call and the time it is made at. -/
structure DatedCall where
  time : Int64
  call : Call

namespace DatedCall

def request (d : DatedCall) : Invocation :=
  d.call.invocation d.time

/-- The message that carries the call. -/
def payload (d : DatedCall) : ByteArray :=
  d.request.encode

/-- Whether the message is small enough to be sent. -/
def Fits (d : DatedCall) : Prop :=
  d.payload.size ≤ Frame.limit

instance (d : DatedCall) : Decidable d.Fits :=
  inferInstanceAs (Decidable (_ ≤ _))

end DatedCall

/-- The calls that are sent. -/
def delivered (calls : List DatedCall) : List DatedCall :=
  calls.filter (·.Fits)

/-- What calls ask of the handler, in their order. -/
def asked (calls : List DatedCall) : List (Method × List Json) :=
  calls.filterMap (·.call.handled?)

namespace Handler

/-- What the callers are told. -/
def outcomes (h : Handler σ) (state : σ) : List DatedCall → List Outcome
  | [] => []
  | d :: rest =>
    if d.Fits then
      d.call.result (h.value state d.call) ::
        h.outcomes (h.after state d.call.handled?.toList) rest
    else .error (.frameTooLarge d.payload.size) :: h.outcomes state rest

/-- Whether every answer to a delivered call that is waited for can be sent. -/
def Answers (h : Handler σ) (state : σ) : List DatedCall → Prop
  | [] => True
  | d :: rest =>
    (d.call.isSync = true → Reply.Sendable (h.value state d.call)) ∧
      h.Answers (h.after state d.call.handled?.toList) rest

end Handler

theorem asked_append (a b : List DatedCall) : asked (a ++ b) = asked a ++ asked b :=
  List.filterMap_append

theorem asked_cons (d : DatedCall) (rest : List DatedCall) :
    asked (d :: rest) = d.call.handled?.toList ++ asked rest := by
  rw [asked, List.filterMap_eq_flatMap_toList, List.flatMap_cons, asked,
    List.filterMap_eq_flatMap_toList]

theorem Handler.after_asked_cons (h : Handler σ) (state : σ) (d : DatedCall)
    (rest : List DatedCall) :
    h.after state (asked (d :: rest)) =
      h.after (h.after state d.call.handled?.toList) (asked rest) := by
  rw [asked_cons, Handler.after_append]

theorem Handler.after_asked_concat (h : Handler σ) (state : σ) (calls : List DatedCall)
    (d : DatedCall) :
    h.after state (asked (calls ++ [d])) =
      h.after (h.after state (asked calls)) d.call.handled?.toList := by
  rw [asked_append, Handler.after_append, Handler.after_asked_cons]
  rfl

theorem delivered_cons_of_fits {d : DatedCall} (h : d.Fits) (rest : List DatedCall) :
    delivered (d :: rest) = d :: delivered rest :=
  List.filter_cons_of_pos (decide_eq_true h)

theorem delivered_cons_of_not_fits {d : DatedCall} (h : ¬d.Fits) (rest : List DatedCall) :
    delivered (d :: rest) = delivered rest :=
  List.filter_cons_of_neg (by simpa using h)

/-! ## There and back -/

/-- A request arrives as it was sent. -/
theorem DatedCall.decode_payload {d : DatedCall} (h : d.call.Sendable) :
    Invocation.decode d.payload = .ok d.request :=
  Invocation.decode_encode_of_depth_le h.plain h.depth_le

/-- A call that fits goes out whole, if its owner makes it. -/
theorem Sender.send_of_fits {s : Sender} {d : DatedCall} (hroom : s.requests.room = none)
    (h : d.Fits) :
    s.send s.owner d.time d.call =
      (.ok (), { s with requests.written := s.requests.written ++ Frame.encode d.payload }) := by
  have hwrite := Frame.write_of_size_le hroom h
  rw [DatedCall.payload, DatedCall.request] at hwrite
  rw [send, if_pos rfl, hwrite]
  rfl

/-- A call that does not fit is refused, and no byte of it goes out. -/
theorem Sender.send_of_not_fits {s : Sender} {d : DatedCall} (h : ¬d.Fits) :
    s.send s.owner d.time d.call = (.error (.frameTooLarge d.payload.size), s) := by
  have hwrite : Frame.write s.requests d.payload = _ :=
    Frame.write_of_limit_lt (Nat.lt_of_not_le h)
  rw [DatedCall.payload, DatedCall.request] at hwrite
  rw [send, if_pos rfl, hwrite]
  rfl

/-- The receiver takes a request for what it asks. -/
theorem DatedCall.call?_request (d : DatedCall) : d.request.call? = d.call.handled? := by
  have hname : Method.ofName? d.request.method = some d.call.method :=
    Method.ofName?_eq_some_iff.mpr rfl
  rw [Invocation.call?, hname]
  rfl

/-- What the receiver replies is the answer, but for null. -/
theorem Handler.value_eq (h : Handler σ) (state : σ) (d : DatedCall) :
    h.value state d.call = (h.replyTo state d.request).bind nonNull := by
  rw [Handler.value, Handler.replyTo, DatedCall.call?_request]
  cases hcall : d.call.handled? with
  | none =>
    have hbeat : d.request.method = Method.heartBeat.name := by
      rw [Call.handled?] at hcall
      split at hcall
      · rename_i hmethod
        exact congrArg Method.name hmethod
      · cases hcall
    simp only [if_pos hbeat, Option.bind_some]
    rfl
  | some call =>
    simp only
    cases (h state call.1 call.2).1 <;> rfl

namespace Reply

/-- Null is sent as nothing. -/
theorem encode_nonNull (reply : Option Json) : encode (reply.bind nonNull) = encode reply := by
  cases reply with
  | none => rfl
  | some v => cases v <;> rfl

theorem decode_encode_some {v : Json} (hv : v ≠ .null) (hplain : v.Plain)
    (hdepth : v.depth ≤ Json.maxDepth) : decode (encode (some v)) = .ok (some v) := by
  have hbytes : (encode (some v)).data.toList = valueMark :: Json.bytesOf v.compactChars := by
    rw [encode.eq_3 _ (by simpa using hv), ByteArray.data_append, Array.toList_append, Json.compact,
      Json.data_toUTF8_ofList]
    rfl
  rw [decode, hbytes]
  simp only [show valueMark ≠ nothingMark by decide, if_false,
    Json.ofBytes_compactChars hplain hdepth]

/-- An answer arrives as it was sent. -/
theorem decode_encode {reply : Option Json} (h : Sendable (reply.bind nonNull)) :
    decode (encode reply) = .ok (reply.bind nonNull) := by
  rw [← encode_nonNull]
  cases hvalue : reply.bind nonNull with
  | none => rfl
  | some v =>
    have hv : v ≠ .null := by
      rintro rfl
      obtain ⟨u, -, hu⟩ := Option.bind_eq_some_iff.mp hvalue
      cases u <;> cases hu
    rw [hvalue] at h
    exact decode_encode_some hv (h.plain v rfl) (h.depth_le v rfl)

end Reply

theorem Call.result_of_async {c : Call} (h : c.isSync = false) (value : Option Json) :
    c.result value = .ok none := by
  cases c with
  | async => rfl
  | _ => cases h

theorem Call.conclude_value (h : Handler σ) (state : σ) (c : Call) :
    c.conclude (h.value state c) = c.result (h.value state c) := by
  cases c with
  | async | sync => rfl
  | typed type method args => cases h.value state (.typed type method args) <;> rfl
  | heartBeat => rfl

/-- **A caller that reads the reply to its own request is told what it should be.** -/
theorem conclude_replyTo {h : Handler σ} {state : σ} {d : DatedCall}
    (hvalue : Reply.Sendable (h.value state d.call)) :
    (Reply.decode (Reply.encode (h.replyTo state d.request))).bind d.call.conclude =
      d.call.result (h.value state d.call) := by
  rw [Handler.value_eq] at hvalue
  rw [Reply.decode_encode hvalue, ← Handler.value_eq]
  exact Call.conclude_value h state d.call

/-- The reply to a call fits if its answer can be sent. -/
theorem size_encode_replyTo_le {h : Handler σ} {state : σ} {d : DatedCall}
    (hvalue : Reply.Sendable (h.value state d.call)) :
    (Reply.encode (h.replyTo state d.request)).size ≤ Frame.limit := by
  have hsize := hvalue.size_le
  rwa [Handler.value_eq, Reply.encode_nonNull] at hsize

theorem Handler.awaited_of_async {d : DatedCall} (hasync : d.call.isSync = false) (h : Handler σ)
    (state : σ) : h.awaited state d.request = [] :=
  if_neg (by simp [DatedCall.request, Call.invocation, hasync])

theorem Handler.awaited_of_sync {d : DatedCall} (hsync : d.call.isSync = true) (h : Handler σ)
    (state : σ) : h.awaited state d.request = [h.replyTo state d.request] :=
  if_pos hsync

/-- A caller that finds a reply reads it. -/
theorem Sender.receive_of_read {s : Sender} {payload : ByteArray} {rest : Source}
    (hread : Frame.read s.replies = (.ok payload, rest)) (c : Call) :
    s.receive c = ((Reply.decode payload).bind c.conclude, { s with replies := rest }) := by
  rw [receive, hread]
  rfl

/-- A receiver that finds a request serves it, and replies if the call waits for it. -/
theorem Receiver.serve_payload {r : Receiver σ} {d : DatedCall} (hroom : r.replies.room = none)
    (hcall : d.call.Sendable)
    (hvalue : d.call.isSync = true → Reply.Sendable (r.handler.value r.state d.call)) :
    r.serve d.payload = (.ok (), { r with
      state := r.handler.after r.state d.call.handled?.toList
      replies.written := r.replies.written ++
        Frame.joined ((r.handler.awaited r.state d.request).map Reply.encode) }) := by
  have hsize : ∀ reply ∈ r.handler.awaited r.state d.request,
      (Reply.encode reply).size ≤ Frame.limit := by
    cases hsync : d.call.isSync with
    | false => simp [Handler.awaited_of_async hsync]
    | true => simpa [Handler.awaited_of_sync hsync] using size_encode_replyTo_le (hvalue hsync)
  rw [Receiver.serve_ok hroom (DatedCall.decode_payload hcall) hsize, DatedCall.call?_request]

end StyleCascade.Channel
