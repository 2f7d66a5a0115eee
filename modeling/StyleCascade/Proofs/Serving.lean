import StyleCascade.Channel.Receiver
import StyleCascade.Proofs.InvocationText
import StyleCascade.Proofs.MessageStreams

/-!
# What a receiver serves

A receiver reads a message, serves it, and reads the next one (`Receiver.run_eq`).  Whatever
bytes a source delivers, it serves the requests of the longest run of whole messages at their
front that can be read, in order, and sends a reply for each of those that are waited for; what
stops it is a message it cannot read, a reply too large to be sent, or the end of the source
(`Receiver.exists_serves_run`).  Nothing behind a request keeps it from being served
(`Receiver.exists_run_of_joined`).  What the handler is asked and what is replied follow from the
requests alone (`Invocation.call?`, `Handler.replies`).
-/
namespace StyleCascade.Channel

variable {σ : Type}

/-! ## What requests come to -/

/-- What a request asks of the handler: nothing if its method is not known, or a heart beat. -/
def Invocation.call? (i : Invocation) : Option (Method × List Json) :=
  match Method.ofName? i.method with
  | some method => if method = .heartBeat then none else some (method, i.args)
  | none => none

namespace Handler

/-- The state of a handler that has been called a number of times. -/
def after (h : Handler σ) (state : σ) (calls : List (Method × List Json)) : σ :=
  calls.foldl (fun state call => (h state call.1 call.2).2) state

/-- The reply to a request.  The handler decides on methods that are known, and a failure is
nothing; a heart beat is always answered by true. -/
def replyTo (h : Handler σ) (state : σ) (i : Invocation) : Option Json :=
  match i.call? with
  | some (method, args) =>
    match (h state method args).1 with
    | .ok value => value
    | .error _ => none
  | none => if i.method = Method.heartBeat.name then some (.bool true) else none

/-- The reply to a request, if it is waited for. -/
def awaited (h : Handler σ) (state : σ) (i : Invocation) : List (Option Json) :=
  if i.isSync then [h.replyTo state i] else []

/-- The replies to those requests of a list that are waited for. -/
def replies (h : Handler σ) (state : σ) : List Invocation → List (Option Json)
  | [] => []
  | i :: rest => h.awaited state i ++ h.replies (h.after state i.call?.toList) rest

theorem after_append (h : Handler σ) (state : σ) (a b : List (Method × List Json)) :
    h.after state (a ++ b) = h.after (h.after state a) b :=
  List.foldl_append

theorem after_filterMap_cons (h : Handler σ) (state : σ) (i : Invocation) (rest : List Invocation) :
    h.after state ((i :: rest).filterMap Invocation.call?) =
      h.after (h.after state i.call?.toList) (rest.filterMap Invocation.call?) := by
  rw [← after_append, List.filterMap_eq_flatMap_toList, List.flatMap_cons,
    List.filterMap_eq_flatMap_toList]

/-- A handler that keeps a record of what it is asked.  It runs a script by giving it back. -/
def recorder : Handler (List (Method × List Json)) := fun record method args =>
  let result : Except String (Option Json) :=
    match method with
    | .executeScript => .ok args.head?
    | .menuPressPage => .error "no menu"
    | _ => .ok none
  (result, record ++ [(method, args)])

end Handler

theorem Frame.readAll_of_error {source rest : Source} {e : Error}
    (h : Frame.read source = (.error e, rest)) : Frame.readAll source = ([], e, rest) := by
  rw [Frame.readAll]
  split
  · rename_i hread
    obtain ⟨⟨⟩, rfl⟩ := Prod.mk.inj (hread.symm.trans h)
    rfl
  · rename_i hread
    cases (Prod.mk.inj (hread.symm.trans h)).1

theorem Frame.readAll_of_ok {source rest : Source} {payload : ByteArray}
    (h : Frame.read source = (.ok payload, rest)) :
    Frame.readAll source = (payload :: (Frame.readAll rest).1, (Frame.readAll rest).2) := by
  rw [Frame.readAll]
  split
  · rename_i hread
    cases (Prod.mk.inj (hread.symm.trans h)).1
  · rename_i hread
    obtain ⟨⟨⟩, rfl⟩ := Prod.mk.inj (hread.symm.trans h)
    rfl

namespace Receiver

/-! ## Serving one request -/

theorem answer_eq (r : Receiver σ) (i : Invocation) :
    r.answer i =
      (r.handler.replyTo r.state i,
        { r with state := r.handler.after r.state i.call?.toList }) := by
  unfold answer Handler.replyTo Invocation.call?
  cases hname : Method.ofName? i.method with
  | none =>
    have hother : i.method ≠ Method.heartBeat.name := by
      intro h
      rw [Method.ofName?_eq_some_iff.mpr h] at hname
      cases hname
    simp only [if_neg hother]
    rfl
  | some method =>
    by_cases hbeat : method = .heartBeat
    · subst hbeat
      simp only [if_true, if_pos (Method.ofName?_eq_some_iff.mp hname)]
      rfl
    · simp only [if_neg hbeat]
      cases hresult : r.handler r.state method i.args with
      | mk result state => cases result <;> simp [Handler.after, hresult, Except.toOption]

/-- What becomes of a receiver that is given a request it can read. -/
theorem serve_of_decode_eq {r : Receiver σ} {payload : ByteArray} {i : Invocation}
    (hdecode : Invocation.decode payload = .ok i) :
    r.serve payload =
      let reply := Reply.encode (r.handler.replyTo r.state i)
      let result := if i.isSync then Frame.write r.replies reply else (.ok (), r.replies)
      (result.1, { r with
        state := r.handler.after r.state i.call?.toList
        replies := result.2 }) := by
  rw [serve, hdecode]
  simp only [answer_eq]
  split <;> rfl

/-- A request whose reply, if it is waited for, can be sent. -/
theorem serve_ok {r : Receiver σ} {payload : ByteArray} {i : Invocation}
    (hroom : r.replies.room = none) (hdecode : Invocation.decode payload = .ok i)
    (hsize : ∀ reply ∈ r.handler.awaited r.state i, (Reply.encode reply).size ≤ Frame.limit) :
    r.serve payload = (.ok (), { r with
      state := r.handler.after r.state i.call?.toList
      replies.written := r.replies.written ++
        Frame.joined ((r.handler.awaited r.state i).map Reply.encode) }) := by
  rw [serve_of_decode_eq hdecode]
  unfold Handler.awaited at hsize ⊢
  cases hsync : i.isSync with
  | false =>
    simp only [Bool.false_eq_true, if_false, List.map_nil, Frame.joined, ByteArray.append_empty]
  | true =>
    rw [hsync, if_pos rfl] at hsize
    have hreply := hsize _ List.mem_cons_self
    simp only [if_true, Frame.write_of_size_le hroom hreply, List.map_cons, List.map_nil,
      Frame.joined, ByteArray.append_empty]

/-- A request that is waited for, with a reply that is too large. -/
theorem serve_tooLarge {r : Receiver σ} {payload : ByteArray} {i : Invocation}
    (hdecode : Invocation.decode payload = .ok i) (hsync : i.isSync = true)
    (hsize : Frame.limit < (Reply.encode (r.handler.replyTo r.state i)).size) :
    r.serve payload =
      (.error (.frameTooLarge (Reply.encode (r.handler.replyTo r.state i)).size),
        { r with state := r.handler.after r.state i.call?.toList }) := by
  rw [serve_of_decode_eq hdecode]
  simp only [hsync, if_true, Frame.write_of_limit_lt hsize]

/-! ## The loop -/

/-- **A receiver reads a message, serves it, and goes on with the rest of the source.** -/
theorem run_eq (r : Receiver σ) (source : Source) :
    r.run source =
      match Frame.read source with
      | (.error e, _) => (resultOfEnd e, r)
      | (.ok payload, rest) =>
        match r.serve payload with
        | (.error e, r) => (.error e, r)
        | (.ok (), r) => r.run rest := by
  cases hread : Frame.read source with
  | mk message rest =>
    cases message with
    | error e => rw [run, Frame.readAll_of_error hread]; rfl
    | ok payload =>
      rw [run, Frame.readAll_of_ok hread]
      simp only [serveAll, run]
      cases hserve : r.serve payload with
      | mk result next => cases result <;> rfl

/-- Requests that can be read and answered are served, whatever is behind them. -/
theorem exists_run_of_joined (r : Receiver σ) (hroom : r.replies.room = none)
    {requests : List Invocation} {source : Source} {tail : ByteArray}
    (hdecode : ∀ i ∈ requests, Invocation.decode i.encode = .ok i ∧ i.encode.size ≤ Frame.limit)
    (hbytes : source.bytes = Frame.joined (requests.map Invocation.encode) ++ tail)
    (hsent : ∀ reply ∈ r.handler.replies r.state requests,
      (Reply.encode reply).size ≤ Frame.limit) :
    ∃ rest, rest.bytes = tail ∧ rest.ending = source.ending ∧ r.run source =
      { r with
        state := r.handler.after r.state (requests.filterMap Invocation.call?)
        replies.written := r.replies.written ++
          Frame.joined ((r.handler.replies r.state requests).map Reply.encode) }.run rest := by
  induction requests generalizing r source with
  | nil =>
    refine ⟨source, hbytes.trans ByteArray.empty_append, rfl, ?_⟩
    simp [Handler.replies, Handler.after, Frame.joined]
  | cons i requests ih =>
    obtain ⟨⟨hi, hsize⟩, hdecode⟩ := List.forall_mem_cons.mp hdecode
    obtain ⟨hreply, hsent⟩ := List.forall_mem_append.mp hsent
    rw [List.map_cons, Frame.joined, ByteArray.append_assoc] at hbytes
    obtain ⟨behind, hread, hbehind, hending⟩ := Frame.exists_read_of_bytes_eq hsize hbytes
    have hserve := serve_ok hroom hi hreply
    obtain ⟨rest, hrest, hend, hrun⟩ := ih { r with
      state := r.handler.after r.state i.call?.toList
      replies.written := r.replies.written ++
        Frame.joined ((r.handler.awaited r.state i).map Reply.encode) } hroom hdecode hbehind hsent
    refine ⟨rest, hrest, hend.trans hending, ?_⟩
    rw [run_eq, hread]
    simp only [hserve, hrun]
    rw [Handler.after_filterMap_cons, Handler.replies, List.map_append, Frame.joined_append,
      ByteArray.append_assoc]

/-- How a receiver ends that has served `requests` of a source and finds `tail` behind them: the
replies it has sent, and what it ends with. -/
inductive Ends (h : Handler σ) (state : σ) (requests : List Invocation) (tail : ByteArray)
    (ending : SourceEnd) : List (Option Json) → Except Error Unit → Prop
  /-- The source is closed where a message could start. -/
  | closed (hsent : ∀ reply ∈ h.replies state requests, (Reply.encode reply).size ≤ Frame.limit)
      (hstuck : Frame.Stuck ending tail .closed) :
      Ends h state requests tail ending (h.replies state requests) (.ok ())
  /-- There is no whole message of an allowed size. -/
  | noMessage {e : Error}
      (hsent : ∀ reply ∈ h.replies state requests, (Reply.encode reply).size ≤ Frame.limit)
      (hstuck : Frame.Stuck ending tail e) (hopen : e ≠ .closed) :
      Ends h state requests tail ending (h.replies state requests) (.error e)
  /-- The next message cannot be read. -/
  | malformed {payload rest : ByteArray} {fault : Json.Fault}
      (hsent : ∀ reply ∈ h.replies state requests, (Reply.encode reply).size ≤ Frame.limit)
      (htail : tail = Frame.encode payload ++ rest) (hsize : payload.size ≤ Frame.limit)
      (hfault : Invocation.decode payload = .error fault) :
      Ends h state requests tail ending (h.replies state requests) (.error (.codec fault))
  /-- The reply to the last request cannot be sent. -/
  | unsendable {sent : List (Option Json)} {reply : Option Json} {before : List Invocation}
      {last : Invocation} (hlast : requests = before ++ [last]) (hsync : last.isSync = true)
      (hreplies : h.replies state requests = sent ++ [reply])
      (hsent : ∀ reply ∈ sent, (Reply.encode reply).size ≤ Frame.limit)
      (hlarge : Frame.limit < (Reply.encode reply).size) :
      Ends h state requests tail ending sent (.error (.frameTooLarge (Reply.encode reply).size))

theorem exists_tooLarge_of_not_forall {h : Handler σ} {state : σ} {i : Invocation}
    (hreply : ¬∀ reply ∈ h.awaited state i, (Reply.encode reply).size ≤ Frame.limit) :
    i.isSync = true ∧ Frame.limit < (Reply.encode (h.replyTo state i)).size := by
  unfold Handler.awaited at hreply
  cases hsync : i.isSync with
  | false => simp [hsync] at hreply
  | true => simpa [hsync] using hreply

/-- A request served before the others does not change how it ends. -/
theorem Ends.cons {h : Handler σ} {state : σ} {i : Invocation} {requests : List Invocation}
    {tail : ByteArray} {ending : SourceEnd} {sent : List (Option Json)} {result : Except Error Unit}
    (hends : Ends h (h.after state i.call?.toList) requests tail ending sent result)
    (hfirst : ∀ reply ∈ h.awaited state i, (Reply.encode reply).size ≤ Frame.limit) :
    Ends h state (i :: requests) tail ending (h.awaited state i ++ sent) result := by
  cases hends with
  | closed hsent hstuck => exact .closed (List.forall_mem_append.mpr ⟨hfirst, hsent⟩) hstuck
  | noMessage hsent hstuck hopen =>
    exact .noMessage (List.forall_mem_append.mpr ⟨hfirst, hsent⟩) hstuck hopen
  | malformed hsent htail hsize hfault =>
    exact .malformed (List.forall_mem_append.mpr ⟨hfirst, hsent⟩) htail hsize hfault
  | @unsendable sent reply before last hlast hsync hreplies hsent hlarge =>
    have hlast : i :: requests = (i :: before) ++ [last] := congrArg (i :: ·) hlast
    refine .unsendable hlast hsync ?_
      (List.forall_mem_append.mpr ⟨hfirst, hsent⟩) hlarge
    rw [Handler.replies, hreplies, List.append_assoc]

/-- What a receiver makes of a source: the messages it serves and the requests they hold, what is
left of the source behind them, the replies it sends, and the receiver `last` it ends as. -/
structure Serves (r : Receiver σ) (source : Source) (payloads : List ByteArray)
    (requests : List Invocation) (tail : ByteArray) (sent : List (Option Json))
    (result : Except Error Unit) (last : Receiver σ) : Prop where
  bytes_eq : source.bytes = Frame.joined payloads ++ tail
  size_le : ∀ payload ∈ payloads, payload.size ≤ Frame.limit
  decode_eq : payloads.map Invocation.decode = requests.map .ok
  /-- The handler has been asked what the requests ask of it, in their order, and nothing else. -/
  state_eq : last.state = r.handler.after r.state (requests.filterMap Invocation.call?)
  /-- The replies have been written, in their order, and nothing else. -/
  written_eq : last.replies.written =
    r.replies.written ++ Frame.joined (sent.map Reply.encode)
  ends : Ends r.handler r.state requests tail source.ending sent result

/-- A receiver that serves a message and then makes something of the rest of a source. -/
theorem Serves.cons {r next last : Receiver σ} {source rest : Source} {payload : ByteArray}
    {i : Invocation} {payloads : List ByteArray} {requests : List Invocation} {tail : ByteArray}
    {sent : List (Option Json)} {result : Except Error Unit}
    (h : Serves next rest payloads requests tail sent result last)
    (hbytes : source.bytes = Frame.encode payload ++ rest.bytes)
    (hending : rest.ending = source.ending) (hsize : payload.size ≤ Frame.limit)
    (hdecode : Invocation.decode payload = .ok i)
    (hreply : ∀ reply ∈ r.handler.awaited r.state i, (Reply.encode reply).size ≤ Frame.limit)
    (hhandler : next.handler = r.handler)
    (hstate : next.state = r.handler.after r.state i.call?.toList)
    (hwritten : next.replies.written = r.replies.written ++
      Frame.joined ((r.handler.awaited r.state i).map Reply.encode)) :
    Serves r source (payload :: payloads) (i :: requests) tail
      (r.handler.awaited r.state i ++ sent) result last where
  bytes_eq := by rw [hbytes, h.bytes_eq, Frame.joined, ByteArray.append_assoc]
  size_le := List.forall_mem_cons.mpr ⟨hsize, h.size_le⟩
  decode_eq := by rw [List.map_cons, List.map_cons, hdecode, h.decode_eq]
  state_eq := by rw [h.state_eq, hhandler, hstate, Handler.after_filterMap_cons]
  written_eq := by
    rw [h.written_eq, hwritten, List.map_append, Frame.joined_append, ByteArray.append_assoc]
  ends := by
    have hends := h.ends
    rw [hhandler, hstate, hending] at hends
    exact hends.cons hreply

/-- **What a receiver makes of any bytes at all.**  The source consists of messages that hold
requests, and of a tail that the receiver does not get past. -/
theorem exists_serves_run (r : Receiver σ) (hroom : r.replies.room = none) (source : Source) :
    ∃ payloads requests tail sent,
      Serves r source payloads requests tail sent (r.run source).1 (r.run source).2 := by
  induction hn : source.size using Nat.strongRecOn generalizing r source with
  | ind n ih =>
    have hstop : ∀ {result : Except Error Unit},
        Ends r.handler r.state [] source.bytes source.ending [] result →
        Serves r source [] [] source.bytes [] result r := fun hends =>
      ⟨ByteArray.empty_append.symm, by simp, rfl, rfl, ByteArray.append_empty.symm, hends⟩
    rcases Frame.read_cases source with
      ⟨payload, rest, hsize, hbytes, hending, hread⟩ | ⟨e, rest, hstuck, hread⟩
    · cases hdecode : Invocation.decode payload with
      | error fault =>
        have hserve : r.serve payload = (.error (.codec fault), r) := by rw [serve, hdecode]
        rw [run_eq, hread]
        simp only [hserve]
        exact ⟨_, _, _, _, hstop (.malformed (by simp [Handler.replies]) hbytes hsize hdecode)⟩
      | ok i =>
        by_cases hreply : ∀ reply ∈ r.handler.awaited r.state i,
            (Reply.encode reply).size ≤ Frame.limit
        · have hserve := serve_ok hroom hdecode hreply
          rw [run_eq, hread]
          simp only [hserve]
          obtain ⟨payloads, requests, tail, sent, h⟩ :=
            ih rest.size (hn ▸ Frame.size_lt_of_read hread) { r with
              state := r.handler.after r.state i.call?.toList
              replies.written := r.replies.written ++
                Frame.joined ((r.handler.awaited r.state i).map Reply.encode) } hroom rest rfl
          exact ⟨_, _, _, _, h.cons hbytes hending hsize hdecode hreply rfl rfl rfl⟩
        · obtain ⟨hsync, hlarge⟩ := exists_tooLarge_of_not_forall hreply
          have hserve := serve_tooLarge hdecode hsync hlarge
          have hawaited : r.handler.awaited r.state i = [r.handler.replyTo r.state i] :=
            if_pos hsync
          rw [run_eq, hread]
          simp only [hserve]
          refine ⟨[payload], [i], rest.bytes, [], ?_⟩
          refine ⟨?_, by simpa using hsize, by rw [List.map_singleton, hdecode]; rfl, ?_,
            ByteArray.append_empty.symm, ?_⟩
          · rw [hbytes, Frame.joined, Frame.joined, ByteArray.append_empty]
          · exact (Handler.after_filterMap_cons _ _ i []).symm
          · have hlast : [i] = [] ++ [i] := rfl
            refine .unsendable hlast hsync ?_ (by simp) hlarge
            rw [Handler.replies, hawaited]
            rfl
    · rw [run_eq, hread]
      cases e with
      | closed => exact ⟨_, _, _, _, hstop (.closed (by simp [Handler.replies]) hstuck)⟩
      | _ => exact ⟨_, _, _, _, hstop (.noMessage (by simp [Handler.replies]) hstuck (by simp))⟩

/-- Requests of every kind: a heart beat, an unknown method, a call that is not waited for, one that
fails and one that gives a value. -/
def mixedRequests : List Invocation := [
  ⟨true, "heartBeat", [], 0⟩,
  ⟨true, "noSuchMethod", [], 1⟩,
  ⟨false, "destroyPage", [.integer 7], 2⟩,
  ⟨true, "menuPressPage", [], 3⟩,
  ⟨true, "executeScript", [.string "1"], 4⟩]

/-- The requests, and behind them a message that holds none, and another request. -/
def brokenSample : Source where
  chunks := [
    Frame.joined (mixedRequests.map Invocation.encode),
    Frame.encode ⟨#[110, 111, 112, 101]⟩,
    Frame.encode (Invocation.encode ⟨true, "heartBeat", [], 5⟩)]

theorem decode_mixedRequests : ∀ i ∈ mixedRequests, Invocation.decode i.encode = .ok i := by
  have hargs : ∀ v ∈ mixedRequests.flatMap Invocation.args, v.Plain ∧ v.depth ≤ 125 := by
    have hseven : (Json.integer 7).Plain := .integer (by decide) (by decide)
    simpa [mixedRequests, Json.depth] using ⟨hseven, .string "1"⟩
  intro i hi
  have hmem : ∀ v ∈ i.args, v ∈ mixedRequests.flatMap Invocation.args := fun v hv =>
    List.mem_flatMap.mpr ⟨i, hi, hv⟩
  exact Invocation.decode_encode_of_depth_le (fun v hv => (hargs v (hmem v hv)).1)
    fun v hv => (hargs v (hmem v hv)).2

/-- A receiver with that handler, at its start. -/
def recording : Receiver (List (Method × List Json)) where
  handler := Handler.recorder
  state := []

theorem exists_serves_run_brokenSample :
    (∃ payloads requests tail sent, Serves recording brokenSample payloads requests tail sent
      (recording.run brokenSample).1 (recording.run brokenSample).2) ∧
      (recording.run brokenSample).1 = .error (.codec .malformed) ∧
      (recording.run brokenSample).2.state = [(.destroyPage, [.integer 7]), (.menuPressPage, []),
        (.executeScript, [.string "1"])] ∧
      (recording.run brokenSample).2.replies.written =
        Frame.joined ([some (.bool true), none, none, some (.string "1")].map Reply.encode) := by
  refine ⟨exists_serves_run recording rfl brokenSample, ?_⟩
  have hsizes : ∀ i ∈ mixedRequests, i.encode.size ≤ Frame.limit := by decide +kernel
  have hreplies : recording.handler.replies recording.state mixedRequests =
      [some (.bool true), none, none, some (.string "1")] := rfl
  have hbytes : brokenSample.bytes = Frame.joined (mixedRequests.map Invocation.encode) ++ _ := rfl
  obtain ⟨rest, hrest, -, hrun⟩ := recording.exists_run_of_joined rfl
    (fun i hi => ⟨decode_mixedRequests i hi, hsizes i hi⟩) hbytes (by rw [hreplies]; decide +kernel)
  obtain ⟨_, hread, -⟩ := Frame.exists_read_of_bytes_eq (by decide) hrest
  have hrun := hrun.trans (run_eq _ rest)
  rw [hread] at hrun
  rw [hrun]
  exact ⟨rfl, rfl, rfl⟩

end Receiver
end StyleCascade.Channel
