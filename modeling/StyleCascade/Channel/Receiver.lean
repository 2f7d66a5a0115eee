import StyleCascade.Channel.Frame
import StyleCascade.Channel.Invocation
import StyleCascade.Channel.Reply

/-!
# The listening end

A receiver serves requests one after the other until the other side closes the channel
or something fails. Only a request that its sender waits for gets a reply. A method that
is not known, and a handler that fails, give an empty reply and do not stop the
receiver; a request that cannot be read, or a reply that cannot be sent, does.
-/
namespace StyleCascade.Channel

/-- What serves the methods of one side, over a state of its own. It gives a value or
nothing, or fails with a text. -/
abbrev Handler (σ : Type) := σ → Method → List Json → Except String (Option Json) × σ

structure Receiver (σ : Type) where
  handler : Handler σ
  state : σ
  replies : Sink := {}

namespace Receiver

variable {σ : Type}

/-- Answers a request. Heart beats do not reach the handler. -/
def answer (r : Receiver σ) (i : Invocation) : Option Json × Receiver σ :=
  match Method.ofName? i.method with
  | none => (none, r)
  | some .heartBeat => (some (.bool true), r)
  | some method =>
    let (result, state) := r.handler r.state method i.args
    (result.toOption.join, { r with state })

/-- Serves a request in the form it has on the wire. -/
def serve (r : Receiver σ) (payload : ByteArray) : Except Error Unit × Receiver σ :=
  match Invocation.decode payload with
  | .error fault => (.error (.codec fault), r)
  | .ok i =>
    let (reply, r) := r.answer i
    if i.isSync then
      let (result, replies) := Frame.write r.replies (Reply.encode reply)
      (result, { r with replies })
    else (.ok (), r)

/-- Serves requests until one fails. -/
def serveAll (r : Receiver σ) : List ByteArray → Except Error Unit × Receiver σ
  | [] => (.ok (), r)
  | payload :: rest =>
    match r.serve payload with
    | (.error e, r) => (.error e, r)
    | (.ok (), r) => r.serveAll rest

/-- How a receiver ends that has served everything it could read. -/
def resultOfEnd : Error → Except Error Unit
  | .closed => .ok ()
  | e => .error e

/-- Serves what a source delivers, to its end. Nothing that is served changes what can be
read, so the frames are given as a list. -/
def run (r : Receiver σ) (source : Source) : Except Error Unit × Receiver σ :=
  let (payloads, ending, _) := Frame.readAll source
  match r.serveAll payloads with
  | (.error e, r) => (.error e, r)
  | (.ok (), r) => (resultOfEnd ending, r)

end Receiver
end StyleCascade.Channel
