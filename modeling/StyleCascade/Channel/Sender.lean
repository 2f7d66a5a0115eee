import StyleCascade.Channel.Frame
import StyleCascade.Channel.Invocation
import StyleCascade.Channel.Reply

/-!
# The requesting end

A sender belongs to the thread that made it. Its calls are strictly sequential: a call
that waits for a reply takes the next frame of the replies as its own.
-/
namespace StyleCascade.Channel

/-- A type of replies, as the set of its values. -/
structure ReplyType where
  holds : Json → Bool

namespace ReplyType

def bool : ReplyType := ⟨fun v => v.asBool?.isSome⟩

/-- Integers of 64 bits with a sign. -/
def int64 : ReplyType := ⟨fun v => v.asInt64?.isSome⟩

/-- Integers of 8 bits without a sign. -/
def byte : ReplyType := ⟨fun v => v.asNat?.any (· < 256)⟩

def string : ReplyType := ⟨fun v => v.asString?.isSome⟩

/-- Lists of strings. -/
def strings : ReplyType := ⟨fun v => v.asArray?.any fun l => l.all fun v => v.asString?.isSome⟩

end ReplyType

/-- What a caller asks for. -/
inductive Call
  /-- Nothing is waited for. -/
  | async (method : Method) (args : List Json)
  | sync (method : Method) (args : List Json)
  /-- A value in the reply has to be of the given type. -/
  | typed (type : ReplyType) (method : Method) (args : List Json)
  /-- Whether the other side is alive. -/
  | heartBeat

namespace Call

def isSync : Call → Bool
  | async .. => false
  | _ => true

def method : Call → Method
  | async method _ | sync method _ | typed _ method _ => method
  | heartBeat => .heartBeat

def args : Call → List Json
  | async _ args | sync _ args | typed _ _ args => args
  | heartBeat => []

/-- The request that makes the call at a given time. -/
def invocation (c : Call) (now : Int64) : Invocation :=
  ⟨c.isSync, c.method.name, c.args, now⟩

/-- A reply as a value of a type. -/
def convert (type : ReplyType) : Option Json → Except Error (Option Json)
  | none => .ok none
  | some value => if type.holds value then .ok (some value) else .error (.codec .unfit)

/-- What the caller gets for a reply. A heart beat always gives a truth value. -/
def conclude (c : Call) (reply : Option Json) : Except Error (Option Json) :=
  match c with
  | async .. => .ok none
  | sync .. => .ok reply
  | typed type .. => convert type reply
  | heartBeat => (convert .bool reply).map fun value => some (value.getD (.bool false))

end Call

structure Sender where
  /-- The thread that the sender belongs to. -/
  owner : Nat := 0
  requests : Sink := {}
  replies : Source := {}

namespace Sender

/-- Writes the request of a call. -/
def send (s : Sender) (thread : Nat) (now : Int64) (c : Call) : Except Error Unit × Sender :=
  if thread = s.owner then
    let (result, requests) := Frame.write s.requests (c.invocation now).encode
    (result, { s with requests })
  else (.error .wrongThread, s)

/-- Reads the reply to a call. -/
def receive (s : Sender) (c : Call) : Except Error (Option Json) × Sender :=
  let (frame, replies) := Frame.read s.replies
  (do c.conclude (← Reply.decode (← frame)), { s with replies })

/-- Waits for the reply to a call that has been sent, if it asks for one. -/
def await (s : Sender) (c : Call) : Except Error (Option Json) × Sender :=
  if c.isSync then s.receive c else (.ok none, s)

/-- Makes a call. -/
def call (s : Sender) (thread : Nat) (now : Int64) (c : Call) :
    Except Error (Option Json) × Sender :=
  match s.send thread now c with
  | (.error e, s) => (.error e, s)
  | (.ok (), s) => s.await c

end Sender
end StyleCascade.Channel
