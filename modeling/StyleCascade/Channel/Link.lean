import StyleCascade.Channel.Receiver
import StyleCascade.Channel.Sender

/-!
# Links

A link is a sender and a receiver that are connected by two reliable streams. The
receiver serves what has been sent before the sender looks for a reply. The sender
writes whole frames, so between two calls the receiver stands at the start of one.
-/
namespace StyleCascade.Channel

structure Link (σ : Type) where
  sender : Sender := {}
  receiver : Receiver σ
  /-- What the receiver has failed with. It serves nothing after that. -/
  failure : Option Error := none

namespace Link

variable {σ : Type}

/-- Lets the receiver serve what the sender has written, and carries its replies back. -/
def exchange (l : Link σ) : Link σ :=
  let sent := l.sender.requests.written
  let sender := { l.sender with requests.written := .empty }
  if l.failure.isSome then { l with sender }
  else
    let (result, receiver) := l.receiver.run ⟨[sent], .closed⟩
    { sender := { sender with
        replies.chunks := sender.replies.chunks ++ [receiver.replies.written] }
      receiver := { receiver with replies.written := .empty }
      failure := match result with
        | .ok () => none
        | .error e => some e }

/-- Makes a call. -/
def call (l : Link σ) (thread : Nat) (now : Int64) (c : Call) :
    Except Error (Option Json) × Link σ :=
  match l.sender.send thread now c with
  | (.error e, sender) => (.error e, { l with sender })
  | (.ok (), sender) =>
    let l := { l with sender }.exchange
    let (result, sender) := l.sender.await c
    (result, { l with sender })

/-- How the receiver ends when the sender is gone. -/
def result (l : Link σ) : Except Error Unit :=
  l.failure.elim (.ok ()) .error

end Link
end StyleCascade.Channel
