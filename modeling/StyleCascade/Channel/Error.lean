import StyleCascade.Json.Reader

/-!
# Channel errors

Why a use of a channel fails. The streams below a channel fail in words of their own.
-/
namespace StyleCascade.Channel

/-- What goes wrong with bytes on their way. -/
inductive IoFault
  /-- The input ends inside the body of a frame. -/
  | bodyCutShort
  /-- The output takes no more bytes. -/
  | nothingTaken
  /-- A reply frame has no bytes at all. -/
  | emptyReply
  /-- The stream itself fails. -/
  | stream (reason : String)
deriving DecidableEq, Repr

inductive Error
  | io (fault : IoFault)
  /-- The content of a frame cannot be read, or a reply is not of the wanted type. -/
  | codec (fault : Json.Fault)
  | frameTooLarge (size : Nat)
  /-- The sender belongs to another thread. -/
  | wrongThread
  | unknownMethod (name : String)
  /-- The other side has closed the channel. -/
  | closed
deriving DecidableEq, Repr

def IoFault.message : IoFault → String
  | bodyCutShort => "failed to fill whole buffer"
  | nothingTaken => "failed to write whole buffer"
  | emptyReply => "empty reply frame"
  | stream reason => reason

/-- The wording of an error. -/
def Error.message : Error → String
  | io fault => s!"Channel I/O error: {fault.message}"
  | codec .cutShort => "Channel codec error: the text ends too early"
  | codec .malformed => "Channel codec error: the text is malformed"
  | codec .unfit => "Channel codec error: the value is of the wrong kind"
  | frameTooLarge size => s!"Frame of {size} bytes exceeds the limit"
  | wrongThread => "Channel used from a thread that does not own it"
  | unknownMethod name => s!"Unknown channel method: {name}"
  | closed => "Channel closed by peer"

end StyleCascade.Channel
