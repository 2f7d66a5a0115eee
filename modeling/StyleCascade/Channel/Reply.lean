import StyleCascade.Channel.Error
import StyleCascade.Json.Printer

/-!
# Replies

A reply to a request is a value or nothing, and the value null counts as nothing. Its
first byte tells the two apart; behind it stands the JSON text of the value.
-/
namespace StyleCascade.Channel.Reply

/-- The first byte of a reply without a value. -/
def nothingMark : UInt8 := 1

/-- The first byte of a reply with a value. -/
def valueMark : UInt8 := 0

def encode : Option Json → ByteArray
  | none | some .null => [nothingMark].toByteArray
  | some value => [valueMark].toByteArray ++ value.compact.toUTF8

/-- Reads a reply. What stands behind the mark of an empty one does not count, and any
other mark announces a value. -/
def decode (payload : ByteArray) : Except Error (Option Json) :=
  match payload.data.toList with
  | [] => .error (.io .emptyReply)
  | mark :: rest =>
    if mark = nothingMark then .ok none
    else
      match Json.ofBytes rest with
      | .ok value => .ok (some value)
      | .error fault => .error (.codec fault)

end StyleCascade.Channel.Reply
