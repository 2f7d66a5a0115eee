import StyleCascade.Channel.Method
import StyleCascade.Json.Printer
import StyleCascade.Json.Reader

/-!
# Invocations

A request names a method, its arguments, whether the caller waits for a reply, and when
it was made. On the wire it is a JSON object of four members, or an array of the four
values in that order. Members of other names are passed over whatever they hold; each
of the four has to be there once.

Every value is checked where it is read, so the first fault from the left counts. A
member that is missing is noticed at the closing brace.
-/
namespace StyleCascade.Channel

open Json (Fault Bytes byte skipBlanks)

structure Invocation where
  isSync : Bool
  method : String
  args : List Json
  /-- When the request was made, in milliseconds since 1970. -/
  timestamp : Int64
deriving Repr, Inhabited

namespace Invocation

/-! ## Writing -/

def toJson (i : Invocation) : Json :=
  .object [("isSync", .bool i.isSync), ("method", .string i.method), ("args", .array i.args),
    ("timestampMillis", .integer i.timestamp.toInt)]

def encode (i : Invocation) : ByteArray :=
  i.toJson.compact.toUTF8

/-! ## Reading the four values -/

/-- A value that `pick` accepts. An array or an object is refused at its bracket, any other
value when it has been read. -/
def scalar {α : Type} (pick : Json → Option α) (s : Bytes) : Except Fault (α × Bytes) :=
  match skipBlanks s with
  | [] => .error .cutShort
  | b :: rest =>
    if b = byte '[' ∨ b = byte '\x7b' then .error .unfit
    else do
      let (v, rest) ← Json.scalar (b :: rest)
      match pick v with
      | some a => .ok (a, rest)
      | none => .error .unfit

def flag : Bytes → Except Fault (Bool × Bytes) :=
  scalar Json.asBool?

def text : Bytes → Except Fault (String × Bytes) :=
  scalar Json.asString?

def time : Bytes → Except Fault (Int64 × Bytes) :=
  scalar fun v => v.asInt64?.map Int64.ofInt

/-- A list of arguments, which stands inside two brackets. -/
def arguments (s : Bytes) : Except Fault (List Json × Bytes) :=
  match skipBlanks s with
  | [] => .error .cutShort
  | b :: rest =>
    if b = byte '[' then Json.elements (Json.value (Json.maxDepth - 2)) rest
    else scalar (fun _ => none) (b :: rest)

/-! ## An array of four values -/

/-- The bytes of a value in an array that must not end yet. -/
def notClosed (s : Bytes) : Except Fault Bytes :=
  match skipBlanks s with
  | [] => .error .cutShort
  | b :: _ => if b = byte ']' then .error .unfit else .ok s

/-- The bytes after the comma behind a value of an array that must not end yet. -/
def afterComma (s : Bytes) : Except Fault Bytes := do
  match skipBlanks (← notClosed s) with
  | [] => .error .cutShort
  | b :: rest =>
    if b ≠ byte ',' then .error .malformed
    else if (skipBlanks rest).head? = some (byte ']') then .error .malformed
    else .ok rest

/-- The bytes after the closing bracket. -/
def afterClosing (s : Bytes) : Except Fault Bytes :=
  match skipBlanks s with
  | [] => .error .cutShort
  | b :: rest => if b = byte ']' then .ok rest else .error .malformed

def ofArray (s : Bytes) : Except Fault (Invocation × Bytes) := do
  let (isSync, s) ← flag (← notClosed s)
  let (method, s) ← text (← afterComma s)
  let (args, s) ← arguments (← afterComma s)
  let (timestamp, s) ← time (← afterComma s)
  .ok (⟨isSync, method, args, timestamp⟩, ← afterClosing s)

/-! ## An object -/

/-- The values read so far. -/
structure Draft where
  isSync : Option Bool := none
  method : Option String := none
  args : Option (List Json) := none
  timestamp : Option Int64 := none

namespace Draft

/-- Whether there is a value of that name. -/
def has (d : Draft) (name : String) : Bool :=
  match name with
  | "isSync" => d.isSync.isSome
  | "method" => d.method.isSome
  | "args" => d.args.isSome
  | "timestampMillis" => d.timestamp.isSome
  | _ => false

/-- Reads the value of that name. No value that is passed over nests deeper than it is
long. -/
def readValue (d : Draft) (name : String) (s : Bytes) : Except Fault (Draft × Bytes) :=
  match name with
  | "isSync" => (flag s).map fun (v, s) => ({ d with isSync := some v }, s)
  | "method" => (text s).map fun (v, s) => ({ d with method := some v }, s)
  | "args" => (arguments s).map fun (v, s) => ({ d with args := some v }, s)
  | "timestampMillis" => (time s).map fun (v, s) => ({ d with timestamp := some v }, s)
  | _ => (Json.pass s.length s).map fun (_, s) => (d, s)

/-- Reads a member. A name that comes again is refused before its colon. -/
def readMember (d : Draft) (s : Bytes) : Except Fault (Draft × Bytes) := do
  let (name, s) ← Json.quotedName Json.text s
  if d.has name then .error .unfit else d.readValue name (← Json.afterColon s)

/-- Reads the members up to the closing brace, at least one. Every member takes a byte, so
a count of steps that starts at the length of the text never runs out. -/
def readMembers : Nat → Draft → Bytes → Except Fault (Draft × Bytes)
  | 0, _, _ => .error .cutShort
  | steps + 1, d, s => do
    let (d, s) ← d.readMember s
    match skipBlanks s with
    | [] => .error .cutShort
    | b :: rest =>
      if b = byte '\x7d' then .ok (d, rest)
      else if b = byte ',' then d.readMembers steps rest
      else .error .malformed

/-- The invocation, if all its values are there. -/
def complete? (d : Draft) : Option Invocation := do
  return ⟨← d.isSync, ← d.method, ← d.args, ← d.timestamp⟩

end Draft

def ofObject (s : Bytes) : Except Fault (Invocation × Bytes) := do
  let (draft, rest) ← match skipBlanks s with
    | [] => .error .cutShort
    | b :: rest =>
      if b = byte '\x7d' then .ok ({}, rest) else Draft.readMembers s.length {} s
  match draft.complete? with
  | some i => .ok (i, rest)
  | none => .error .unfit

/-! ## Either form -/

def read (s : Bytes) : Except Fault (Invocation × Bytes) :=
  match skipBlanks s with
  | [] => .error .cutShort
  | b :: rest =>
    if b = byte '[' then ofArray rest
    else if b = byte '\x7b' then ofObject rest
    else scalar (fun _ => none) (b :: rest)

def decode (payload : ByteArray) : Except Fault Invocation :=
  Json.whole read payload.data.toList

end Invocation
end StyleCascade.Channel
