import StyleCascade.Json

/-!
# Reading JSON

The reader works on bytes, from left to right, and stops at the first fault: the
text ends too early, it is malformed, or it is well formed but not of the wanted
kind. A step takes the bytes that are left and gives a result with the bytes after
it. Arrays and objects nest at most `maxDepth` deep; the depth that is left is what
`value` recurs on.

Only space, tab, line feed and carriage return stand between tokens. A string has
to be UTF-8, which is decided when its closing quote is reached, and `\u` escapes of
surrogates have to come in pairs.
-/
namespace StyleCascade.Json

/-- Why a text cannot be read. -/
inductive Fault
  /-- The text ends too early. -/
  | cutShort
  /-- The text is not JSON. -/
  | malformed
  /-- The text is JSON, but not of the wanted kind. -/
  | unfit
deriving DecidableEq, Repr

abbrev Bytes := List UInt8

/-- Arrays and objects nest at most this deep. -/
def maxDepth : Nat := 127

/-- The byte of an ASCII character. -/
def byte (c : Char) : UInt8 := UInt8.ofNat c.toNat

def isBlank (b : UInt8) : Bool :=
  b = byte ' ' || b = byte '\t' || b = byte '\n' || b = byte '\r'

def skipBlanks (s : Bytes) : Bytes :=
  s.dropWhile isBlank

/-! ## Numbers -/

def isDigit (b : UInt8) : Bool :=
  byte '0' ≤ b && b ≤ byte '9'

def digitValue (b : UInt8) : Nat :=
  b.toNat - (byte '0').toNat

/-- The number that a list of digits denotes. -/
def numberOfDigits (digits : Bytes) : Nat :=
  digits.foldl (fun n b => 10 * n + digitValue b) 0

/-- Appends digits to a number as long as it stays within 64 bits; with the number come
the digits that are left over. -/
def takeDigits : Nat → Bytes → Nat × Bytes
  | n, [] => (n, [])
  | n, b :: rest =>
    if 10 * n + digitValue b ≤ greatestUInt64 then takeDigits (10 * n + digitValue b) rest
    else (n, b :: rest)

/-- The parts of a number as written. -/
structure Numeral where
  negative : Bool
  whole : Bytes
  fraction : Bytes
  /-- Whether the exponent is negative, and its digits. -/
  exponent : Option (Bool × Bytes)

/-- At least one digit; `short` is the fault where the text ends instead. -/
def digits (short : Fault) (s : Bytes) : Except Fault (Bytes × Bytes) :=
  match s.takeWhile isDigit with
  | [] => .error (if s.isEmpty then short else .malformed)
  | ds => .ok (ds, s.dropWhile isDigit)

/-- The part before the point: a lone zero, or digits that start with another one. -/
def wholeDigits (short : Fault) (s : Bytes) : Except Fault (Bytes × Bytes) := do
  let (ds, rest) ← digits short s
  if ds.head? = some (byte '0') ∧ ds.length ≠ 1 then .error .malformed
  else .ok (ds, rest)

def fractionDigits (short : Fault) : Bytes → Except Fault (Bytes × Bytes)
  | [] => .ok ([], [])
  | b :: rest => if b = byte '.' then digits short rest else .ok ([], b :: rest)

def exponentDigits (short : Fault) : Bytes → Except Fault (Option (Bool × Bytes) × Bytes)
  | [] => .ok (none, [])
  | b :: rest =>
    if b = byte 'e' ∨ b = byte 'E' then do
      let signed := rest.head? = some (byte '+') ∨ rest.head? = some (byte '-')
      let (ds, after) ← digits short (if signed then rest.drop 1 else rest)
      .ok (some (rest.head? = some (byte '-'), ds), after)
    else .ok (none, b :: rest)

/-- A number as written. -/
def numeral (short : Fault) (s : Bytes) : Except Fault (Numeral × Bytes) := do
  let negative := s.head? = some (byte '-')
  let (whole, s) ← wholeDigits short (if negative then s.drop 1 else s)
  let (fraction, s) ← fractionDigits short s
  let (exponent, s) ← exponentDigits short s
  .ok (⟨negative, whole, fraction, exponent⟩, s)

/-- The double that a number as written is read as. The leading digits, as many as fit
64 bits, are rounded to a double, which is then scaled by a power of ten: a digit left
over before the point raises the power, a digit taken behind it lowers it. Every step
rounds, so the result can miss the double nearest to the number by its last bits. -/
def Numeral.toBinary64? (n : Numeral) : Option Binary64 :=
  let exponent : Int := match n.exponent with
    | none => 0
    | some (true, ds) => -numberOfDigits ds
    | some (false, ds) => numberOfDigits ds
  let (whole, left) := takeDigits 0 n.whole
  let (digits, dropped) := takeDigits whole n.fraction
  let taken : Int := n.fraction.length - dropped.length
  { Binary64.ofInt digits with negative := n.negative }.scaleByTen
    (exponent + left.length - taken)

/-- The integer a number without fraction and exponent denotes, where it is one that a
value can hold. Minus zero is none. -/
def Numeral.toInteger? (n : Numeral) : Option Int :=
  let magnitude : Int := numberOfDigits n.whole
  if ¬n.fraction.isEmpty ∨ n.exponent.isSome then none
  else if n.negative then
    if 0 < magnitude ∧ leastInt64 ≤ -magnitude then some (-magnitude) else none
  else if magnitude ≤ greatestUInt64 then some magnitude else none

/-- The value of a number as written; `none` where it lies beyond the finite doubles. -/
def Numeral.toJson? (n : Numeral) : Option Json :=
  match n.toInteger? with
  | some i => some (.integer i)
  | none => n.toBinary64?.map .real

/-! ## Strings -/

/-- The value of a hexadecimal digit. -/
def hexValue? (b : UInt8) : Option Nat :=
  let n := b.toNat
  if byte '0' ≤ b ∧ b ≤ byte '9' then some (n - 48)
  else if byte 'a' ≤ b ∧ b ≤ byte 'f' then some (n - 87)
  else if byte 'A' ≤ b ∧ b ≤ byte 'F' then some (n - 55)
  else none

/-- The number that four hexadecimal digits denote. -/
def hexValue4? (a b c d : UInt8) : Option Nat := do
  return (((← hexValue? a) * 16 + (← hexValue? b)) * 16 + (← hexValue? c)) * 16 + (← hexValue? d)

/-- The byte that a one-letter escape stands for. -/
def simpleEscape? (b : UInt8) : Option UInt8 :=
  if b = byte '"' ∨ b = byte '\\' ∨ b = byte '/' then some b
  else if b = byte 'b' then some 0x08
  else if b = byte 'f' then some 0x0c
  else if b = byte 'n' then some 0x0a
  else if b = byte 'r' then some 0x0d
  else if b = byte 't' then some 0x09
  else none

def isHighSurrogate (n : Nat) : Bool := 0xD800 ≤ n && n ≤ 0xDBFF

def isLowSurrogate (n : Nat) : Bool := 0xDC00 ≤ n && n ≤ 0xDFFF

/-- The UTF-8 bytes of a code point. -/
def utf8 (n : Nat) : Bytes :=
  String.utf8EncodeChar (Char.ofNat n)

/-- The bytes of a string up to its closing quote, which is dropped. With `strict`, the
surrogates have to be paired; otherwise an escape only has to have its digits. -/
def stringBytes (strict : Bool) : Bytes → Except Fault (Bytes × Bytes)
  | [] => .error .cutShort
  | 0x22 :: rest => .ok ([], rest)
  | 0x5C :: 0x75 :: a :: b :: c :: d :: rest =>
    match hexValue4? a b c d with
    | none => .error .malformed
    | some n =>
      if !strict || (!isHighSurrogate n && !isLowSurrogate n) then do
        let (content, after) ← stringBytes strict rest
        .ok (utf8 n ++ content, after)
      else if isLowSurrogate n then .error .malformed
      else match rest with
        | [] => .error .cutShort
        | [x] => .error (if x = 0x5C then .cutShort else .malformed)
        | 0x5C :: 0x75 :: e :: f :: g :: h :: rest =>
          match hexValue4? e f g h with
          | none => .error .malformed
          | some m =>
            if isLowSurrogate m then do
              let (content, after) ← stringBytes strict rest
              .ok (utf8 ((n - 0xD800) * 0x400 + (m - 0xDC00) + 0x10000) ++ content, after)
            else .error .malformed
        | x :: y :: _ => .error (if x = 0x5C ∧ y = 0x75 then .cutShort else .malformed)
  | 0x5C :: rest =>
    match rest with
    | [] => .error .cutShort
    | x :: rest =>
      if x = 0x75 then .error .cutShort
      else match simpleEscape? x with
        | none => .error .malformed
        | some y => do
          let (content, after) ← stringBytes strict rest
          .ok (y :: content, after)
  | x :: rest =>
    if x < 0x20 then .error .malformed
    else do
      let (content, after) ← stringBytes strict rest
      .ok (x :: content, after)

/-- The text of a string after its opening quote. -/
def text (s : Bytes) : Except Fault (String × Bytes) := do
  let (content, rest) ← stringBytes true s
  match String.fromUTF8? content.toByteArray with
  | some t => .ok (t, rest)
  | none => .error .malformed

/-! ## Arrays and objects -/

section Brackets

variable {α κ : Type} (item : Bytes → Except Fault (α × Bytes))
  (key : Bytes → Except Fault (κ × Bytes))

/-- The elements up to the closing bracket, at least one. Every element takes a byte, so
a count of steps that starts at the length of the text never runs out. -/
def elementsFrom : Nat → Bytes → Except Fault (List α × Bytes)
  | 0, _ => .error .cutShort
  | steps + 1, s => do
    let (x, s) ← item s
    match skipBlanks s with
    | [] => .error .cutShort
    | b :: rest =>
      if b = byte ']' then .ok ([x], rest)
      else if b = byte ',' then
        if (skipBlanks rest).head? = some (byte ']') then .error .malformed
        else do
          let (xs, after) ← elementsFrom steps rest
          .ok (x :: xs, after)
      else .error .malformed

/-- The elements after an opening bracket. -/
def elements (s : Bytes) : Except Fault (List α × Bytes) :=
  match skipBlanks s with
  | [] => .error .cutShort
  | b :: rest => if b = byte ']' then .ok ([], rest) else elementsFrom item s.length s

/-- A quoted name. -/
def quotedName (s : Bytes) : Except Fault (κ × Bytes) :=
  match skipBlanks s with
  | [] => .error .cutShort
  | b :: rest => if b = byte '"' then key rest else .error .malformed

/-- The bytes after a colon. -/
def afterColon (s : Bytes) : Except Fault Bytes :=
  match skipBlanks s with
  | [] => .error .cutShort
  | b :: rest => if b = byte ':' then .ok rest else .error .malformed

/-- The members up to the closing brace, at least one. -/
def membersFrom : Nat → Bytes → Except Fault (List (κ × α) × Bytes)
  | 0, _ => .error .cutShort
  | steps + 1, s => do
    let (name, s) ← quotedName key s
    let (x, s) ← item (← afterColon s)
    match skipBlanks s with
    | [] => .error .cutShort
    | b :: rest =>
      if b = byte '\x7d' then .ok ([(name, x)], rest)
      else if b = byte ',' then do
        let (xs, after) ← membersFrom steps rest
        .ok ((name, x) :: xs, after)
      else .error .malformed

/-- The members after an opening brace. -/
def members (s : Bytes) : Except Fault (List (κ × α) × Bytes) :=
  match skipBlanks s with
  | [] => .error .cutShort
  | b :: rest => if b = byte '\x7d' then .ok ([], rest) else membersFrom item key s.length s

end Brackets

/-- The rest of a word whose first letter has been seen. -/
def word : Bytes → Bytes → Except Fault (Unit × Bytes)
  | [], s => .ok ((), s)
  | _ :: _, [] => .error .cutShort
  | w :: ws, b :: s => if b = w then word ws s else .error .malformed

/-! ## Values -/

/-- A value other than an array or an object, from its first byte on. -/
def scalar (s : Bytes) : Except Fault (Json × Bytes) :=
  match s with
  | [] => .error .cutShort
  | b :: rest =>
    if b = byte 'n' then do
      let ((), rest) ← word ("ull".toList.map byte) rest
      .ok (.null, rest)
    else if b = byte 't' then do
      let ((), rest) ← word ("rue".toList.map byte) rest
      .ok (.bool true, rest)
    else if b = byte 'f' then do
      let ((), rest) ← word ("alse".toList.map byte) rest
      .ok (.bool false, rest)
    else if b = byte '"' then do
      let (t, rest) ← text rest
      .ok (.string t, rest)
    else if b = byte '-' ∨ isDigit b then do
      let (n, rest) ← numeral .cutShort s
      match n.toJson? with
      | some v => .ok (v, rest)
      | none => .error .malformed
    else .error .malformed

/-- A value whose arrays and objects nest at most `depth` deep. -/
def value : Nat → Bytes → Except Fault (Json × Bytes)
  | depth, s =>
    match skipBlanks s with
    | [] => .error .cutShort
    | b :: rest =>
      if b = byte '[' then
        match depth with
        | 0 => .error .malformed
        | depth + 1 => do
          let (xs, rest) ← elements (value depth) rest
          .ok (.array xs, rest)
      else if b = byte '\x7b' then
        match depth with
        | 0 => .error .malformed
        | depth + 1 => do
          let (xs, rest) ← members (value depth) text rest
          .ok (ofMembers xs, rest)
      else scalar (b :: rest)

/-! ## Values that are passed over

A value that nobody wants is only checked for its brackets and tokens: it may nest
to any depth, its strings may hold any bytes and any surrogates, and its numbers any
magnitude. A number that stops short is malformed here even at the end of the text. -/

def passScalar (s : Bytes) : Except Fault (Unit × Bytes) :=
  match s with
  | [] => .error .cutShort
  | b :: rest =>
    if b = byte '"' then do
      let (_, rest) ← stringBytes false rest
      .ok ((), rest)
    else if b = byte '-' ∨ isDigit b then do
      let (_, rest) ← numeral .malformed s
      .ok ((), rest)
    else do
      let (_, rest) ← scalar s
      .ok ((), rest)

/-- Passes over a value. No text nests deeper than it is long. -/
def pass : Nat → Bytes → Except Fault (Unit × Bytes)
  | depth, s =>
    match skipBlanks s with
    | [] => .error .cutShort
    | b :: rest =>
      if b = byte '[' then
        match depth with
        | 0 => .error .cutShort
        | depth + 1 => do
          let (_, rest) ← elements (pass depth) rest
          .ok ((), rest)
      else if b = byte '\x7b' then
        match depth with
        | 0 => .error .cutShort
        | depth + 1 => do
          let (_, rest) ← members (pass depth) (stringBytes false) rest
          .ok ((), rest)
      else passScalar (b :: rest)

/-! ## Whole texts -/

/-- A step that has to take the whole text, blanks at the end apart. -/
def whole {α : Type} (step : Bytes → Except Fault (α × Bytes)) (s : Bytes) : Except Fault α := do
  let (x, rest) ← step s
  if (skipBlanks rest).isEmpty then .ok x else .error .malformed

/-- Reads a JSON text. -/
def ofBytes (s : Bytes) : Except Fault Json :=
  whole (value maxDepth) s

def ofString (s : String) : Except Fault Json :=
  ofBytes s.toUTF8.data.toList

end StyleCascade.Json
