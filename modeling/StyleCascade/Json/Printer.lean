import StyleCascade.Json

/-!
# JSON text

The compact form has no blanks. The indented form puts every element and member on
a line of its own, two spaces deeper than its bracket; an empty array or object
stays on one line. Strings escape the quote, the backslash and the characters below
U+0020, and nothing else.
-/
namespace StyleCascade.Json

/-! ## Strings -/

/-- The lower-case hexadecimal digit of a number below sixteen. -/
def hexDigit (n : Nat) : Char :=
  Nat.digitChar n

/-- A character as it stands in a JSON string. -/
def escaped (c : Char) : List Char :=
  match c with
  | '"' => ['\\', '"']
  | '\\' => ['\\', '\\']
  | '\x08' => ['\\', 'b']
  | '\t' => ['\\', 't']
  | '\n' => ['\\', 'n']
  | '\x0c' => ['\\', 'f']
  | '\r' => ['\\', 'r']
  | c =>
    if c.toNat < 0x20 then
      ['\\', 'u', '0', '0', hexDigit (c.toNat / 16), hexDigit (c.toNat % 16)]
    else [c]

/-- A string between quotes. -/
def quoted (s : String) : List Char :=
  '"' :: s.toList.flatMap escaped ++ ['"']

/-- A decimal integer. -/
def integerChars (i : Int) : List Char :=
  if i < 0 then '-' :: Nat.toDigits 10 i.natAbs else Nat.toDigits 10 i.natAbs

/-! ## Compact form -/

mutual

/-- The compact form of a value. -/
def compactChars : Json → List Char
  | null => "null".toList
  | bool true => "true".toList
  | bool false => "false".toList
  | integer i => integerChars i
  | real x => x.chars
  | string s => quoted s
  | array [] => ['[', ']']
  | array (value :: rest) => '[' :: compactChars value ++ compactElements rest
  | object [] => ['\x7b', '\x7d']
  | object ((name, value) :: rest) =>
    '\x7b' :: quoted name ++ ':' :: compactChars value ++ compactMembers rest

/-- The elements after the first, and the closing bracket. -/
def compactElements : List Json → List Char
  | [] => [']']
  | value :: rest => ',' :: compactChars value ++ compactElements rest

/-- The members after the first, and the closing brace. -/
def compactMembers : List (String × Json) → List Char
  | [] => ['\x7d']
  | (name, value) :: rest => ',' :: quoted name ++ ':' :: compactChars value ++ compactMembers rest

end

/-- The compact text of a value. -/
def compact (value : Json) : String :=
  String.ofList value.compactChars

/-! ## Indented form -/

/-- A line break and the indentation of a level. -/
def newLine (level : Nat) : List Char :=
  '\n' :: List.replicate (2 * level) ' '

mutual

/-- The indented form of a value that starts on a line of the given level. -/
def indentedChars (level : Nat) : Json → List Char
  | array (value :: rest) =>
    '[' :: newLine (level + 1) ++ indentedChars (level + 1) value ++ indentedElements level rest
  | object ((name, value) :: rest) =>
    '\x7b' :: newLine (level + 1) ++ quoted name ++ ':' :: ' ' ::
      indentedChars (level + 1) value ++ indentedMembers level rest
  | value => compactChars value

def indentedElements (level : Nat) : List Json → List Char
  | [] => newLine level ++ [']']
  | value :: rest =>
    ',' :: newLine (level + 1) ++ indentedChars (level + 1) value ++ indentedElements level rest

def indentedMembers (level : Nat) : List (String × Json) → List Char
  | [] => newLine level ++ ['\x7d']
  | (name, value) :: rest =>
    ',' :: newLine (level + 1) ++ quoted name ++ ':' :: ' ' ::
      indentedChars (level + 1) value ++ indentedMembers level rest

end

/-- The indented text of a value. -/
def indented (value : Json) : String :=
  String.ofList (indentedChars 0 value)

end StyleCascade.Json
