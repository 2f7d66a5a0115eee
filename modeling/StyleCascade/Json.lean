import StyleCascade.Binary64
import StyleCascade.Keyed

/-!
# JSON values

Integers and doubles are kept apart: `1` and `1.0` are different values. An object
is a list of members in the order of the text, with one member per name.
-/
namespace StyleCascade

/-- A JSON value. Integers run from `-2 ^ 63` to `2 ^ 64 - 1`. -/
inductive Json
  | null
  | bool (value : Bool)
  | integer (value : Int)
  | real (value : Binary64)
  | string (value : String)
  | array (elements : List Json)
  | object (members : List (String × Json))
deriving Repr, Inhabited

namespace Json

/-! ## Views -/

def asBool? : Json → Option Bool
  | bool b => some b
  | _ => none

def asString? : Json → Option String
  | string s => some s
  | _ => none

def asArray? : Json → Option (List Json)
  | array elements => some elements
  | _ => none

def asObject? : Json → Option (List (String × Json))
  | object members => some members
  | _ => none

/-- The least integer of 64 bits with a sign. -/
def leastInt64 : Int := -0x8000000000000000

/-- The greatest integer of 64 bits with a sign. -/
def greatestInt64 : Int := 0x7FFFFFFFFFFFFFFF

/-- The greatest integer of 64 bits without a sign. -/
def greatestUInt64 : Int := 0xFFFFFFFFFFFFFFFF

def asInt64? : Json → Option Int
  | integer i => if leastInt64 ≤ i ∧ i ≤ greatestInt64 then some i else none
  | _ => none

def asNat? : Json → Option Nat
  | integer i => i.toNat?
  | _ => none

/-- The member called `name`, of an object that has one. -/
def member? (name : String) : Json → Option Json
  | object members => (Keyed.lookup Prod.fst name members).map Prod.snd
  | _ => none

/-- An object from a list of members; a repeated name keeps its first place and its
last value. -/
def ofMembers (members : List (String × Json)) : Json :=
  object (Keyed.upsertAll Prod.fst [] members)

/-! ## Equality

The order of members does not tell two objects apart, and the two zeros are equal
doubles. -/

mutual

/-- Whether two values are equal. -/
def same : Json → Json → Bool
  | null, null => true
  | bool a, bool b => a = b
  | integer i, integer j => i = j
  | real x, real y => x.same y
  | string s, string t => s = t
  | array a, array b => sameElements a b
  | object a, object b => a.length = b.length && sameMembers a b
  | _, _ => false

def sameElements : List Json → List Json → Bool
  | [], [] => true
  | a :: as, b :: bs => same a b && sameElements as bs
  | _, _ => false

/-- Whether every member of the first list has an equal one of its name in the second. -/
def sameMembers : List (String × Json) → List (String × Json) → Bool
  | [], _ => true
  | (name, value) :: rest, others =>
    (match Keyed.lookup Prod.fst name others with
      | some (_, other) => same value other
      | none => false) && sameMembers rest others

end

mutual

/-- The greatest number of arrays and objects inside one another. -/
def depth : Json → Nat
  | array elements => depthOfElements elements + 1
  | object members => depthOfMembers members + 1
  | _ => 0

def depthOfElements : List Json → Nat
  | [] => 0
  | value :: rest => max (depth value) (depthOfElements rest)

def depthOfMembers : List (String × Json) → Nat
  | [] => 0
  | (_, value) :: rest => max (depth value) (depthOfMembers rest)

end

end Json
end StyleCascade
