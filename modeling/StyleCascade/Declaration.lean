import StyleCascade.Keyed
import StyleCascade.Property

/-!
# Declarations

A declaration holds properties in the order in which their keys came up. That order
is the order in which the cascade merges and the inspector shows them. Writing a
property whose key is present leaves it in its place, so no two properties of a
declaration ever share a key.
-/
namespace StyleCascade

structure Declaration where
  properties : List Property
  distinct : (properties.map Property.key).Nodup
deriving Repr

namespace Declaration

def empty : Declaration := ⟨[], List.nodup_nil⟩

instance : Inhabited Declaration := ⟨empty⟩

def size (d : Declaration) : Nat :=
  d.properties.length

def keys (d : Declaration) : List String :=
  d.properties.map (·.key)

def get? (d : Declaration) (key : String) : Option Property :=
  Keyed.lookup Property.key key d.properties

/-- Writes a property under its key. -/
def insert (d : Declaration) (p : Property) : Declaration where
  properties := Keyed.upsert Property.key p d.properties
  distinct := Keyed.nodup_map_key_upsert Property.key p d.distinct

def insertAll (d : Declaration) (ps : List Property) : Declaration :=
  ps.foldl insert d

def erase (d : Declaration) (key : String) : Declaration where
  properties := Keyed.erase Property.key key d.properties
  distinct := Keyed.nodup_map_key_erase Property.key key d.distinct

/-- Writes every property of `source`, in its order. -/
def merge (d source : Declaration) : Declaration :=
  d.insertAll source.properties

def ofList (ps : List Property) : Declaration :=
  empty.insertAll ps

/-- Makes every property undefined, in its place. -/
def clear (d : Declaration) : Declaration where
  properties := d.properties.map fun p => { p with value := none }
  distinct := by
    rw [List.map_map]
    exact d.distinct

theorem keys_clear (d : Declaration) : d.clear.keys = d.keys := by
  simp [keys, clear, Property.key]

/-- The properties that are not disabled. -/
def enabled (d : Declaration) : List Property :=
  d.properties.filter (!·.disabled)

/-- Reads a JSON object. Members whose name starts with an underscore are notes, not
properties. -/
def ofMembers (members : List (String × Json)) : Declaration :=
  ofList <| (members.filter fun m => m.1.toList.head? ≠ some '_').map fun m =>
    Property.ofKey m.1 (some m.2)

/-- The values by key, for a view. An undefined property becomes null, so that the view
clears it. -/
def toMembers (d : Declaration) : List (String × Json) :=
  d.properties.map fun p => (p.key, p.value.getD .null)

/-- The property that an inspector's edit of `name` to `value` writes. -/
def edited (name value : List Char) (disabled : Bool) : Property :=
  { Property.ofKey (String.ofList (Property.camelChars name))
      (some (.string (String.ofList value))) with disabled := disabled }

/-- Whether two declarations hold the same properties, in whatever order. -/
def same (d e : Declaration) : Bool :=
  d.size = e.size && d.properties.all fun p =>
    match e.get? p.key with
    | some q => p.same q
    | none => false

end Declaration
end StyleCascade
