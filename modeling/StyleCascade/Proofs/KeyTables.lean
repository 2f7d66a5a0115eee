import StyleCascade.Proofs.DerivedProperties

/-!
# Keys kept beside properties

A declaration works the key of a property out whenever it needs it.  A `KeyTable` keeps it twice
instead: an entry is stored under a key of its own, and the property in it carries the key that it
was built with.  Every operation has to put the right one of them in place: a write stores a
property under the key that it carries, a merge takes the keys of the other table over, clearing
builds every property anew under the key that is there, and what is derived is built under another
name.

**A table is always that of the declaration which the same operations make**
(`Making.table_eq`).  So its keys are pairwise different, each is the key that the property carries,
and that is the name with the state behind a colon if there is one (`Making.wellKeyed_table`).
Where a key comes from a JSON object, it was split at its first colon before, and putting the two
halves together gives it back (`Property.key_ofKey`).
-/
namespace StyleCascade

/-! ## Built properties -/

/-- A property together with the key that was put together when it was built. -/
structure BuiltProperty where
  key : String
  name : String
  state : Option String
  value : Option Json
  disabled : Bool

/-- What a property of this name and state is stored under. -/
def Property.joinedKey (name : String) (state : Option String) : String :=
  name ++ state.elim "" (":" ++ ·)

namespace BuiltProperty

/-- What a modified copy of a property starts from. -/
def parts (b : BuiltProperty) : Property where
  name := b.name
  state := b.state
  value := b.value
  disabled := b.disabled

end BuiltProperty

namespace Property

def build (p : Property) : BuiltProperty where
  key := joinedKey p.name p.state
  name := p.name
  state := p.state
  value := p.value
  disabled := p.disabled

theorem key_build (p : Property) : p.build.key = p.key := by
  obtain ⟨name, state, value, disabled⟩ := p
  cases state with
  | none => exact String.append_empty
  | some state => exact (String.append_assoc ..).symm

/-- **A key is put together again** from the halves that it was split into. -/
theorem key_ofKey (k : String) (value : Option Json) : (ofKey k value).key = k := by
  cases hcut : Text.cutAt ':' k.toList with
  | none =>
    have hsplit : splitKey k = (k, none) := by rw [splitKey, hcut]
    rw [ofKey, hsplit, key]
  | some halves =>
    obtain ⟨name, state⟩ := halves
    have hsplit : splitKey k = (String.ofList name, some (String.ofList state)) := by
      rw [splitKey, hcut]
    have htext : name ++ [':'] ++ state = k.toList := by
      rw [(Text.eq_of_cutAt hcut).1, List.append_assoc]
      rfl
    rw [ofKey, hsplit, key]
    refine String.toList_inj.mp ?_
    simpa using htext

end Property

/-! ## Tables -/

/-- Properties with the keys that they are stored under, in the order of the keys. -/
abbrev KeyTable := List (String × BuiltProperty)

namespace KeyTable

/-- Stores a property under the key that it carries. -/
def write (t : KeyTable) (b : BuiltProperty) : KeyTable :=
  Keyed.upsert Prod.fst (b.key, b) t

def writeAll (t : KeyTable) (ps : List Property) : KeyTable :=
  ps.foldl (fun t p => t.write p.build) t

def remove (t : KeyTable) (key : String) : KeyTable :=
  Keyed.erase Prod.fst key t

/-- Takes every entry of the other table over, under the key that it has there. -/
def merge (t source : KeyTable) : KeyTable :=
  Keyed.upsertAll Prod.fst t source

/-- Builds every property anew without its value, where it is. -/
def clear (t : KeyTable) : KeyTable :=
  t.map fun e => (e.1, { e.2.parts with value := none }.build)

/-- Writes what one derivation gives for the properties in the table. -/
def derive (t : KeyTable) (d : Derivation) (sheets : SheetStack) : KeyTable :=
  t.writeAll (t.filterMap fun e => d.derive? sheets e.2.parts)

def expand (t : KeyTable) (sheets : SheetStack) : KeyTable :=
  Derivation.all.foldl (fun t d => t.derive d sheets) t

def ofMembers (members : List (String × Json)) : KeyTable :=
  writeAll [] ((members.filter fun m => m.1.toList.head? ≠ some '_').map fun m =>
    Property.ofKey m.1 (some m.2))

/-- The values, collected by key. -/
def toMembers (t : KeyTable) : List (String × Json) :=
  Keyed.upsertAll Prod.fst [] (t.map fun e => (e.1, e.2.value.getD .null))

end KeyTable

/-- How a declaration is made. -/
inductive Making
  | ofMembers (members : List (String × Json))
  | insert (m : Making) (p : Property)
  | erase (m : Making) (key : String)
  | merge (m source : Making)
  | edit (m : Making) (name value : List Char) (disabled : Bool)
  | clear (m : Making)
  | expand (m : Making) (sheets : SheetStack)

namespace Making

def declaration : Making → Declaration
  | ofMembers members => .ofMembers members
  | insert m p => m.declaration.insert p
  | erase m key => m.declaration.erase key
  | merge m source => m.declaration.merge source.declaration
  | edit m name value disabled => m.declaration.insert (Declaration.edited name value disabled)
  | clear m => m.declaration.clear
  | expand m sheets => m.declaration.expand sheets

def table : Making → KeyTable
  | ofMembers members => .ofMembers members
  | insert m p => m.table.write p.build
  | erase m key => m.table.remove key
  | merge m source => m.table.merge source.table
  | edit m name value disabled => m.table.write (Declaration.edited name value disabled).build
  | clear m => m.table.clear
  | expand m sheets => m.table.expand sheets

end Making

/-! ## The table of a declaration -/

namespace Keyed

variable {α β κ : Type} [DecidableEq κ] {key : α → κ} {key' : β → κ} {f : α → β}

/-- Writing commutes with a translation that keeps keys. -/
theorem map_upsert (h : ∀ a, key' (f a) = key a) (a : α) (entries : List α) :
    (upsert key a entries).map f = upsert key' (f a) (entries.map f) := by
  induction entries with
  | nil => rfl
  | cons b rest ih =>
    rw [List.map_cons, upsert, upsert, h, h]
    split
    · rfl
    · rw [List.map_cons, ih]

theorem map_upsertAll (h : ∀ a, key' (f a) = key a) (entries added : List α) :
    (upsertAll key entries added).map f = upsertAll key' (entries.map f) (added.map f) := by
  induction added generalizing entries with
  | nil => rfl
  | cons a rest ih => rw [upsertAll_cons, ih, map_upsert h, List.map_cons, upsertAll_cons]

end Keyed

/-- A property, built, under its key. -/
def Property.entry (p : Property) : String × BuiltProperty :=
  (p.key, p.build)

theorem KeyTable.writeAll_eq_upsertAll (t : KeyTable) (ps : List Property) :
    t.writeAll ps = Keyed.upsertAll Prod.fst t (ps.map Property.entry) := by
  induction ps generalizing t with
  | nil => rfl
  | cons p rest ih =>
    have hrest : t.writeAll (p :: rest) = (t.write p.build).writeAll rest := rfl
    rw [hrest, ih, write, p.key_build]
    rfl

namespace Declaration

def table (d : Declaration) : KeyTable :=
  d.properties.map Property.entry

variable (d : Declaration)

theorem table_insertAll (ps : List Property) : (d.insertAll ps).table = d.table.writeAll ps := by
  have hkey : ∀ p : Property, p.entry.1 = p.key := fun _ => rfl
  rw [table, properties_insertAll, Keyed.map_upsertAll hkey, KeyTable.writeAll_eq_upsertAll]
  rfl

theorem table_insert (p : Property) : (d.insert p).table = d.table.write p.build :=
  d.table_insertAll [p]

theorem table_erase (key : String) : (d.erase key).table = d.table.remove key := by
  rw [table, table, KeyTable.remove, Keyed.erase, List.filter_map]
  rfl

theorem table_merge (source : Declaration) :
    (d.merge source).table = d.table.merge source.table := by
  rw [merge, table_insertAll, KeyTable.writeAll_eq_upsertAll]
  rfl

theorem table_clear : d.clear.table = d.table.clear := by
  rw [table, table, KeyTable.clear, clear, List.map_map, List.map_map]
  rfl

theorem table_apply (derivation : Derivation) (sheets : SheetStack) :
    (derivation.apply sheets d).table = d.table.derive derivation sheets := by
  rw [Derivation.apply, table_insertAll, KeyTable.derive, table, List.filterMap_map]
  rfl

theorem table_expand (sheets : SheetStack) : (d.expand sheets).table = d.table.expand sheets := by
  have hall : ∀ ds : List Derivation,
      (ds.foldl (fun style derivation => derivation.apply sheets style) d).table =
        ds.foldl (fun t derivation => t.derive derivation sheets) d.table := by
    intro ds
    induction ds generalizing d with
    | nil => rfl
    | cons derivation rest ih => rw [List.foldl_cons, List.foldl_cons, ih, table_apply]
  exact hall Derivation.all

theorem table_ofMembers (members : List (String × Json)) :
    (ofMembers members).table = .ofMembers members :=
  table_insertAll empty _

theorem map_fst_table : d.table.map Prod.fst = d.keys := by
  rw [table, List.map_map]
  rfl

theorem toMembers_table : d.table.toMembers = d.toMembers := by
  have hvalues : d.table.map (fun e => (e.1, e.2.value.getD .null)) = d.toMembers := by
    rw [table, List.map_map]
    rfl
  have hkeys : (d.toMembers.map Prod.fst).Nodup := by
    rw [toMembers, List.map_map]
    exact d.distinct
  rw [KeyTable.toMembers, hvalues, Keyed.upsertAll_nil_of_nodup Prod.fst hkeys]

/-- **A JSON object is given back**, without its notes. -/
theorem toMembers_ofMembers {members : List (String × Json)} (h : (members.map Prod.fst).Nodup) :
    (ofMembers members).toMembers = members.filter fun m => m.1.toList.head? ≠ some '_' := by
  let kept := members.filter fun m => m.1.toList.head? ≠ some '_'
  let read := fun m : String × Json => Property.ofKey m.1 (some m.2)
  have hkeys : (kept.map read).map Property.key = kept.map Prod.fst := by
    rw [List.map_map]
    exact List.map_congr_left fun m _ => Property.key_ofKey m.1 (some m.2)
  have hdistinct : ((kept.map read).map Property.key).Nodup := by
    rw [hkeys]
    exact List.Nodup.sublist (List.filter_sublist.map Prod.fst) h
  have hproperties : (ofMembers members).properties = kept.map read :=
    (properties_insertAll empty _).trans (Keyed.upsertAll_nil_of_nodup Property.key hdistinct)
  rw [toMembers, hproperties, List.map_map]
  refine (List.map_congr_left fun m _ => ?_).trans (List.map_id kept)
  exact Prod.ext (Property.key_ofKey m.1 (some m.2)) rfl

end Declaration

/-! ## Tables that are made -/

namespace Making

/-- **A table is that of the declaration** which the same operations make. -/
theorem table_eq (m : Making) : m.table = m.declaration.table := by
  induction m with
  | ofMembers members => exact (Declaration.table_ofMembers members).symm
  | insert m p ih => rw [table, ih, declaration, Declaration.table_insert]
  | erase m key ih => rw [table, ih, declaration, Declaration.table_erase]
  | merge m source ih ihs => rw [table, ih, ihs, declaration, Declaration.table_merge]
  | edit m name value disabled ih => rw [table, ih, declaration, Declaration.table_insert]
  | clear m ih => rw [table, ih, declaration, Declaration.table_clear]
  | expand m sheets ih => rw [table, ih, declaration, Declaration.table_expand]

/-- **Keys never go astray.**  However a declaration is made, the keys of its table are pairwise
different, and each is the key that the property under it carries: its name, and behind a colon its
state if it has one.  The table is that of the declaration, entry by entry.  A declaration that is
read from a JSON object gives the object back, without the members whose names start with an
underscore, in their order and with their values. -/
theorem wellKeyed_table (m : Making) :
    (m.table.map Prod.fst).Nodup ∧
      (∀ e ∈ m.table, e.1 = e.2.key ∧
        e.2.key = e.2.name ++ match e.2.state with
          | none => ""
          | some state => ":" ++ state) ∧
      m.table = m.declaration.properties.map Property.entry ∧
      ∀ members : List (String × Json), (members.map Prod.fst).Nodup →
        (ofMembers members).table.toMembers =
          members.filter (fun member => member.1.toList.head? ≠ some '_') ∧
        (ofMembers members).declaration.toMembers =
          members.filter fun member => member.1.toList.head? ≠ some '_' := by
  have htable := m.table_eq
  refine ⟨?_, ?_, htable, fun members hmembers => ⟨?_, ?_⟩⟩
  · rw [htable, Declaration.map_fst_table]
    exact m.declaration.distinct
  · intro e he
    rw [htable] at he
    obtain ⟨p, -, rfl⟩ := List.mem_map.mp he
    refine ⟨p.key_build.symm, ?_⟩
    obtain ⟨name, state, value, disabled⟩ := p
    cases state <;> rfl
  · rw [table_eq, Declaration.toMembers_table]
    exact Declaration.toMembers_ofMembers hmembers
  · exact Declaration.toMembers_ofMembers hmembers

/-- Two declarations that are merged, with keys of several colons, and a font that is edited and
described. -/
def fontMaking : Making :=
  expand (edit (merge
    (ofMembers [("_note", .null), ("fontFamily:active:x", .string "serif"), ("color", .null)])
    (clear (insert (erase (ofMembers [("width", .null)]) "width") { name := "a:b", state := "c" })))
    "font-family".toList "mono".toList true) {}

theorem wellKeyed_table_fontMaking :
    (fontMaking.table.map Prod.fst).Nodup ∧
      fontMaking.table.map Prod.fst = ["fontFamily:active:x", "color", "a:b:c", "fontFamily",
        "fontFamilyDesc:active:x", "fontFamilyDesc"] ∧
      fontMaking.table.map (·.2.state) = [some "active:x", none, some "c", none,
        some "active:x", none] ∧
      ([("_note", Json.null), ("a:b:c", .bool true)].map Prod.fst).Nodup ∧
      (ofMembers [("_note", .null), ("a:b:c", .bool true)]).declaration.toMembers =
        [("a:b:c", .bool true)] := by
  obtain ⟨hdistinct, -, -, hmembers⟩ := wellKeyed_table fontMaking
  have hnames : ([("_note", Json.null), ("a:b:c", .bool true)].map Prod.fst).Nodup := by decide
  exact ⟨hdistinct, by decide +kernel, by decide +kernel, hnames, (hmembers _ hnames).2⟩

end Making
end StyleCascade
