/-!
# Lists read as maps in insertion order

An entry carries its own key, and a list of entries stands for a map. Writing an
entry whose key is present overwrites it where it stands; a new key goes to the
end. Object members, declarations, lookup tables, reported states and listener
registries are all lists of this kind.
-/
namespace StyleCascade.Keyed

variable {α κ : Type} [DecidableEq κ] (key : α → κ)

/-- The entry stored under `k`. -/
def lookup (k : κ) (entries : List α) : Option α :=
  entries.find? (key · = k)

/-- Writes `a`: over the entry of the same key, or else at the end. -/
def upsert (a : α) : List α → List α
  | [] => [a]
  | b :: rest => if key b = key a then a :: rest else b :: upsert a rest

/-- Writes every entry of `added` in turn. -/
def upsertAll (entries added : List α) : List α :=
  added.foldl (fun acc a => upsert key a acc) entries

/-- Drops the entry stored under `k`; the others keep their order. -/
def erase (k : κ) (entries : List α) : List α :=
  entries.filter (key · ≠ k)

/-! ## What the operations do to keys and lookups -/

/-- Writing keeps every key where it was, and adds a new one at the end. -/
theorem map_key_upsert (a : α) (entries : List α) :
    (upsert key a entries).map key =
      if key a ∈ entries.map key then entries.map key else entries.map key ++ [key a] := by
  induction entries with
  | nil => simp [upsert]
  | cons b rest ih =>
    by_cases h : key b = key a
    · simp [upsert, h]
    · have h' : ¬key a = key b := fun e => h e.symm
      simp only [upsert, h, ite_false, List.map_cons, ih, List.mem_cons, h', false_or]
      split <;> simp

theorem nodup_map_key_upsert (a : α) {entries : List α} (h : (entries.map key).Nodup) :
    ((upsert key a entries).map key).Nodup := by
  rw [map_key_upsert]
  split
  · exact h
  · rename_i hmem
    rw [List.nodup_append]
    refine ⟨h, by simp, ?_⟩
    rintro x hx y hy rfl
    exact hmem (List.mem_singleton.mp hy ▸ hx)

theorem nodup_map_key_erase (k : κ) {entries : List α} (h : (entries.map key).Nodup) :
    ((erase key k entries).map key).Nodup :=
  List.Nodup.sublist (List.filter_sublist.map key) h

theorem lookup_upsert_self (a : α) (entries : List α) :
    lookup key (key a) (upsert key a entries) = some a := by
  induction entries with
  | nil => simp [lookup, upsert]
  | cons b rest ih =>
    by_cases h : key b = key a
    · simp [lookup, upsert, h]
    · simp only [lookup] at ih
      simp [lookup, upsert, h, ih]

theorem lookup_upsert_of_ne {a : α} {k : κ} (hk : key a ≠ k) (entries : List α) :
    lookup key k (upsert key a entries) = lookup key k entries := by
  induction entries with
  | nil => simp [lookup, upsert, hk]
  | cons b rest ih =>
    simp only [lookup] at ih
    by_cases h : key b = key a
    · have hb : key b ≠ k := fun e => hk (h ▸ e)
      simp [lookup, upsert, h, hk]
    · rw [upsert, if_neg h, lookup, List.find?_cons, lookup, List.find?_cons, ih]

end StyleCascade.Keyed
