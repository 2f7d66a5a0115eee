import Mathlib.Data.List.Basic
import StyleCascade.Declaration

/-!
# The last write wins

What a list read as a map holds after a run of writes: under each key the last
entry written to it, or else what was there before.  Keys that were present keep
their places, and new ones follow them, so a map is determined by its keys in order
and its look-ups (`Keyed.eq_of_lookup`, `Declaration.eq_of_get?`).
-/
namespace StyleCascade
namespace Keyed

variable {α κ : Type} [DecidableEq κ] (key : α → κ)

/-- The last of several entries that is written under `k`. -/
def lastUnder (k : κ) (added : List α) : Option α :=
  added.reverse.find? (key · = k)

theorem lastUnder_append (k : κ) (first second : List α) :
    lastUnder key k (first ++ second) = (lastUnder key k second).or (lastUnder key k first) := by
  rw [lastUnder, List.reverse_append, List.find?_append]
  rfl

theorem lastUnder_eq_none {k : κ} {added : List α} (h : ∀ a ∈ added, key a ≠ k) :
    lastUnder key k added = none := by
  refine List.find?_eq_none.mpr ?_
  intro a ha
  simpa using h a (List.mem_reverse.mp ha)

theorem mem_of_lastUnder {k : κ} {added : List α} {a : α} (h : lastUnder key k added = some a) :
    a ∈ added ∧ key a = k := by
  have hmem : a ∈ added.reverse := List.mem_of_find?_eq_some h
  have hkey := List.find?_some h
  exact ⟨List.mem_reverse.mp hmem, of_decide_eq_true hkey⟩

/-- When no two entries share a key, the last entry under a key is the entry found
there. -/
theorem lastUnder_eq_of_mem {added : List α} {a : α} (ha : a ∈ added)
    (hone : ∀ b ∈ added, key b = key a → b = a) : lastUnder key (key a) added = some a := by
  cases h : lastUnder key (key a) added with
  | none =>
    have hnone := List.find?_eq_none.mp h a (List.mem_reverse.mpr ha)
    simp at hnone
  | some b =>
    obtain ⟨hb, hk⟩ := mem_of_lastUnder key h
    rw [hone b hb hk]

/-! ## Look-ups after a run of writes -/

theorem upsertAll_cons (a : α) (entries added : List α) :
    upsertAll key entries (a :: added) = upsertAll key (upsert key a entries) added := rfl

/-- **The last write wins.** -/
theorem lookup_upsertAll (k : κ) (entries added : List α) :
    lookup key k (upsertAll key entries added) =
      (lastUnder key k added).or (lookup key k entries) := by
  induction added generalizing entries with
  | nil => rfl
  | cons a rest ih =>
    rw [upsertAll_cons, ih, show a :: rest = [a] ++ rest from rfl, lastUnder_append,
      Option.or_assoc]
    refine congrArg ((lastUnder key k rest).or ·) ?_
    by_cases h : key a = k
    · subst h
      rw [lookup_upsert_self]
      simp [lastUnder]
    · rw [lookup_upsert_of_ne key h]
      simp [lastUnder, h]

/-! ## Keys after a run of writes -/

/-- Keys that are present keep their places. -/
theorem map_key_prefix_upsertAll (entries added : List α) :
    entries.map key <+: (upsertAll key entries added).map key := by
  induction added generalizing entries with
  | nil => exact List.prefix_refl _
  | cons a rest ih =>
    refine List.IsPrefix.trans ?_ (ih (upsert key a entries))
    rw [map_key_upsert]
    split
    · exact List.prefix_refl _
    · exact List.prefix_append _ _

theorem mem_map_key_upsertAll {k : κ} {entries added : List α} :
    k ∈ (upsertAll key entries added).map key ↔ k ∈ entries.map key ∨ k ∈ added.map key := by
  induction added generalizing entries with
  | nil => simp [upsertAll]
  | cons a rest ih =>
    rw [upsertAll_cons, ih, map_key_upsert, List.map_cons, List.mem_cons]
    split
    · rename_i ha
      constructor
      · rintro (h | h)
        · exact Or.inl h
        · exact Or.inr (Or.inr h)
      · rintro (h | rfl | h)
        · exact Or.inl h
        · exact Or.inl ha
        · exact Or.inr h
    · rw [List.mem_append, List.mem_singleton, or_assoc]

theorem mem_of_mem_upsert {a b : α} {entries : List α} (h : b ∈ upsert key a entries) :
    b = a ∨ b ∈ entries := by
  induction entries with
  | nil => exact Or.inl (List.mem_singleton.mp h)
  | cons c rest ih =>
    rw [upsert] at h
    split at h
    · rcases List.mem_cons.mp h with rfl | h
      · exact Or.inl rfl
      · exact Or.inr (List.mem_cons_of_mem _ h)
    · rcases List.mem_cons.mp h with rfl | h
      · exact Or.inr List.mem_cons_self
      · rcases ih h with rfl | h
        · exact Or.inl rfl
        · exact Or.inr (List.mem_cons_of_mem _ h)

/-- A run of writes brings in nothing but what was written. -/
theorem mem_of_mem_upsertAll {b : α} {entries added : List α}
    (h : b ∈ upsertAll key entries added) : b ∈ entries ∨ b ∈ added := by
  induction added generalizing entries with
  | nil => exact Or.inl h
  | cons a rest ih =>
    rcases ih h with h | h
    · rcases mem_of_mem_upsert key h with rfl | h
      · exact Or.inr List.mem_cons_self
      · exact Or.inl h
    · exact Or.inr (List.mem_cons_of_mem _ h)

theorem upsert_append_of_notMem {a : α} {entries : List α} (h : key a ∉ entries.map key)
    (more : List α) : upsert key a (entries ++ more) = entries ++ upsert key a more := by
  induction entries with
  | nil => rfl
  | cons b rest ih =>
    rw [List.map_cons, List.mem_cons, not_or] at h
    rw [List.cons_append, upsert, if_neg (Ne.symm h.1), ih h.2]
    rfl

/-- Writes under new keys leave the old entries alone: they build their own map behind
them. -/
theorem upsertAll_of_disjoint {entries added : List α}
    (h : ∀ a ∈ added, key a ∉ entries.map key) :
    upsertAll key entries added = entries ++ upsertAll key [] added := by
  suffices hmore : ∀ more, upsertAll key (entries ++ more) added =
      entries ++ upsertAll key more added by
    simpa using hmore []
  induction added with
  | nil => exact fun _ => rfl
  | cons a rest ih =>
    intro more
    rw [upsertAll_cons, upsert_append_of_notMem key (h a List.mem_cons_self),
      ih fun b hb => h b (List.mem_cons_of_mem _ hb)]
    rfl

/-- Entries of pairwise different keys are written one after the other. -/
theorem upsertAll_nil_of_nodup {added : List α} (h : (added.map key).Nodup) :
    upsertAll key [] added = added := by
  induction added with
  | nil => rfl
  | cons a rest ih =>
    obtain ⟨ha, hrest⟩ := List.nodup_cons.mp h
    have hapart : ∀ b ∈ rest, key b ∉ [a].map key := by
      intro b hb hkey
      rw [List.map_singleton, List.mem_singleton] at hkey
      exact ha (hkey ▸ List.mem_map_of_mem hb)
    rw [upsertAll_cons, upsert, upsertAll_of_disjoint key hapart, ih hrest]
    rfl

/-- A write that a test leaves out, and that overwrites nothing but what it leaves out,
does not show in what passes the test. -/
theorem filter_upsert_of_false (test : α → Bool) {a : α}
    (h : ∀ b, key b = key a → test b = false) (entries : List α) :
    (upsert key a entries).filter test = entries.filter test := by
  induction entries with
  | nil => simp [upsert, h a rfl]
  | cons b rest ih =>
    rw [upsert]
    split
    · rename_i hb
      rw [List.filter_cons_of_neg (by simp [h a rfl]), List.filter_cons_of_neg (by simp [h b hb])]
    · rw [List.filter_cons, List.filter_cons, ih]

theorem filter_upsertAll_of_false (test : α → Bool) {added : List α}
    (h : ∀ a ∈ added, ∀ b, key b = key a → test b = false) (entries : List α) :
    (upsertAll key entries added).filter test = entries.filter test := by
  induction added generalizing entries with
  | nil => rfl
  | cons a rest ih =>
    rw [upsertAll_cons, ih fun b hb => h b (List.mem_cons_of_mem _ hb),
      filter_upsert_of_false key test (h a List.mem_cons_self)]

/-! ## A map is its keys and its look-ups -/

theorem lookup_eq_none_iff {k : κ} {entries : List α} :
    lookup key k entries = none ↔ k ∉ entries.map key := by
  rw [lookup, List.find?_eq_none, List.mem_map]
  simp

theorem lookup_eq_some_of_mem {entries : List α} (hd : (entries.map key).Nodup) {a : α}
    (ha : a ∈ entries) : lookup key (key a) entries = some a := by
  induction entries with
  | nil => cases ha
  | cons b rest ih =>
    obtain ⟨hnot, hrest⟩ := List.nodup_cons.mp hd
    rcases List.mem_cons.mp ha with rfl | ha
    · simp [lookup]
    · have hne : key b ≠ key a := fun he => hnot (he ▸ List.mem_map_of_mem ha)
      rw [lookup, List.find?_cons_of_neg (by simpa using hne)]
      exact ih hrest ha

theorem mem_of_lookup {k : κ} {entries : List α} {a : α} (h : lookup key k entries = some a) :
    a ∈ entries ∧ key a = k := by
  have hkey := List.find?_some h
  exact ⟨List.mem_of_find?_eq_some h, of_decide_eq_true hkey⟩

/-- Two lists without a repeated key that have the same keys in the same order and the
same look-ups are the same list. -/
theorem eq_of_lookup {first second : List α} (hd : (first.map key).Nodup)
    (hkeys : first.map key = second.map key)
    (hlook : ∀ k, lookup key k first = lookup key k second) : first = second := by
  induction first generalizing second with
  | nil => exact (List.map_eq_nil_iff.mp hkeys.symm).symm
  | cons a rest ih =>
    obtain ⟨b, rest', rfl⟩ : ∃ b rest', second = b :: rest' := by
      cases second with
      | nil => simp at hkeys
      | cons b rest' => exact ⟨b, rest', rfl⟩
    obtain ⟨hab, hrest⟩ := List.cons.inj (by simpa only [List.map_cons] using hkeys)
    obtain ⟨hnot, hd⟩ := List.nodup_cons.mp hd
    have heq : a = b := by simpa [lookup, hab] using hlook (key a)
    subst heq
    refine congrArg (a :: ·) (ih hd hrest ?_)
    intro k
    by_cases hk : key a = k
    · subst hk
      rw [(lookup_eq_none_iff key).mpr hnot, (lookup_eq_none_iff key).mpr (hrest ▸ hnot)]
    · simpa [lookup, hk] using hlook k

end Keyed

/-! ## Declarations -/

/-- The property without its value. -/
def Property.cleared (p : Property) : Property := { p with value := none }

namespace Declaration

theorem properties_insertAll (d : Declaration) (ps : List Property) :
    (d.insertAll ps).properties = Keyed.upsertAll Property.key d.properties ps := by
  induction ps generalizing d with
  | nil => rfl
  | cons p rest ih => exact ih (d.insert p)

/-- Writing properties one after the other leaves under each key the last one written. -/
theorem get?_insertAll (d : Declaration) (ps : List Property) (key : String) :
    (d.insertAll ps).get? key = (Keyed.lastUnder Property.key key ps).or (d.get? key) := by
  rw [get?, properties_insertAll, Keyed.lookup_upsertAll]
  rfl

theorem keys_prefix_insertAll (d : Declaration) (ps : List Property) :
    d.keys <+: (d.insertAll ps).keys := by
  rw [keys, keys, properties_insertAll]
  exact Keyed.map_key_prefix_upsertAll Property.key d.properties ps

theorem get?_clear (d : Declaration) (key : String) :
    d.clear.get? key = (d.get? key).map Property.cleared := by
  rw [get?, clear, Keyed.lookup, List.find?_map]
  rfl

theorem mem_keys_iff {d : Declaration} {key : String} :
    key ∈ d.keys ↔ (d.get? key).isSome := by
  rw [← not_iff_not, keys, ← Keyed.lookup_eq_none_iff, get?, Option.isSome_iff_ne_none, not_not]

theorem get?_of_mem {d : Declaration} {p : Property} (hp : p ∈ d.properties) :
    d.get? p.key = some p :=
  Keyed.lookup_eq_some_of_mem Property.key d.distinct hp

/-- Two declarations with the same keys in the same order and the same entries are equal. -/
theorem eq_of_get? {d e : Declaration} (hkeys : d.keys = e.keys)
    (hget : ∀ key, d.get? key = e.get? key) : d = e := by
  have h : d.properties = e.properties :=
    Keyed.eq_of_lookup Property.key d.distinct hkeys hget
  cases d
  cases e
  cases h
  rfl

/-- Of the properties of a declaration that pass a test, the last under a key is the entry of that
key, if it passes. -/
theorem lastUnder_filter (d : Declaration) (test : Property → Bool) (key : String) :
    Keyed.lastUnder Property.key key (d.properties.filter test) = (d.get? key).filter test := by
  cases h : d.get? key with
  | none =>
    refine Keyed.lastUnder_eq_none Property.key ?_
    intro p hp he
    have hget := get?_of_mem (List.mem_filter.mp hp).1
    rw [he, h] at hget
    cases hget
  | some p =>
    obtain ⟨hmem, rfl⟩ := Keyed.mem_of_lookup Property.key h
    have hone : ∀ q ∈ d.properties, q.key = p.key → q = p := by
      intro q hq he
      have hpq := get?_of_mem hq
      rw [he, h] at hpq
      exact (Option.some.inj hpq).symm
    cases hp : test p with
    | true =>
      rw [Option.filter_some_pos hp]
      exact Keyed.lastUnder_eq_of_mem Property.key (List.mem_filter.mpr ⟨hmem, hp⟩)
        fun q hq => hone q (List.mem_filter.mp hq).1
    | false =>
      rw [Option.filter_some_neg hp]
      refine Keyed.lastUnder_eq_none Property.key ?_
      intro q hq he
      obtain ⟨hq, hon⟩ := List.mem_filter.mp hq
      rw [hone q hq he, hp] at hon
      cases hon

theorem lastUnder_enabled (d : Declaration) (key : String) :
    Keyed.lastUnder Property.key key d.enabled = (d.get? key).filter (!·.disabled) :=
  d.lastUnder_filter _ key

/-- What a merge leaves under a key: the entry of the declaration that is merged in, if any. -/
theorem get?_merge (d source : Declaration) (key : String) :
    (d.merge source).get? key = (source.get? key).or (d.get? key) := by
  have hlast : Keyed.lastUnder Property.key key source.properties = source.get? key := by
    have hall := source.lastUnder_filter (fun _ => true) key
    rw [List.filter_true] at hall
    cases h : source.get? key <;> rwa [h] at hall
  rw [merge, get?_insertAll, hlast]

end Declaration
end StyleCascade
