import Mathlib.Data.List.AList

/-! Hash tables as association lists without repeated keys.

The order of the entries is the order in which the table lists its keys; it is
part of the value, so a statement about every table is one about every listing
order. A second part is about pairs of tables that index the same entries by
two different keys.
-/

set_option autoImplicit false

namespace Inotispy.Library

abbrev GHashTable (K V : Type) := AList fun _ : K => V

namespace GHashTable

variable {K V : Type} [DecidableEq K]

theorem lookup_insert_if (table : GHashTable K V) (key other : K) (value : V) :
    (table.insert key value).lookup other = if other = key then some value else table.lookup other := by
  split
  · subst other
    exact AList.lookup_insert table
  · exact AList.lookup_insert_ne ‹_›

theorem lookup_singleton_if (key other : K) (value : V) :
    (AList.singleton key value : GHashTable K V).lookup other = if other = key then some value else none := by
  rw [← AList.insert_empty, lookup_insert_if, AList.lookup_empty]

theorem lookup_erase_if (table : GHashTable K V) (key other : K) :
    (table.erase key).lookup other = if other = key then none else table.lookup other := by
  split
  · subst other
    exact AList.lookup_erase _ table
  · exact AList.lookup_erase_ne ‹_›

theorem mem_keys_iff (table : GHashTable K V) (key : K) :
    key ∈ table.keys ↔ ∃ value, table.lookup key = some value := by
  rw [← AList.mem_keys, ← AList.lookup_isSome, Option.isSome_iff_exists]

theorem lookup_eq_none_iff (table : GHashTable K V) (key : K) :
    table.lookup key = none ↔ key ∉ table.keys := by
  rw [AList.lookup_eq_none, AList.mem_keys]

theorem length_keys_erase {table : GHashTable K V} {key : K} (member : key ∈ table.keys) :
    (table.erase key).keys.length + 1 = table.keys.length := by
  have positive := List.length_pos_of_mem member
  rw [AList.keys_erase, List.length_erase_of_mem member]
  omega

theorem length_keys_erase_le (table : GHashTable K V) (key : K) :
    (table.erase key).keys.length ≤ table.keys.length := by
  rw [AList.keys_erase]
  exact List.length_erase_le

theorem erase_of_not_mem {table : GHashTable K V} {key : K} (absent : table.lookup key = none) :
    table.erase key = table :=
  AList.ext (List.kerase_of_notMem_keys ((lookup_eq_none_iff table key).mp absent))

theorem length_keys_insert_le (table : GHashTable K V) (key : K) (value : V) :
    (table.insert key value).keys.length ≤ table.keys.length + 1 := by
  rw [AList.keys_insert, List.length_cons]
  exact Nat.succ_le_succ List.length_erase_le

theorem length_keys_insert {table : GHashTable K V} {key : K} (new : table.lookup key = none) (value : V) :
    (table.insert key value).keys.length = table.keys.length + 1 := by
  rw [AList.keys_insert, List.length_cons, List.erase_of_not_mem]
  exact (lookup_eq_none_iff table key).mp new

def values (table : GHashTable K V) : List V := table.entries.map (·.2)

theorem mem_values_iff (table : GHashTable K V) (value : V) :
    value ∈ table.values ↔ ∃ key, table.lookup key = some value := by
  rw [values, List.mem_map]
  constructor
  · rintro ⟨⟨key, _⟩, member, rfl⟩
    exact ⟨key, AList.mem_lookup_iff.mpr member⟩
  · rintro ⟨key, found⟩
    exact ⟨⟨key, value⟩, AList.mem_lookup_iff.mp found, rfl⟩

/-- Every value is filed under its own key. -/
def Filed (key : V → K) (table : GHashTable K V) : Prop :=
  ∀ k v, table.lookup k = some v → key v = k

variable {key : V → K} {table : GHashTable K V}

theorem Filed.empty : Filed key (∅ : GHashTable K V) := by
  intro k v found
  simp at found

theorem Filed.insert (filed : Filed key table) (v : V) : Filed key (table.insert (key v) v) := by
  intro k w found
  rw [lookup_insert_if] at found
  split at found
  · cases found
    exact (‹k = key v›).symm
  · exact filed k w found

theorem Filed.erase (filed : Filed key table) (gone : K) : Filed key (table.erase gone) := by
  intro k w found
  rw [lookup_erase_if] at found
  split at found
  · cases found
  · exact filed k w found

/-! ## Several insertions -/

/-- The table after a list of values has been inserted, the last of them first in the list. -/
def insertAll (key : V → K) (values : List V) (table : GHashTable K V) : GHashTable K V :=
  values.foldr (fun v grown => grown.insert (key v) v) table

@[simp] theorem insertAll_nil : insertAll key [] table = table := rfl

@[simp] theorem insertAll_cons (v : V) (values : List V) :
    insertAll key (v :: values) table = (insertAll key values table).insert (key v) v := rfl

theorem lookup_insertAll_of_not_mem {values : List V} {k : K} (other : k ∉ values.map key) :
    (insertAll key values table).lookup k = table.lookup k := by
  induction values with
  | nil => rfl
  | cons v values ih =>
    simp only [List.map_cons, List.mem_cons, not_or] at other
    rw [insertAll_cons, AList.lookup_insert_ne other.1]
    exact ih other.2

theorem lookup_insertAll_of_mem {values : List V} (different : (values.map key).Nodup) {v : V}
    (member : v ∈ values) : (insertAll key values table).lookup (key v) = some v := by
  induction values with
  | nil => cases member
  | cons w values ih =>
    rw [List.map_cons, List.nodup_cons] at different
    rw [insertAll_cons, lookup_insert_if]
    rcases List.mem_cons.mp member with rfl | later
    · rw [if_pos rfl]
    · have differs : key v ≠ key w := by
        intro same
        exact different.1 (same ▸ List.mem_map_of_mem later)
      rw [if_neg differs]
      exact ih different.2 later

theorem entries_insertAll {values : List V} (different : (values.map key).Nodup)
    (new : ∀ v ∈ values, table.lookup (key v) = none) :
    (insertAll key values table).entries = values.map (fun v => ⟨key v, v⟩) ++ table.entries := by
  induction values with
  | nil => rfl
  | cons v values ih =>
    rw [List.map_cons, List.nodup_cons] at different
    have absent : key v ∉ insertAll key values table := by
      rw [← AList.lookup_eq_none, lookup_insertAll_of_not_mem different.1]
      exact new v (by simp)
    rw [insertAll_cons, AList.entries_insert_of_notMem absent,
      ih different.2 fun w member => new w (List.mem_cons_of_mem v member)]
    rfl

end GHashTable

/-! ## Two tables over the same entries -/

namespace PairedTables

variable {D P W : Type} [DecidableEq D] [DecidableEq P] (wd : W → D) (path : W → P)

/-- Each entry of the path table is filed under its own path, and the descriptor
table holds the same entry under its descriptor. -/
def Anchored (byWd : GHashTable D W) (byPath : GHashTable P W) : Prop :=
  ∀ p w, byPath.lookup p = some w → path w = p ∧ byWd.lookup (wd w) = some w

/-- The path table holds each entry of the descriptor table under its path. -/
def Current (byWd : GHashTable D W) (byPath : GHashTable P W) : Prop :=
  ∀ d w, byWd.lookup d = some w → byPath.lookup (path w) = some w

structure Inverse (byWd : GHashTable D W) (byPath : GHashTable P W) : Prop where
  anchored : Anchored wd path byWd byPath
  filed : GHashTable.Filed wd byWd
  current : Current path byWd byPath

variable {wd path} {byWd : GHashTable D W} {byPath : GHashTable P W}

theorem Anchored.empty : Anchored wd path (∅ : GHashTable D W) (∅ : GHashTable P W) := by
  intro p w found
  simp at found

theorem Current.empty : Current path (∅ : GHashTable D W) (∅ : GHashTable P W) := by
  intro d w found
  simp at found

theorem Anchored.wd_injective (anchored : Anchored wd path byWd byPath) {p q : P} {v w : W}
    (first : byPath.lookup p = some v) (second : byPath.lookup q = some w)
    (same : wd v = wd w) : p = q := by
  obtain ⟨pathV, atV⟩ := anchored p v first
  obtain ⟨pathW, atW⟩ := anchored q w second
  rw [same, atW] at atV
  cases atV
  exact pathV.symm.trans pathW

theorem Anchored.insert (anchored : Anchored wd path byWd byPath) (w : W)
    (new : byWd.lookup (wd w) = none) :
    Anchored wd path (byWd.insert (wd w) w) (byPath.insert (path w) w) := by
  intro p v found
  rw [GHashTable.lookup_insert_if] at found
  split at found
  · cases found
    exact ⟨(‹p = path w›).symm, AList.lookup_insert _⟩
  · obtain ⟨atPath, atWd⟩ := anchored p v found
    refine ⟨atPath, ?_⟩
    -- An entry with the new descriptor would be in the other table.
    have differs : wd v ≠ wd w := fun same => by rw [same, new] at atWd; cases atWd
    rw [AList.lookup_insert_ne differs]
    exact atWd

theorem Anchored.erase (anchored : Anchored wd path byWd byPath) {p : P} {w : W}
    (found : byPath.lookup p = some w) :
    Anchored wd path (byWd.erase (wd w)) (byPath.erase p) := by
  intro q v lookup
  rw [GHashTable.lookup_erase_if] at lookup
  split at lookup
  · cases lookup
  · obtain ⟨atPath, atWd⟩ := anchored q v lookup
    refine ⟨atPath, ?_⟩
    have differs : wd v ≠ wd w :=
      fun same => ‹¬q = p› (anchored.wd_injective lookup found same)
    rw [AList.lookup_erase_ne differs]
    exact atWd

theorem Current.insert (current : Current path byWd byPath) (w : W)
    (new : byPath.lookup (path w) = none) :
    Current path (byWd.insert (wd w) w) (byPath.insert (path w) w) := by
  intro d v found
  rw [GHashTable.lookup_insert_if] at found
  split at found
  · cases found
    exact AList.lookup_insert _
  · have atPath := current d v found
    -- And one with the new path in this one.
    have differs : path v ≠ path w := fun same => by rw [same, new] at atPath; cases atPath
    rw [AList.lookup_insert_ne differs]
    exact atPath

theorem Current.erase (current : Current path byWd byPath) (filed : GHashTable.Filed wd byWd)
    {p : P} {w : W} (found : byPath.lookup p = some w) :
    Current path (byWd.erase (wd w)) (byPath.erase p) := by
  intro d v lookup
  rw [GHashTable.lookup_erase_if] at lookup
  split at lookup
  · cases lookup
  · have atPath := current d v lookup
    have differs : path v ≠ p := by
      intro same
      rw [same, found] at atPath
      cases atPath
      exact ‹¬d = wd w› (filed d w lookup).symm
    rw [AList.lookup_erase_ne differs]
    exact atPath

theorem Anchored.insert_stale (anchored : Anchored wd path byWd byPath) {v w : W}
    (older : byPath.lookup (path w) = some v) (new : byWd.lookup (wd w) = none) :
    ¬Current path (byWd.insert (wd w) w) (byPath.insert (path w) w) := by
  intro current
  obtain ⟨pathV, atV⟩ := anchored (path w) v older
  have differs : wd v ≠ wd w := fun same => by rw [same, new] at atV; cases atV
  have kept : (byWd.insert (wd w) w).lookup (wd v) = some v := by
    rw [AList.lookup_insert_ne differs]
    exact atV
  have atPath := current (wd v) v kept
  rw [pathV, AList.lookup_insert] at atPath
  cases atPath
  exact differs rfl

theorem Inverse.empty : Inverse wd path (∅ : GHashTable D W) (∅ : GHashTable P W) :=
  ⟨.empty, .empty, .empty⟩

theorem Inverse.insert (inverse : Inverse wd path byWd byPath) (w : W) (newWd : byWd.lookup (wd w) = none)
    (newPath : byPath.lookup (path w) = none) :
    Inverse wd path (byWd.insert (wd w) w) (byPath.insert (path w) w) :=
  ⟨inverse.anchored.insert w newWd, inverse.filed.insert w, inverse.current.insert w newPath⟩

theorem Inverse.erase (inverse : Inverse wd path byWd byPath) {p : P} {w : W}
    (found : byPath.lookup p = some w) : Inverse wd path (byWd.erase (wd w)) (byPath.erase p) :=
  ⟨inverse.anchored.erase found, inverse.filed.erase (wd w), inverse.current.erase inverse.filed found⟩

theorem Inverse.lookup_iff (inverse : Inverse wd path byWd byPath) (d : D) (p : P) (w : W) :
    byPath.lookup p = some w ∧ wd w = d ↔ byWd.lookup d = some w ∧ path w = p := by
  constructor
  · rintro ⟨found, rfl⟩
    exact (inverse.anchored p w found).symm
  · rintro ⟨found, rfl⟩
    exact ⟨inverse.current d w found, inverse.filed d w found⟩

end PairedTables
end Inotispy.Library
