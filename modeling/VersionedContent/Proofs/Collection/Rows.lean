import Mathlib.Data.List.Nodup
import VersionedContent.Collection.Table

/-!
# Rows of tables

What an insertion does to the rows of a table as a list. A record under a key
that was never stored comes last; a record under the key of another one takes
its place.
-/

namespace VersionedContent.Table

variable {κ α : Type} [DecidableEq κ] {key : α → κ} {table : Table α key}

/-- The keys that have ever been stored. -/
def keys (table : Table α key) : List κ := table.slots.map Prod.fst

/-- The key of a record has been stored. -/
theorem mem_keys {row : α} (h : row ∈ table.rows) : key row ∈ table.keys :=
  List.mem_map.mpr ⟨_, table.mem_rows.mp h, rfl⟩

/-- No two records have one key. -/
theorem nodup_map_key (table : Table α key) : (table.rows.map key).Nodup := by
  have hsub : (table.rows.map key).Sublist table.keys := by
    rw [rows, keys]
    have hkeyed := table.keyed
    generalize table.slots = slots at hkeyed
    induction slots with
    | nil => simp
    | cons slot rest ih =>
      have hrest := ih fun other hm => hkeyed other (List.mem_cons_of_mem _ hm)
      obtain ⟨k, content⟩ := slot
      cases content with
      | none => exact hrest.trans (List.sublist_cons_self _ _)
      | some row =>
        have hk : key row = k := hkeyed (k, some row) List.mem_cons_self row rfl
        simp only [List.filterMap_cons, List.map_cons, hk]
        exact hrest.cons_cons _
  exact table.nodup.sublist hsub

/-- An insertion adds the key of the record. -/
theorem mem_keys_insert {row : α} {k : κ} :
    k ∈ (table.insert row).keys ↔ k = key row ∨ k ∈ table.keys := by
  unfold insert keys
  split
  · next h =>
    rw [map_fst_setSlot]
    constructor
    · exact .inr
    · rintro (rfl | hk)
      · exact h
      · exact hk
  · simp [or_comm]

/-- A record under a new key comes last. -/
theorem rows_insert_of_notMem {row : α} (h : key row ∉ table.keys) :
    (table.insert row).rows = table.rows ++ [row] := by
  unfold keys at h
  unfold insert rows
  rw [dif_neg h]
  simp

/-- A record under the key of another one takes its place. -/
theorem rows_insert_of_mem {old row : α} (ho : old ∈ table.rows) (hk : key old = key row) :
    (table.insert row).rows =
      table.rows.map fun other => if key other = key row then row else other := by
  have hin : (key row, some old) ∈ table.slots := hk ▸ table.mem_rows.mp ho
  have hmem : key row ∈ table.slots.map Prod.fst := List.mem_map.mpr ⟨_, hin, rfl⟩
  unfold insert rows
  rw [dif_pos hmem]
  dsimp only
  rw [setSlot, List.filterMap_map, List.map_filterMap]
  refine List.filterMap_congr fun slot hm => ?_
  by_cases hs : slot.1 = key row
  · have he : slot = (key row, some old) := List.inj_on_of_nodup_map table.nodup hm hin hs
    simp [he, hk]
  · cases hc : slot.2 with
    | none => simp [hs, hc]
    | some other =>
      have hkey : key other ≠ key row := by
        rw [table.keyed slot hm other hc]
        exact hs
      simp [hs, hc, hkey]

end VersionedContent.Table
