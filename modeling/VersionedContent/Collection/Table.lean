/-!
# Tables of records

A table holds records in the order in which their keys were first stored, at
most one record per key. Storing a record under a key that is present replaces
the record in place. An erased key keeps its place for the next record that is
stored under it.
-/

namespace VersionedContent

/-- Records of type `α`, each under its own key. -/
structure Table {κ : Type} [DecidableEq κ] (α : Type) (key : α → κ) where
  /-- The keys that have been stored, in the order in which they first were, and the record
  of each key that has not been erased since. -/
  slots : List (κ × Option α) := []
  /-- No key occurs twice. -/
  nodup : (slots.map Prod.fst).Nodup := by simp
  /-- Each record stands under its own key. -/
  keyed : ∀ slot ∈ slots, ∀ row, slot.2 = some row → key row = slot.1 := by simp

namespace Table

variable {κ α : Type} [DecidableEq κ] {key : α → κ}

/-- The records, in the order in which their keys were first stored. -/
def rows (table : Table α key) : List α := table.slots.filterMap Prod.snd

/-- The record stored under a key. -/
def find? (table : Table α key) (k : κ) : Option α :=
  table.rows.find? fun row => key row = k

/-- Whether a key has a record. -/
def contains (table : Table α key) (k : κ) : Bool := (table.find? k).isSome

/-- Number of records. -/
def size (table : Table α key) : Nat := table.rows.length

/-- Fills or empties the slot of a key. -/
def setSlot (k : κ) (content : Option α) (slots : List (κ × Option α)) : List (κ × Option α) :=
  slots.map fun slot => if slot.1 = k then (slot.1, content) else slot

theorem map_fst_setSlot (k : κ) (content : Option α) (slots : List (κ × Option α)) :
    (setSlot k content slots).map Prod.fst = slots.map Prod.fst := by
  simp only [setSlot, List.map_map]
  refine List.map_congr_left fun slot _ => ?_
  simp only [Function.comp]
  split <;> rfl

theorem mem_setSlot {k : κ} {content : Option α} {slots : List (κ × Option α)}
    {slot : κ × Option α} :
    slot ∈ setSlot k content slots ↔
      (slot = (k, content) ∧ k ∈ slots.map Prod.fst) ∨ (slot ∈ slots ∧ slot.1 ≠ k) := by
  simp only [setSlot, List.mem_map]
  constructor
  · rintro ⟨old, hm, he⟩
    split at he
    · rename_i h
      exact Or.inl ⟨by rw [← he, h], old, hm, h⟩
    · rename_i h
      exact Or.inr (he ▸ ⟨hm, h⟩)
  · rintro (⟨rfl, old, hm, h⟩ | ⟨hm, h⟩)
    · exact ⟨old, hm, by simp [h]⟩
    · exact ⟨slot, hm, by simp [h]⟩

theorem keyed_setSlot (table : Table α key) {k : κ} {content : Option α}
    (h : ∀ row, content = some row → key row = k) :
    ∀ slot ∈ setSlot k content table.slots, ∀ row, slot.2 = some row → key row = slot.1 := by
  intro slot hm
  rcases mem_setSlot.1 hm with ⟨rfl, -⟩ | ⟨hm, -⟩
  · exact h
  · exact table.keyed slot hm

/-- Stores a record: in place of the record with its key, else at the end. -/
def insert (table : Table α key) (row : α) : Table α key :=
  if h : key row ∈ table.slots.map Prod.fst then
    { slots := setSlot (key row) (some row) table.slots
      nodup := by rw [map_fst_setSlot]; exact table.nodup
      keyed := table.keyed_setSlot (by simp) }
  else
    { slots := table.slots ++ [(key row, some row)]
      nodup := by
        rw [List.map_append, List.map_singleton]
        refine List.nodup_append.2 ⟨table.nodup, by simp, ?_⟩
        intro a ha b hb e
        simp only [List.mem_singleton] at hb
        exact h (hb ▸ e ▸ ha)
      keyed := by
        intro slot hm other ho
        rcases List.mem_append.1 hm with hm | hm
        · exact table.keyed slot hm other ho
        · rw [List.mem_singleton] at hm
          subst hm
          cases ho
          rfl }

/-- Drops the record of a key. -/
def erase (table : Table α key) (k : κ) : Table α key where
  slots := setSlot k none table.slots
  nodup := by rw [map_fst_setSlot]; exact table.nodup
  keyed := table.keyed_setSlot (by simp)

/-- The records of a table are those in its slots. -/
theorem mem_rows (table : Table α key) {row : α} :
    row ∈ table.rows ↔ (key row, some row) ∈ table.slots := by
  simp only [rows, List.mem_filterMap]
  constructor
  · rintro ⟨slot, hm, he⟩
    rw [table.keyed slot hm row he, ← he]
    exact hm
  · exact fun hm => ⟨_, hm, rfl⟩

/-- Two records of one table with one key are one record. -/
theorem eq_of_key_eq (table : Table α key) {a b : α} (ha : a ∈ table.rows) (hb : b ∈ table.rows)
    (h : key a = key b) : a = b := by
  rw [mem_rows] at ha hb
  rw [← h] at hb
  have hn := table.nodup
  generalize table.slots = slots at ha hb hn
  induction slots with
  | nil => simp at ha
  | cons first rest ih =>
    simp only [List.map_cons, List.nodup_cons, List.mem_map, not_exists, not_and] at hn
    rcases List.mem_cons.1 ha with ha | ha <;> rcases List.mem_cons.1 hb with hb | hb
    · rw [← ha] at hb
      simpa using hb.symm
    · exact absurd (by rw [← ha]) (hn.1 _ hb)
    · exact absurd (by rw [← hb]) (hn.1 _ ha)
    · exact ih ha hb hn.2

/-- A look-up finds exactly the record with the key. -/
theorem find?_eq_some_iff (table : Table α key) {k : κ} {row : α} :
    table.find? k = some row ↔ row ∈ table.rows ∧ key row = k := by
  constructor
  · intro h
    exact ⟨List.mem_of_find?_eq_some h, by simpa using List.find?_some h⟩
  · rintro ⟨hm, rfl⟩
    cases hf : table.find? (key row) with
    | none =>
      have := List.find?_eq_none.1 hf row hm
      simp at this
    | some found =>
      have hk : key found = key row := by simpa using List.find?_some hf
      rw [table.eq_of_key_eq (List.mem_of_find?_eq_some hf) hm hk]

/-- A record of a table after an insertion is the new one or an old one with another key. -/
theorem mem_insert (table : Table α key) (row other : α) :
    other ∈ (table.insert row).rows ↔ other = row ∨ (other ∈ table.rows ∧ key other ≠ key row) := by
  rw [mem_rows, mem_rows]
  unfold insert
  split
  · rename_i h
    simp only [mem_setSlot, Prod.mk.injEq, Option.some.injEq]
    constructor
    · rintro (⟨⟨-, rfl⟩, -⟩ | ⟨hm, hne⟩)
      · exact Or.inl rfl
      · exact Or.inr ⟨hm, hne⟩
    · rintro (rfl | ⟨hm, hne⟩)
      · exact Or.inl ⟨⟨rfl, rfl⟩, h⟩
      · exact Or.inr ⟨hm, hne⟩
  · rename_i h
    simp only [List.mem_append, List.mem_singleton, Prod.mk.injEq, Option.some.injEq]
    constructor
    · rintro (hm | ⟨-, rfl⟩)
      · exact Or.inr ⟨hm, fun e => h (e ▸ List.mem_map.2 ⟨_, hm, rfl⟩)⟩
      · exact Or.inl rfl
    · rintro (rfl | ⟨hm, -⟩)
      · exact Or.inr ⟨rfl, rfl⟩
      · exact Or.inl hm

@[simp] theorem mem_erase (table : Table α key) (k : κ) (row : α) :
    row ∈ (table.erase k).rows ↔ row ∈ table.rows ∧ key row ≠ k := by
  simp [mem_rows, erase, mem_setSlot]

/-- Looking a key up after an insertion. -/
theorem find?_insert (table : Table α key) (row : α) (k : κ) :
    (table.insert row).find? k = if k = key row then some row else table.find? k := by
  apply Option.ext
  intro found
  rw [find?_eq_some_iff, mem_insert]
  split
  · rename_i h
    subst h
    constructor
    · rintro ⟨rfl | ⟨-, hne⟩, he⟩
      · rfl
      · exact absurd he hne
    · intro h
      cases h
      exact ⟨Or.inl rfl, rfl⟩
  · rename_i h
    rw [find?_eq_some_iff]
    constructor
    · rintro ⟨rfl | ⟨hm, -⟩, he⟩
      · exact absurd he.symm h
      · exact ⟨hm, he⟩
    · rintro ⟨hm, he⟩
      exact ⟨Or.inr ⟨hm, fun e => h (he ▸ e)⟩, he⟩

/-- Looking a key up after an erasure. -/
theorem find?_erase (table : Table α key) (k other : κ) :
    (table.erase k).find? other = if other = k then none else table.find? other := by
  apply Option.ext
  intro found
  rw [find?_eq_some_iff, mem_erase]
  split
  · rename_i h
    subst h
    constructor
    · rintro ⟨⟨-, hne⟩, he⟩
      exact absurd he hne
    · intro h
      cases h
  · rename_i h
    rw [find?_eq_some_iff]
    constructor
    · rintro ⟨⟨hm, -⟩, he⟩
      exact ⟨hm, he⟩
    · rintro ⟨hm, he⟩
      exact ⟨⟨hm, fun e => h (he ▸ e)⟩, he⟩

end Table

end VersionedContent
