/-!
# Dictionaries with text keys

A dictionary is a list of entries in strictly increasing key order. Text is
compared character by character by code point, which is also the order of the
UTF-8 bytes. `insert` works in one pass, so its look-up laws hold of every
list, ordered or not; `Sorted` says that the order is the increasing one, and
every operation here keeps it.

Recursive types spell `List (String × α)` out where they hold a dictionary of
themselves; the operations apply to both spellings.
-/

namespace VersionedContent

/-- Entries in increasing key order. -/
abbrev Dict (α : Type) := List (String × α)

namespace Dict

variable {α β : Type}

/-- The value stored under a key. -/
def get? : Dict α → String → Option α
  | [], _ => none
  | (name, value) :: rest, key => if key = name then some value else get? rest key

/-- Stores a value under a key, in place of an earlier one. -/
def insert : Dict α → String → α → Dict α
  | [], key, value => [(key, value)]
  | (name, old) :: rest, key, value =>
    if key < name then (key, value) :: (name, old) :: rest
    else if key = name then (key, value) :: rest
    else (name, old) :: insert rest key value

/-- Drops the entry of a key. -/
def erase (dict : Dict α) (key : String) : Dict α :=
  dict.filter fun entry => entry.1 ≠ key

/-- Keeps the entries whose key passes a test. -/
def restrict (dict : Dict α) (keep : String → Bool) : Dict α :=
  dict.filter fun entry => keep entry.1

/-- The dictionary of a list of pairs; the last of two equal keys counts. -/
def ofList (entries : List (String × α)) : Dict α :=
  entries.foldl (fun dict entry => insert dict entry.1 entry.2) []

/-- The keys in increasing order. -/
def keys (dict : Dict α) : List String := dict.map Prod.fst

/-- The values in the order of their keys. -/
def values (dict : Dict α) : List α := dict.map Prod.snd

/-- Whether a key has an entry. -/
def contains (dict : Dict α) (key : String) : Bool := (get? dict key).isSome

/-- Keys increase strictly along the list. -/
def Sorted (dict : Dict α) : Prop := dict.Pairwise fun a b => a.1 < b.1

@[simp] theorem get?_nil (key : String) : get? ([] : Dict α) key = none := rfl

@[simp] theorem get?_insert_self (dict : Dict α) (key : String) (value : α) :
    get? (insert dict key value) key = some value := by
  induction dict with
  | nil => simp [insert, get?]
  | cons entry rest ih =>
    obtain ⟨name, old⟩ := entry
    simp only [insert]
    split
    · simp [get?]
    · split
      · simp [get?]
      · rename_i h
        simp [get?, h, ih]

theorem get?_insert_of_ne (dict : Dict α) {key other : String} (value : α) (h : other ≠ key) :
    get? (insert dict key value) other = get? dict other := by
  induction dict with
  | nil => simp [insert, get?, h]
  | cons entry rest ih =>
    obtain ⟨name, old⟩ := entry
    simp only [insert]
    split
    · simp [get?, h]
    · split
      · rename_i e
        subst e
        simp [get?, h]
      · simp [get?, ih]

/-- Looking a key up after an insertion. -/
theorem get?_insert (dict : Dict α) (key other : String) (value : α) :
    get? (insert dict key value) other = if other = key then some value else get? dict other := by
  split
  · rename_i h
    subst h
    simp
  · rename_i h
    exact get?_insert_of_ne dict value h

/-- Looking a key up after a restriction. -/
theorem get?_restrict (dict : Dict α) (keep : String → Bool) (key : String) :
    get? (restrict dict keep) key = if keep key then get? dict key else none := by
  induction dict with
  | nil => simp [restrict]
  | cons entry rest ih =>
    obtain ⟨name, value⟩ := entry
    simp only [restrict, List.filter_cons] at ih ⊢
    by_cases hk : keep name <;> by_cases he : key = name
    · subst he
      simp [hk, get?]
    · simp [hk, get?, he, ih]
    · subst he
      simp [hk, ih]
    · simp [hk, get?, he, ih]

/-- Looking a key up after an erasure. -/
theorem get?_erase (dict : Dict α) (key other : String) :
    get? (erase dict key) other = if other = key then none else get? dict other := by
  have h := get?_restrict dict (fun name => decide (name ≠ key)) other
  simp only [restrict] at h
  rw [erase, h]
  by_cases e : other = key <;> simp [e]

/-- An entry comes from an insertion or was there before it. -/
theorem mem_insert {dict : Dict α} {key : String} {value : α} {entry : String × α}
    (h : entry ∈ insert dict key value) : entry = (key, value) ∨ entry ∈ dict := by
  induction dict with
  | nil =>
    simp only [insert, List.mem_singleton] at h
    exact Or.inl h
  | cons first rest ih =>
    obtain ⟨name, old⟩ := first
    simp only [insert] at h
    split at h
    · rcases List.mem_cons.1 h with h | h
      · exact Or.inl h
      · exact Or.inr h
    · split at h
      · rcases List.mem_cons.1 h with h | h
        · exact Or.inl h
        · exact Or.inr (List.mem_cons_of_mem _ h)
      · rcases List.mem_cons.1 h with h | h
        · exact Or.inr (h ▸ List.mem_cons_self)
        · exact (ih h).imp id (List.mem_cons_of_mem _)

/-- What a look-up finds is an entry. -/
theorem mem_of_get?_eq_some {dict : Dict α} {key : String} {value : α}
    (h : get? dict key = some value) : (key, value) ∈ dict := by
  induction dict with
  | nil => simp at h
  | cons entry rest ih =>
    obtain ⟨name, old⟩ := entry
    simp only [get?] at h
    split at h
    · rename_i e
      subst e
      simp_all
    · exact List.mem_cons_of_mem _ (ih h)

end Dict

end VersionedContent
