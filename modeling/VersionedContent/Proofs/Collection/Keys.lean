import Mathlib.Data.String.Basic
import Mathlib.Tactic.SplitIfs
import Mathlib.Tactic.Tauto
import VersionedContent.Collection.Dict

/-!
# Keys of dictionaries

An insertion adds one key and keeps the keys increasing, an erasure and a
restriction take keys out. With increasing keys every entry is the one found under
its key.
-/

namespace VersionedContent.Dict

variable {α : Type} {dict : Dict α}

/-- An insertion adds the one key. -/
theorem mem_keys_insert (dict : Dict α) (key name : String) (value : α) :
    name ∈ (insert dict key value).keys ↔ name = key ∨ name ∈ dict.keys := by
  induction dict with
  | nil => simp [insert, keys]
  | cons entry rest ih =>
    obtain ⟨first, old⟩ := entry
    simp only [keys, List.map_cons, List.mem_cons] at ih ⊢
    rw [insert]
    split_ifs with h1 h2
    · simp
    · subst h2
      simp
    · simp only [List.map_cons, List.mem_cons, ih]
      tauto

/-- A restriction keeps the keys that pass the test. -/
theorem mem_keys_restrict (dict : Dict α) (keep : String → Bool) (name : String) :
    name ∈ (restrict dict keep).keys ↔ name ∈ dict.keys ∧ keep name = true := by
  simp only [keys, restrict, List.mem_map, List.mem_filter]
  constructor
  · rintro ⟨entry, ⟨hm, hk⟩, rfl⟩
    exact ⟨⟨entry, hm, rfl⟩, hk⟩
  · rintro ⟨⟨entry, hm, rfl⟩, hk⟩
    exact ⟨entry, ⟨hm, hk⟩, rfl⟩

/-- A restriction that keeps every key changes nothing. -/
theorem restrict_eq_self {keep : String → Bool} (h : ∀ name ∈ dict.keys, keep name = true) :
    restrict dict keep = dict :=
  List.filter_eq_self.mpr fun entry hm => h entry.1 (List.mem_map_of_mem hm)

/-- A value is found under every key. -/
theorem get?_ne_none_iff (dict : Dict α) (key : String) :
    get? dict key ≠ none ↔ key ∈ dict.keys := by
  induction dict with
  | nil => simp [keys]
  | cons entry rest ih =>
    obtain ⟨name, value⟩ := entry
    simp only [keys, List.map_cons, List.mem_cons, get?] at ih ⊢
    by_cases h : key = name
    · simp [h]
    · simp [h, ih]

/-- Stores a value under a key, or drops its entry. -/
def put (dict : Dict α) (key : String) : Option α → Dict α
  | some value => insert dict key value
  | none => erase dict key

/-- Looking a key up after a value was stored or dropped. -/
theorem get?_put (dict : Dict α) (key other : String) (value : Option α) :
    get? (put dict key value) other = if other = key then value else get? dict other := by
  cases value with
  | none => exact get?_erase dict key other
  | some value => exact get?_insert dict key other value

/-- Nothing is dropped where nothing is stored. -/
theorem put_none_of_get?_eq_none {key : String} (h : get? dict key = none) :
    put dict key none = dict := by
  refine List.filter_eq_self.mpr fun entry hm => decide_eq_true fun he => ?_
  exact (get?_ne_none_iff dict key).mpr (he ▸ List.mem_map_of_mem hm) h

/-- An insertion keeps keys increasing. -/
theorem Sorted.insert (h : dict.Sorted) (key : String) (value : α) :
    (Dict.insert dict key value).Sorted := by
  induction dict with
  | nil => exact List.pairwise_singleton _ _
  | cons entry rest ih =>
    obtain ⟨name, old⟩ := entry
    obtain ⟨hfirst, hrest⟩ := List.pairwise_cons.mp h
    rw [Dict.insert]
    split_ifs with h1 h2
    · refine List.pairwise_cons.mpr ⟨fun other hm => ?_, h⟩
      rcases List.mem_cons.mp hm with rfl | hm
      · exact h1
      · exact lt_trans h1 (hfirst other hm)
    · subst h2
      exact List.pairwise_cons.mpr ⟨hfirst, hrest⟩
    · have hlt : name < key := lt_of_le_of_ne (not_lt.mp h1) (Ne.symm h2)
      refine List.pairwise_cons.mpr ⟨fun other hm => ?_, ih hrest⟩
      rcases mem_insert hm with rfl | hm
      · exact hlt
      · exact hfirst other hm

/-- With increasing keys every entry is found. -/
theorem Sorted.get?_of_mem (h : dict.Sorted) {key : String} {value : α}
    (hm : (key, value) ∈ dict) : get? dict key = some value := by
  induction dict with
  | nil => cases hm
  | cons entry rest ih =>
    obtain ⟨name, old⟩ := entry
    obtain ⟨hfirst, hrest⟩ := List.pairwise_cons.mp h
    rw [get?]
    rcases List.mem_cons.mp hm with he | hm
    · obtain ⟨rfl, rfl⟩ := Prod.mk.inj he
      rw [if_pos rfl]
    · rw [if_neg (ne_of_gt (hfirst _ hm))]
      exact ih hrest hm

/-- Storing a value where it is stored changes nothing. -/
theorem Sorted.insert_eq_self (h : dict.Sorted) {key : String} {value : α}
    (hg : get? dict key = some value) : Dict.insert dict key value = dict := by
  induction dict with
  | nil => cases hg
  | cons entry rest ih =>
    obtain ⟨name, old⟩ := entry
    obtain ⟨hfirst, hrest⟩ := List.pairwise_cons.mp h
    rw [get?] at hg
    rw [Dict.insert]
    split_ifs at hg with he
    · obtain rfl := Option.some.inj hg
      rw [if_neg (he ▸ lt_irrefl name), if_pos he, he]
    · have hlt : name < key := hfirst _ (mem_of_get?_eq_some hg)
      rw [if_neg (not_lt_of_gt hlt), if_neg he, ih hrest hg]

end VersionedContent.Dict
