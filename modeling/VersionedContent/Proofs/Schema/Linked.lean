import Mathlib.Data.List.Basic
import Mathlib.Tactic.SplitIfs
import VersionedContent.Schema.Difference
import VersionedContent.Schema.Version

/-!
# Linked versions

The versions of one chain, from the first to the latest: numbered, linked to
their neighbours, each with the changes that are the difference from the version
before it. A chain that is extended at its end stays one. Numbers and links alone
make it joined, whatever the versions say.
-/

namespace VersionedContent.Version

/-- A list of versions that follow each other, from the first to the latest. -/
structure Linked (versions : List Version) : Prop where
  /-- The number of a version is its place; numbers start over after 32 bits. -/
  number : ∀ {i : Nat} {version : Version}, versions[i]? = some version →
    version.number = (i + 1) % 4294967296
  /-- Nothing is before the first version. -/
  first : ∀ {version : Version}, versions[0]? = some version → version.previous = none
  /-- Every other version knows the one before it. -/
  previous : ∀ {i : Nat} {version : Version}, versions[i + 1]? = some version →
    version.previous = versions[i]?.map Version.id
  /-- Every version knows the one after it, if there is one. -/
  next : ∀ {i : Nat} {version : Version}, versions[i]? = some version →
    version.next = versions[i + 1]?.map Version.id
  /-- Every version differs from the one before it by its changes. -/
  derived : ∀ {i : Nat} {before version : Version}, versions[i]? = some before →
    versions[i + 1]? = some version →
    ∃ renames, before.definition.difference version.definition renames = .ok version.changes

/-- A list of versions that are numbered and linked to their neighbours. -/
structure Joined (versions : List Version) : Prop where
  /-- The number of a version is its place; numbers start over after 32 bits. -/
  number : ∀ {i : Nat} {version : Version}, versions[i]? = some version →
    version.number = (i + 1) % 4294967296
  /-- Nothing is before the first version. -/
  first : ∀ {version : Version}, versions[0]? = some version → version.previous = none
  /-- Every other version knows the one before it. -/
  previous : ∀ {i : Nat} {version : Version}, versions[i + 1]? = some version →
    version.previous = versions[i]?.map Version.id
  /-- Every version knows the one after it, if there is one. -/
  next : ∀ {i : Nat} {version : Version}, versions[i]? = some version →
    version.next = versions[i + 1]?.map Version.id

/-- A chain is joined. -/
theorem Linked.joined {versions : List Version} (h : Linked versions) : Joined versions :=
  ⟨h.number, h.first, h.previous, h.next⟩

/-- Joined versions are a chain when each has the changes from the one before it. -/
theorem Joined.linked {versions : List Version} (h : Joined versions)
    (hd : ∀ {i : Nat} {before version : Version}, versions[i]? = some before →
      versions[i + 1]? = some version →
      ∃ renames, before.definition.difference version.definition renames = .ok version.changes) :
    Linked versions :=
  ⟨h.number, h.first, h.previous, h.next, hd⟩

/-- A number is a place, counted from one, while joined versions can be numbered. -/
theorem Joined.number_eq {versions : List Version} (h : Joined versions)
    (hl : versions.length < 4294967296) {i : Nat} {version : Version}
    (hv : versions[i]? = some version) : version.number = i + 1 := by
  obtain ⟨hi, -⟩ := List.getElem?_eq_some_iff.mp hv
  rw [h.number hv]
  omega

/-- A version without neighbours is joined. -/
theorem joined_singleton {version : Version} (hn : version.number = 1)
    (hp : version.previous = none) (hs : version.next = none) : Joined [version] where
  number {i} other h := by
    obtain ⟨hi, rfl⟩ := List.getElem?_eq_some_iff.mp h
    obtain rfl : i = 0 := by simpa using hi
    exact hn
  first h := by
    obtain rfl := Option.some.inj h
    exact hp
  previous {i} other h := by simp at h
  next {i} other h := by
    obtain ⟨hi, rfl⟩ := List.getElem?_eq_some_iff.mp h
    obtain rfl : i = 0 := by simpa using hi
    simpa using hs

/-- A version without neighbours is a chain. -/
theorem linked_singleton {version : Version} (hn : version.number = 1)
    (hp : version.previous = none) (hs : version.next = none) : Linked [version] :=
  (joined_singleton hn hp hs).linked fun _ h => by simp at h

section Concat

variable {init : List Version} {latest successor : Version}

/-- The last place of a list. -/
private theorem getElem?_last (init : List Version) (latest : Version) :
    (init ++ [latest])[init.length]? = some latest := by
  simp

/-- A place of a chain that goes on is an old one, that of the version linked anew, or that of the
version at the end. -/
private theorem places_concat {i : Nat} {version : Version}
    (hv : (init ++ [{ latest with next := some successor.id }] ++ [successor])[i]? =
      some version) :
    (i < init.length ∧ (init ++ [latest])[i]? = some version) ∨
      (i = init.length ∧ version = { latest with next := some successor.id }) ∨
      (i = init.length + 1 ∧ version = successor) := by
  rw [List.append_assoc] at hv
  by_cases hi : i < init.length
  · rw [List.getElem?_append_left hi] at hv
    exact .inl ⟨hi, by rw [List.getElem?_append_left hi, hv]⟩
  · rw [List.getElem?_append_right (by omega)] at hv
    obtain ⟨k, hk⟩ := Nat.exists_eq_add_of_le (Nat.not_lt.mp hi)
    rw [hk, Nat.add_sub_cancel_left] at hv
    rcases k with _ | _ | k
    · exact .inr (.inl ⟨hk, (Option.some.inj hv).symm⟩)
    · exact .inr (.inr ⟨hk, (Option.some.inj hv).symm⟩)
    · cases hv

/-- The identifiers along a chain that goes on. -/
private theorem ids_concat (i : Nat) :
    (init ++ [{ latest with next := some successor.id }] ++ [successor])[i]?.map Version.id =
      if i = init.length + 1 then some successor.id
      else (init ++ [latest])[i]?.map Version.id := by
  rw [← List.getElem?_map, ← List.getElem?_map]
  simp only [List.map_append, List.map_cons, List.map_nil]
  split_ifs with hi
  · rw [hi, List.getElem?_append_right (by simp)]
    simp
  · by_cases hl : i < init.length + 1
    · rw [List.getElem?_append_left (by simpa using hl)]
    · rw [List.getElem?_eq_none (by simp; omega), List.getElem?_eq_none (by simp; omega)]

/-- Joined versions go on with one that follows the last of them. -/
theorem Joined.concat (h : Joined (init ++ [latest]))
    (hn : successor.number = nextNumber latest.number) (hp : successor.previous = some latest.id)
    (hs : successor.next = none) :
    Joined (init ++ [{ latest with next := some successor.id }] ++ [successor]) := by
  have hlast := getElem?_last init latest
  have hnumber := h.number hlast
  constructor
  · intro i version hv
    rcases places_concat hv with ⟨-, ho⟩ | ⟨rfl, rfl⟩ | ⟨rfl, rfl⟩
    · exact h.number ho
    · exact hnumber
    · rw [hn, nextNumber, hnumber]
      omega
  · intro version hv
    rcases places_concat hv with ⟨-, ho⟩ | ⟨hi, rfl⟩ | ⟨hi, -⟩
    · exact h.first ho
    · rw [← hi] at hlast
      have hfirst := h.first hlast
      exact hfirst
    · omega
  · intro i version hv
    rw [ids_concat]
    rcases places_concat hv with ⟨hi, ho⟩ | ⟨hi, rfl⟩ | ⟨hi, rfl⟩
    · rw [if_neg (by omega)]
      exact h.previous ho
    · rw [← hi] at hlast
      have hprevious := h.previous hlast
      rw [if_neg (by omega)]
      exact hprevious
    · obtain rfl : i = init.length := by omega
      rw [if_neg (by omega), hlast, hp]
      rfl
  · intro i version hv
    rw [ids_concat]
    rcases places_concat hv with ⟨hi, ho⟩ | ⟨rfl, rfl⟩ | ⟨rfl, rfl⟩
    · rw [if_neg (by omega)]
      exact h.next ho
    · rw [if_pos rfl]
    · rw [if_neg (by omega), List.getElem?_eq_none (by simp), hs]
      rfl

/-- A chain goes on with a version that follows its last one. -/
theorem Linked.concat (h : Linked (init ++ [latest]))
    (hn : successor.number = nextNumber latest.number) (hp : successor.previous = some latest.id)
    (hs : successor.next = none)
    (hd : ∃ renames, latest.definition.difference successor.definition renames =
      .ok successor.changes) :
    Linked (init ++ [{ latest with next := some successor.id }] ++ [successor]) := by
  refine (h.joined.concat hn hp hs).linked fun {i before version} hb hv => ?_
  have hlast := getElem?_last init latest
  rcases places_concat hb with ⟨hib, hob⟩ | ⟨rfl, rfl⟩ | ⟨rfl, -⟩ <;>
    rcases places_concat hv with ⟨hiv, hov⟩ | ⟨hiv, rfl⟩ | ⟨hiv, rfl⟩
  · exact h.derived hob hov
  · rw [← hiv] at hlast
    have hderived := h.derived hob hlast
    exact hderived
  · omega
  · omega
  · omega
  · exact hd
  · omega
  · omega
  · omega

end Concat

/-- Every version but the last has a successor. -/
theorem Joined.isLatest_of_mem {init : List Version} {latest : Version}
    (h : Joined (init ++ [latest])) : ∀ version ∈ init, version.isLatest = false := by
  intro version hm
  obtain ⟨i, hi, rfl⟩ := List.getElem_of_mem hm
  have hplace : (init ++ [latest])[i]? = some init[i] := by
    rw [List.getElem?_append_left hi, List.getElem?_eq_getElem hi]
  have hnext := h.next hplace
  obtain ⟨after, ha⟩ : ∃ after, (init ++ [latest])[i + 1]? = some after :=
    ⟨_, List.getElem?_eq_getElem (by simp; omega)⟩
  rw [ha] at hnext
  simp [isLatest, hnext]

/-- The last version has no successor. -/
theorem Joined.isLatest_last {init : List Version} {latest : Version}
    (h : Joined (init ++ [latest])) : latest.isLatest = true := by
  have hnext := h.next (getElem?_last init latest)
  rw [List.getElem?_eq_none (by simp)] at hnext
  simp [isLatest, hnext]

/-- The latest version is the last one. -/
theorem Linked.find?_isLatest {versions : List Version} (h : Linked versions) :
    versions.find? isLatest = versions.getLast? := by
  rcases List.eq_nil_or_concat' versions with rfl | ⟨init, latest, rfl⟩
  · rfl
  · have hinit : init.find? isLatest = none :=
      List.find?_eq_none.mpr fun version hm => by simp [h.joined.isLatest_of_mem version hm]
    rw [List.find?_append, hinit, List.find?_singleton, if_pos h.joined.isLatest_last]
    simp

/-- The first version is a root, and no other one is. -/
theorem Joined.isRoot_iff {versions : List Version} (h : Joined versions) {i : Nat}
    {version : Version} (hv : versions[i]? = some version) : version.isRoot = true ↔ i = 0 := by
  cases i with
  | zero => simp [isRoot, h.first hv]
  | succ i =>
    obtain ⟨hi, -⟩ := List.getElem?_eq_some_iff.mp hv
    have hp := h.previous hv
    rw [List.getElem?_eq_getElem (by omega)] at hp
    simp [isRoot, hp]

/-- The root is the first version. -/
theorem Linked.find?_isRoot {versions : List Version} (h : Linked versions) :
    versions.find? isRoot = versions.head? := by
  cases versions with
  | nil => rfl
  | cons root rest =>
    have hroot : root.isRoot = true := (h.joined.isRoot_iff (i := 0) rfl).mpr rfl
    simp [hroot]

end VersionedContent.Version
