import VersionedContent.Proofs.Store.Chain

/-!
# Linear chains

Versions of one kind and name are linear when they can be walked over from the only
first one to the only latest one, and are numbered on the way. Joined versions are,
as long as there are numbers for them.
-/

namespace VersionedContent

namespace Store

/-- What a walk over a chain, from the first version to the latest, passes. -/
structure Linear (store : Store) (kind : Kind) (name : String) (walk : List Version) : Prop where
  /-- No version is passed twice. -/
  once : (walk.map Version.id).Nodup
  /-- The stored versions of the kind and name are passed, and no others. -/
  all : ∀ version, version ∈ walk ↔
    version ∈ store.versions.rows ∧ version.kind = kind ∧ version.name = name
  /-- The versions are numbered from one on. -/
  numbers : walk.map Version.number = List.range' 1 walk.length
  /-- Neighbours know each other. -/
  linked : ∀ i before version, walk[i]? = some before → walk[i + 1]? = some version →
    before.next = some version.id ∧ version.previous = some before.id
  /-- One of the versions has nothing before it. -/
  root : ∃! version, version ∈ walk ∧ version.previous = none
  /-- That is the first one. -/
  begins : ∀ version, walk.head? = some version → version.previous = none
  /-- One of the versions has nothing after it. -/
  latest : ∃! version, version ∈ walk ∧ version.next = none
  /-- That is the last one. -/
  ends : ∀ version, walk.getLast? = some version → version.next = none

variable {store : Store} {kind : Kind} {name : String}

/-- A property of just one place of a list is one of just one element. -/
private theorem existsUnique_of_place {α : Type} {list : List α} {P : α → Prop} {place : Nat}
    (hp : place < list.length) (h : ∀ (i : Nat) a, list[i]? = some a → (P a ↔ i = place)) :
    ∃! a, a ∈ list ∧ P a := by
  have hget := List.getElem?_eq_getElem hp
  refine ⟨list[place], ⟨List.getElem_mem hp, (h place _ hget).mpr rfl⟩, ?_⟩
  rintro a ⟨hm, ha⟩
  obtain ⟨i, hi⟩ := List.mem_iff_getElem?.mp hm
  obtain rfl := (h i a hi).mp ha
  exact Option.some.inj (hi.symm.trans hget)

/-- The joined versions of a kind and name are what a walk over them passes, while they can be
numbered. -/
theorem linear_of_joined (h : Version.Joined (store.chainVersions kind name))
    (hne : store.chainVersions kind name ≠ [])
    (hl : (store.chainVersions kind name).length < 4294967296) :
    Linear store kind name (store.chainVersions kind name) where
  once := store.nodup_chainVersions kind name
  all version := mem_chainVersions
  numbers := by
    refine List.ext_getElem (by simp) fun i hi _ => ?_
    rw [List.length_map] at hi
    have hnumber := h.number_eq hl (List.getElem?_eq_getElem hi)
    simp only [List.getElem_map, List.getElem_range', hnumber]
    omega
  linked i before version hb hv := by
    have hnext := h.next hb
    have hprevious := h.previous hv
    rw [hv] at hnext
    rw [hb] at hprevious
    exact ⟨hnext, hprevious⟩
  root := existsUnique_of_place (List.length_pos_iff.mpr hne) fun i version hv => by
    rw [← h.isRoot_iff hv, Version.isRoot, Option.isNone_iff_eq_none]
  begins version hv := by
    rw [List.head?_eq_getElem?] at hv
    exact h.first hv
  latest := by
    have hpos := List.length_pos_iff.mpr hne
    refine existsUnique_of_place (Nat.sub_one_lt_of_lt hpos) fun i version hv => ?_
    obtain ⟨hi, -⟩ := List.getElem?_eq_some_iff.mp hv
    rw [h.next hv, Option.map_eq_none_iff, List.getElem?_eq_none_iff]
    omega
  ends version hv := by
    obtain ⟨init, hc⟩ := List.getLast?_eq_some_iff.mp hv
    rw [hc] at h
    simpa [Version.isLatest] using h.isLatest_last

end Store

end VersionedContent
